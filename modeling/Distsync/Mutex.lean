import Distsync.Lua.Single
import Distsync.Lease.System
import Mathlib.Data.Set.Subsingleton

/-!
# Distsync.Mutex

Single-owner leases on one key, the way `Mutex` and `Leader` use them: any
number of `SingleOwner` objects with distinct tokens, each client with a clock
of its own, and a server that drops the key no earlier than the deadline it
was given.

A valid lease has its token in the lock (`stored_of_valid`).  Two valid leases
would store two tokens in one key.
-/

namespace Distsync

open Redis Trans

/-- The lease objects on one key. -/
structure OwnerFleet (ι : Type) where
  id : ι → String
  id_inj : Function.Injective id
  ttl : ι → WholeTtl
  fencing : ι → Bool

namespace OwnerFleet

variable {ι : Type} (F : OwnerFleet ι)

/-- The commands that `TryAcquire`, `Renew` and `Release` send. -/
def system : LeaseSystem ι SingleStore where
  ttl := F.ttl
  clocks := .drifting
  acquire server _ i s :=
    singleAcquire (unixMilli server) (F.id i) (milliseconds (F.ttl i).ns) (F.fencing i) s
  renew server _ i s :=
    let res := singleRenew (unixMilli server) (F.id i) (milliseconds (F.ttl i).ns) s.lock
    ({ s with lock := res.1 }, res.2)
  release _ i s :=
    let res := singleRelease (F.id i) s.lock
    ({ s with lock := res.1 }, res.2)
  -- the server drops the key, at its deadline or any time later
  internal server s s' := ∃ v d, s.lock = .present v (some d) ∧ d * 1000000 ≤ server ∧
    s' = { s with lock := .absent }
  sendsRenew _ := True

/-- A free lock; the counter may have any value. -/
def Free (s : SingleStore) : Prop := s.lock = .absent

/-! ## What holds of the keys -/

/-- The lock has a TTL, and a fenced holder has counted its grant. -/
structure StoreInv (s : SingleStore) : Prop where
  timed : Timed s.lock
  counted : ∀ i, F.fencing i = true → s.lock.get = some (F.id i) → s.fencing ≠ none

variable {F}

theorem Free.storeInv {s : SingleStore} (h : Free s) : F.StoreInv s := by
  refine ⟨?_, ?_⟩ <;> rw [h] <;> nofun

/-- A command that keeps the stored token or drops it keeps the invariant. -/
theorem StoreInv.of_get {s : SingleStore} (h : F.StoreInv s) {lock : Slot String}
    (ht : Timed lock) (hget : lock.get = s.lock.get ∨ lock.get = none) :
    F.StoreInv { s with lock := lock } := by
  refine ⟨ht, fun i hi hid => ?_⟩
  rcases hget with hget | hget
  · exact h.counted i hi (hget ▸ hid)
  · exact absurd (hget.symm.trans hid) nofun

theorem StoreInv.acquire {s : SingleStore} (h : F.StoreInv s) (server start : Int) (i : ι) :
    F.StoreInv (F.system.acquire server start i s).1 := by
  refine ⟨timed_singleAcquire h.timed _ _ _ _, ?_⟩
  intro j hj
  rcases singleAcquire_cases (unixMilli server) (F.id i) (milliseconds (F.ttl i).ns)
      (F.fencing i) s with ⟨-, heq⟩ | ⟨-, heq⟩ | ⟨-, heq⟩ | ⟨-, -, heq⟩ <;>
    simp only [system, heq]
  · exact h.counted j hj
  · exact h.counted j hj
  · exact h.counted j hj
  · intro hid
    obtain rfl : i = j := F.id_inj (Option.some.inj hid)
    rw [hj]
    nofun

variable (F) in
theorem keeps_storeInv : F.system.Keeps F.StoreInv where
  acquire server start i s h := h.acquire server start i
  renew server start i s h := by
    refine h.of_get (timed_singleRenew h.timed _ _ _) ?_
    rcases singleRenew_cases (unixMilli server) (F.id i) (milliseconds (F.ttl i).ns) s.lock with
      ⟨-, heq⟩ | ⟨-, heq⟩ <;> rw [heq]
    · exact .inl (Slot.get_pexpire _ _ (F.ttl i).milliseconds_pos)
    · exact .inl rfl
  release server i s h := by
    refine h.of_get (timed_singleRelease h.timed _) ?_
    rcases singleRelease_cases (F.id i) s.lock with ⟨-, heq⟩ | ⟨-, heq⟩ <;> rw [heq]
    · exact .inr rfl
    · exact .inl rfl
  internal server s s' h hs := by
    obtain ⟨v, d, -, -, rfl⟩ := hs
    exact h.of_get nofun (.inr rfl)

/-! ## One object's deadline -/

/-- An attempt as its own object sees it: a replay, a refusal or a grant. -/
theorem acquire_own {s : SingleStore} (h : F.StoreInv s) (server start : Int) (i : ι) :
    let k := storedDeadline (F.id i) s.lock
    let res := F.system.acquire server start i s
    (k ≠ none ∧ storedDeadline (F.id i) res.1.lock = k ∧ (∃ n, res.2 = .int n) ∨
      k = none ∧ storedDeadline (F.id i) res.1.lock = none ∧ (res.2 = .nil ∨ res.2 = .err) ∨
      k = none ∧ storedDeadline (F.id i) res.1.lock = some (unixMilli server + (F.ttl i).ms) ∧
        ∃ n, res.2 = .int n) := by
  intro k res
  rcases singleAcquire_cases (unixMilli server) (F.id i) (milliseconds (F.ttl i).ns)
      (F.fencing i) s with ⟨hown, heq⟩ | ⟨hown, heq⟩ | ⟨⟨other, hget, hne⟩, heq⟩ |
      ⟨hlock, -, heq⟩
  · obtain ⟨d, hd⟩ := storedDeadline_eq_some h.timed hown
    refine .inl ⟨by simp only [k, hd]; nofun, by simp only [res, system, heq, k], ?_⟩
    -- the answer is the counter, which a fenced holder has counted
    simp only [res, system, heq]
    cases hf : F.fencing i with
    | false => exact ⟨0, rfl⟩
    | true =>
        cases hc : s.fencing with
        | none => exact absurd hc (h.counted i hf hown)
        | some n => exact ⟨_, rfl⟩
  · have hk := storedDeadline_eq_none hown
    exact .inr (.inl ⟨hk, by simp only [res, system, heq, hk], .inr (by simp only [res, system, heq])⟩)
  · have hk : k = none := by
      apply storedDeadline_eq_none
      rw [hget]
      exact fun he => hne (Option.some.inj he)
    exact .inr (.inl ⟨hk, by simp only [res, system, heq]; exact hk,
      .inl (by simp only [res, system, heq])⟩)
  · refine .inr (.inr ⟨?_, ?_, ?_⟩)
    · apply storedDeadline_eq_none
      rw [hlock]
      nofun
    · simp only [res, system, heq, storedDeadline_present]
      rw [WholeTtl.milliseconds_ns]
    · simp only [res, system, heq]
      cases F.fencing i with
      | false => exact ⟨0, rfl⟩
      | true => exact ⟨_, rfl⟩

variable (F) in
theorem keyServed (i : ι) :
    F.system.KeyServed F.StoreInv i (fun s => storedDeadline (F.id i) s.lock) where
  acquire server start s h := ⟨_, .inl rfl, acquire_own h server start i⟩
  renew server start s h := by
    refine ⟨_, .inl rfl, ?_⟩
    rcases singleRenew_stored (unixMilli server) (F.id i) (F.ttl i).milliseconds_pos s.lock with
      ⟨hown, hans, heq⟩ | ⟨-, heq⟩
    · obtain ⟨d, hd⟩ := storedDeadline_eq_some h.timed hown
      refine .inl ⟨by rw [hd]; nofun, ?_, hans⟩
      simp only [system, heq, storedDeadline_present]
      rw [WholeTtl.milliseconds_ns]
    · refine .inr ?_
      simp only [system, heq]
      exact ⟨trivial, nofun⟩
  release server s _ := congrArg Option.join (storedBy_singleRelease_self ..)
  acquire_other server start j s hij _ := .inl
    (congrArg Option.join (storedBy_singleAcquire (F.id_inj.ne hij.symm) ..))
  renew_other server start j s hij _ := .inl
    (congrArg Option.join (storedBy_singleRenew (F.id_inj.ne hij.symm) ..))
  release_other server j s hij _ := .inl
    (congrArg Option.join (storedBy_singleRelease (F.id_inj.ne hij.symm) _))
  internal server s s' h hs := by
    obtain ⟨v, d, hlock, hd, rfl⟩ := hs
    by_cases hv : v = F.id i
    · exact .inr ⟨rfl, d, by rw [hlock, hv, storedDeadline_present], hd⟩
    · exact .inl (by rw [hlock, storedDeadline_present_of_ne hv]; rfl)

/-! ## Mutual exclusion -/

variable [DecidableEq ι]

/-- A valid lease has its token in the lock. -/
theorem stored_of_valid {s : LeaseState ι SingleStore} (hlast : P.Last)
    (h : Reach (F.system.Init Free) (F.system.Step P) s)
    (hv : (s.obj i).Valid (s.clock i)) : s.store.lock.get = some (F.id i) := by
  refine get_of_storedDeadline ((F.keyServed i).key_of_valid hlast F.keeps_storeInv ?_ h hv)
  intro st hfree
  refine ⟨hfree.storeInv, ?_⟩
  rw [hfree]
  rfl

variable (F) in
/-- **Mutual exclusion**: if every attempt returns with the answer of its last
execution, in every reachable state at most one lease object that has not begun
releasing has its deadline ahead of its client's clock. -/
theorem at_most_one_valid {s : LeaseState ι SingleStore}
    (h : Reach (F.system.Init Free) (F.system.Step Policy.unrestricted.lastAnswer) s) :
    { i | (s.obj i).Valid (s.clock i) }.Subsingleton := by
  intro i hi j hj
  have hlast := Policy.unrestricted.last_lastAnswer
  have hij : some (F.id i) = some (F.id j) := by
    rw [← stored_of_valid hlast h hi, stored_of_valid hlast h hj]
  exact F.id_inj (Option.some.inj hij)

/-- Two contenders for one fenced key, each with a TTL of one second. -/
def twoOwners : OwnerFleet Bool where
  id := fun first => if first then "a" else "b"
  id_inj := by
    intro i j
    revert i j
    decide
  ttl := fun _ => .second
  fencing := fun _ => true

/-- Nothing has happened, and all clocks show 0. -/
theorem reach_start (F : OwnerFleet ι) (P : Policy) :
    Reach (F.system.Init Free) (F.system.Step P)
      ⟨0, fun _ => 0, ⟨.absent, none⟩, fun _ => .fresh⟩ :=
  .init ⟨rfl, fun _ => rfl, fun _ => trivial⟩

/-- One of them gets the lock: it is valid, and it is the only one. -/
theorem at_most_one_valid_twoOwners :
    ∃ s, Reach (twoOwners.system.Init Free)
        (twoOwners.system.Step Policy.unrestricted.lastAnswer) s ∧
      (s.obj true).Valid (s.clock true) ∧ { i | (s.obj i).Valid (s.clock i) }.Subsingleton := by
  have hreach := LeaseSystem.reach_run (twoOwners.reach_start Policy.unrestricted.lastAnswer)
    [.acquireStart true, .acquireExec true, .acquireReturn true (.int 1)] (by decide +kernel)
  exact ⟨_, hreach, ⟨by decide +kernel, 989000000, by decide +kernel, by decide +kernel⟩,
    twoOwners.at_most_one_valid hreach⟩

/-- Three contenders for one fenced key, each with a TTL of one second. -/
def threeOwners : OwnerFleet (Fin 3) where
  id := ["a", "b", "c"].get
  id_inj := by
    intro i j
    revert i j
    decide
  ttl := fun _ => .second
  fencing := fun _ => true

/-- **An outdated answer breaks the exclusion**: `"b"` has the lock when an
attempt of `"a"` is executed, at 100 ms, and releases it.  A transmission of that
attempt which was overtaken is executed at 120 ms and stores `"a"`, and the answer
that arrives is that of 100 ms.  The next attempt of `"a"`, at 600 ms, finds the
key its own.  So `"a"` counts on it until 1589 ms, and from 1120 ms on it can be
had by `"c"`. -/
theorem outdated_answer_two_valid :
    ∃ s, Reach (threeOwners.system.Init Free) (threeOwners.system.Step .unrestricted) s ∧
      s.clock 0 = 1121000000 ∧ (s.obj 0).Valid (s.clock 0) ∧ (s.obj 2).Valid (s.clock 2) ∧
      s.store.lock.get = some "c" := by
  have hreplayed := LeaseSystem.reach_run (threeOwners.reach_start .unrestricted)
    [.acquireStart 1, .acquireExec 1, .acquireReturn 1 (.int 1), .acquireStart 0,
      .elapse 100000000, .acquireExec 0, .elapse 10000000, .releaseStart 1, .releaseExec 1,
      .elapse 10000000, .acquireExec 0, .acquireReturn 0 .nil,
      .elapse 480000000, .acquireStart 0, .acquireExec 0, .acquireReturn 0 (.int 2),
      .elapse 521000000] (by decide +kernel)
  have hexpired := hreplayed.step
    (.internal ⟨"a", 1120, by decide +kernel, by decide +kernel, rfl⟩)
  have hreach := LeaseSystem.reach_run hexpired
    [.acquireStart 2, .acquireExec 2, .acquireReturn 2 (.int 3)] (by decide +kernel)
  exact ⟨_, hreach, by decide +kernel,
    ⟨by decide +kernel, 1589000000, by decide +kernel, by decide +kernel⟩,
    ⟨by decide +kernel, 2110000000, by decide +kernel, by decide +kernel⟩, by decide +kernel⟩

end OwnerFleet

end Distsync
