import Distsync.RW

/-!
# Distsync.Fencing

Fencing tokens of the exclusive primitives: the fenced single-owner lease
(`single_acquire`) and the writer role of a read-write lock (`rw_write_lock`).

Both are instances of a *fenced lock*: a component with at most one stored
holder and a counter, whose commands either replay the holder's own grant,
commit a new grant on a free lock and count it, or do neither.  The replay
re-reads the shared counter instead of a value of its own grant; that this is
the right number is a fact about whole runs (`FencedLock.run_spec`): the
counter cannot move while a holder is stored.
-/

namespace Distsync

open Redis Trans

/-! ## Fenced locks -/

/-- A component with one holder and a counter of its grants.  The last two
fields are what the scripts behind it guarantee of a single command. -/
structure FencedLock (σ κ : Type) where
  init : σ
  /-- The keys as a command at a given server time finds them. -/
  evict : Int → σ → σ
  run : Int → σ → κ → σ × Reply
  /-- The owner on whose behalf a command tries to acquire. -/
  owner : κ → Option String
  holder : σ → Option String
  counter : σ → Option Nat
  init_free : holder init = none ∧ counter init = none
  evict_cases : ∀ t s, counter (evict t s) = counter s ∧
    (holder (evict t s) = holder s ∨ holder (evict t s) = none)
  run_cases : ∀ t s c,
    (∃ token, owner c = some token ∧ holder s = some token ∧
      run t s c = (s, .ofGet (counter s))) ∨
    (∃ token, owner c = some token ∧ holder s = none ∧ holder (run t s c).1 = some token ∧
      counter (run t s c).1 = some ((counter s).getD 0 + 1) ∧
      (run t s c).2 = .number ((counter s).getD 0 + 1)) ∨
    ((∀ token, owner c = some token → holder s ≠ some token) ∧
      counter (run t s c).1 = counter s ∧
      (holder (run t s c).1 = holder s ∨ holder (run t s c).1 = none))

namespace FencedLock

variable {σ κ : Type} (L : FencedLock σ κ)

/-- The grants committed so far, in order: owner and answer. -/
abbrev Log := List (String × Reply)

/-- A command at server time `t`, with the grant it commits (if any) logged:
the token was not stored before and is stored afterwards. -/
def commit (t : Int) (c : κ) (x : σ × Log) : σ × Log :=
  let v := L.evict t x.1
  let r := L.run t v c
  match L.owner c with
  | none => (r.1, x.2)
  | some token =>
      if L.holder v ≠ some token ∧ L.holder r.1 = some token then (r.1, x.2 ++ [(token, r.2)])
      else (r.1, x.2)

/-- One command at any server time. -/
def Step (x x' : σ × Log) : Prop := ∃ t c, x' = L.commit t c x

/-- The states and logs of all runs. -/
def Run (s : σ) (log : Log) : Prop := Reach (· = (L.init, [])) L.Step (s, log)

/-- What a fenced lock promises of its state and the grants that led to it. -/
structure Spec (s : σ) (log : Log) : Prop where
  /-- The counter is the number of grants. -/
  counter_eq : (L.counter s).getD 0 = log.length
  /-- The `k`-th grant answered `k`. -/
  kth : ∀ k (h : k < log.length), (log.get ⟨k, h⟩).2 = .int (k + 1)
  /-- An attempt whose token is still stored answers what the grant that
  stored it (the last one) answered, and changes nothing. -/
  replay : ∀ t c token, L.owner c = some token → L.holder (L.evict t s) = some token →
    ∃ n, log.getLast? = some (token, .int n) ∧
      L.run t (L.evict t s) c = (L.evict t s, .int n)
  /-- A refused attempt does not consume a number. -/
  refused : ∀ t c token, L.owner c = some token → (L.run t (L.evict t s) c).2 = .nil →
    L.counter (L.run t (L.evict t s) c).1 = L.counter s
  /-- Tokens strictly increase in grant order. -/
  increasing : ∀ i j (hi : i < log.length) (hj : j < log.length), i < j →
    ∃ a b, (log.get ⟨i, hi⟩).2 = .int a ∧ (log.get ⟨j, hj⟩).2 = .int b ∧ a < b

/-- The invariant of a run: the counter counts the log, the log holds the
counter's successive values as scripts answer them, and a stored holder is the
owner of the last grant. -/
structure Inv (s : σ) (log : Log) : Prop where
  count : (L.counter s).getD 0 = log.length
  entries : ∀ k (h : k < log.length), (log.get ⟨k, h⟩).2 = .number (k + 1)
  last : ∀ token, L.holder s = some token → ∃ n, L.counter s = some n ∧
    log.getLast? = some (token, .number n)

variable {L}

theorem Inv.evict {s : σ} {log : Log} (h : L.Inv s log) (t : Int) : L.Inv (L.evict t s) log := by
  obtain ⟨hc, hh⟩ := L.evict_cases t s
  refine ⟨by rw [hc]; exact h.count, h.entries, ?_⟩
  intro token htok
  rcases hh with hh | hh
  · rw [hc]
    exact h.last token (by rw [← hh]; exact htok)
  · rw [hh] at htok
    contradiction

/-- Appending a grant with the next number keeps the log numbered. -/
theorem entries_append {log : Log} (h : ∀ k (hk : k < log.length), (log.get ⟨k, hk⟩).2 = .number (k + 1))
    (token : String) (k : Nat) (hk : k < (log ++ [(token, Reply.number (log.length + 1))]).length) :
    ((log ++ [(token, Reply.number (log.length + 1))]).get ⟨k, hk⟩).2 = .number (k + 1) := by
  simp only [List.get_eq_getElem]
  rw [List.length_append, List.length_singleton] at hk
  by_cases hlt : k < log.length
  · rw [List.getElem_append_left hlt]
    exact h k hlt
  · have hke : k = log.length := by omega
    subst hke
    simp

/-- Every command keeps the invariant. -/
theorem Inv.commit {s : σ} {log : Log} (h : L.Inv s log) (t : Int) (c : κ) :
    L.Inv (L.commit t c (s, log)).1 (L.commit t c (s, log)).2 := by
  have hv := h.evict t
  generalize hvs : L.evict t s = v at hv
  -- the log changes only when the command stores a token that was not stored
  rcases L.run_cases t v c with ⟨token, ho, hh, heq⟩ | ⟨token, ho, hfree, hh, hc, hr⟩ |
    ⟨hno, hc, hh⟩
  · simp only [FencedLock.commit, ho, hvs, heq, hh, ne_eq, not_true_eq_false, false_and, if_false]
    exact hv
  · simp only [FencedLock.commit, ho, hvs, hfree, hh, ne_eq, reduceCtorEq, not_false_eq_true,
      true_and, if_true, hr]
    rw [hv.count]
    refine ⟨?_, entries_append hv.entries token, ?_⟩
    · rw [hc, hv.count, List.length_append]
      rfl
    · intro token' htok
      rw [hh] at htok
      cases htok
      exact ⟨log.length + 1, by rw [hc, hv.count], by simp⟩
  · have hlog : (L.commit t c (s, log)) = ((L.run t v c).1, log) := by
      simp only [FencedLock.commit, hvs]
      split
      · rfl
      · next token ho =>
          rw [if_neg]
          rintro ⟨-, hstored⟩
          rcases hh with hh | hh
          · exact hno token ho (hh ▸ hstored)
          · rw [hh] at hstored
            contradiction
    rw [hlog]
    refine ⟨by rw [hc]; exact hv.count, hv.entries, ?_⟩
    intro token htok
    rw [hc]
    rcases hh with hh | hh
    · exact hv.last token (by rw [← hh]; exact htok)
    · rw [hh] at htok
      contradiction

theorem Run.inv {s : σ} {log : Log} (h : L.Run s log) : L.Inv s log := by
  refine Reach.invariant (I := fun x => L.Inv x.1 x.2) ?_ ?_ h
  · rintro x rfl
    refine ⟨by rw [L.init_free.2]; rfl, fun k hk => absurd hk (Nat.not_lt_zero k), ?_⟩
    intro token htok
    rw [L.init_free.1] at htok
    contradiction
  · rintro x x' - hx ⟨t, c, rfl⟩
    exact hx.commit t c

/-- **Fencing order and replay stability** of any fenced lock, while the
counter stays in the range that Lua numbers represent exactly. -/
theorem run_spec {s : σ} {log : Log} (h : L.Run s log) (hb : log.length < 2 ^ 53) :
    L.Spec s log := by
  have hi := h.inv
  have hkth : ∀ k (hk : k < log.length), (log.get ⟨k, hk⟩).2 = .int (k + 1) := by
    intro k hk
    rw [hi.entries k hk, Reply.number_of_lt (by omega)]
  refine ⟨hi.count, hkth, ?_, ?_, ?_⟩
  · intro t c token ho hh
    have hv := hi.evict t
    obtain ⟨n, hn, hlast⟩ := hv.last token hh
    have hnb : n < 2 ^ 53 := by
      have hcount := hv.count
      rw [hn, Option.getD_some] at hcount
      omega
    refine ⟨n, by rw [hlast, Reply.number_of_lt hnb], ?_⟩
    rcases L.run_cases t (L.evict t s) c with ⟨_, -, -, heq⟩ | ⟨_, -, hfree, -⟩ | ⟨hno, -⟩
    · rw [heq, hn, Reply.ofGet, Reply.number_of_lt hnb]
    · rw [hfree] at hh
      contradiction
    · exact absurd hh (hno token ho)
  · intro t c token ho hnil
    rw [← (L.evict_cases t s).1]
    rcases L.run_cases t (L.evict t s) c with ⟨_, -, -, heq⟩ | ⟨_, -, -, -, -, hr⟩ | ⟨-, hc, -⟩
    · rw [heq]
    · rw [hr] at hnil
      contradiction
    · exact hc
  · intro i j hli hlj hij
    exact ⟨i + 1, j + 1, hkth i hli, hkth j hlj, by omega⟩

end FencedLock

/-! ## The single-owner lease -/

/-- A command on the keys of one fenced single-owner lease. -/
inductive SingleCmd where
  /-- `single_acquire` with the fencing flag set. -/
  | acquire (token : String) (ttl : Int)
  /-- `single_renew`. -/
  | renew (token : String) (ttl : Int)
  /-- `single_release`. -/
  | release (token : String)
  /-- The server drops the lock key, whatever its deadline. -/
  | expire
deriving DecidableEq

/-- The keys as a command at server time `t` finds them. -/
def SingleStore.evict (t : Int) (s : SingleStore) : SingleStore :=
  { s with lock := s.lock.evict t }

/-- The effect of a command on keys that hold nothing expired. -/
def SingleCmd.run (t : Int) (s : SingleStore) : SingleCmd → SingleStore × Reply
  | acquire token ttl => singleAcquire t token ttl true s
  | renew token ttl =>
      ({ s with lock := (singleRenew t token ttl s.lock).1 }, (singleRenew t token ttl s.lock).2)
  | release token =>
      ({ s with lock := (singleRelease token s.lock).1 }, (singleRelease token s.lock).2)
  | expire => ({ s with lock := .absent }, .nil)

/-- The owner on whose behalf a command tries to acquire. -/
def SingleCmd.owner : SingleCmd → Option String
  | acquire token _ => some token
  | _ => none

/-- Fenced `Mutex` and `Leader` owners on one pair of keys. -/
def singleLock : FencedLock SingleStore SingleCmd where
  init := ⟨.absent, none⟩
  evict := SingleStore.evict
  run t s c := c.run t s
  owner := SingleCmd.owner
  holder s := s.lock.get
  counter s := s.fencing
  init_free := ⟨rfl, rfl⟩
  evict_cases t s := ⟨rfl, Slot.get_evict t s.lock⟩
  run_cases t s c := by
    cases c with
    | acquire token ttl =>
        rcases singleAcquire_cases t token ttl true s with
          ⟨hown, heq⟩ | ⟨hown, heq⟩ | ⟨⟨other, hother, hne⟩, heq⟩ | ⟨hfree, -, heq⟩
        · exact .inl ⟨token, rfl, hown, heq⟩
        · refine .inr (.inr ⟨?_, by rw [SingleCmd.run, heq], .inl (by rw [SingleCmd.run, heq])⟩)
          rintro _ ⟨⟩
          exact hown
        · refine .inr (.inr ⟨?_, by rw [SingleCmd.run, heq], .inl (by rw [SingleCmd.run, heq])⟩)
          rintro _ ⟨⟩ htok
          rw [hother] at htok
          exact hne (Option.some.inj htok)
        · refine .inr (.inl ⟨token, rfl, by rw [hfree]; rfl, ?_, ?_, ?_⟩) <;>
            rw [SingleCmd.run, heq] <;> rfl
    | renew token ttl => exact .inr (.inr ⟨nofun, rfl, get_singleRenew t token ttl s.lock⟩)
    | release token => exact .inr (.inr ⟨nofun, rfl, get_singleRelease token s.lock⟩)
    | expire => exact .inr (.inr ⟨nofun, rfl, .inr rfl⟩)

/-! ## The writer role -/

/-- The owner on whose behalf a command tries to take the writer role. -/
def RWCmd.writeOwner : RWCmd → Option String
  | writeLock token _ _ _ => some token
  | _ => none

/-- Read-write lock writers on one set of keys, alongside readers. -/
def writerLock : FencedLock RWStore RWCmd where
  init := .init
  evict := RWStore.evict
  run t s c := c.run t s
  owner := RWCmd.writeOwner
  holder s := s.writer.get
  counter s := s.fencing
  init_free := ⟨rfl, rfl⟩
  evict_cases t s := ⟨rfl, Slot.get_evict t s.writer⟩
  run_cases t s c := by
    cases c with
    | writeLock token ttl now wt =>
        rcases rwWriteLock_cases t token ttl now wt s with
          ⟨hown, heq⟩ | ⟨hown, z, r, -, -, heq⟩ | ⟨hfree, -, -, -, heq⟩
        · exact .inl ⟨token, rfl, hown, heq⟩
        · refine .inr (.inr ⟨?_, ?_, .inl ?_⟩)
          · rintro _ ⟨⟩
            exact hown
          · rw [RWCmd.run, heq, RWStore.prepare_fencing]
          · rw [RWCmd.run, heq, RWStore.prepare_writer]
        · refine .inr (.inl ⟨token, rfl, by rw [hfree]; rfl, ?_, ?_, ?_⟩)
          · rw [RWCmd.run, heq]
            rfl
          · rw [RWCmd.run, heq, RWStore.grantWriter, RWStore.prepare_fencing]
          · rw [RWCmd.run, heq]
    | readLock token ttl now wt =>
        refine .inr (.inr ⟨nofun, ?_, .inl ?_⟩) <;>
          rcases rwReadLock_cases t token ttl now wt s with ⟨-, heq⟩ | ⟨-, heq⟩ | ⟨-, -, -, heq⟩ <;>
          rw [RWCmd.run, heq] <;>
          simp [RWStore.grantReader, RWStore.leave, RWStore.zremWaiter, RWStore.hdelWaiter]
    | writerRenew token ttl => exact .inr (.inr ⟨nofun, rfl, get_singleRenew t token ttl s.writer⟩)
    | writerRelease token => exact .inr (.inr ⟨nofun, rfl, get_singleRelease token s.writer⟩)
    | readerRenew now ttl tokens => exact .inr (.inr ⟨nofun, rfl, .inl rfl⟩)
    | readerRelease tokens => exact .inr (.inr ⟨nofun, rfl, .inl rfl⟩)
    | zrem m => exact .inr (.inr ⟨nofun, rfl, .inl rfl⟩)
    | hdel m => exact .inr (.inr ⟨nofun, rfl, .inl rfl⟩)
    | expireWriter => exact .inr (.inr ⟨nofun, rfl, .inr rfl⟩)
    | sweep => exact .inr (.inr ⟨nofun, rfl, .inl rfl⟩)

/-- **Fencing tokens of the two exclusive primitives**, each taken alone: in
every run, the counter is the number of grants, the `k`-th grant answers `k`,
replays answer what their grant answered and change nothing, refusals consume
nothing, and so tokens strictly increase in grant order. -/
theorem fencing_order :
    (∀ s log, singleLock.Run s log → log.length < 2 ^ 53 → singleLock.Spec s log) ∧
    (∀ s log, writerLock.Run s log → log.length < 2 ^ 53 → writerLock.Spec s log) :=
  ⟨fun _ _ h hb => FencedLock.run_spec h hb, fun _ _ h hb => FencedLock.run_spec h hb⟩

/-- Two grants and a replay of each primitive: the owners `a` and `b` are
told `1` and `2`. -/
theorem fencing_order_run :
    (∃ s, singleLock.Run s [("a", .int 1), ("b", .int 2)] ∧
      singleLock.Spec s [("a", .int 1), ("b", .int 2)]) ∧
    (∃ s, writerLock.Run s [("a", .int 1), ("b", .int 2)] ∧
      writerLock.Spec s [("a", .int 1), ("b", .int 2)]) := by
  have hs : singleLock.Run
      (singleLock.commit 3 (.acquire "b" 10) (singleLock.commit 2 (.release "a")
        (singleLock.commit 1 (.acquire "a" 10)
          (singleLock.commit 0 (.acquire "a" 10) (singleLock.init, []))))).1
      [("a", .int 1), ("b", .int 2)] :=
    .step (.step (.step (.step (.init rfl) ⟨0, .acquire "a" 10, rfl⟩) ⟨1, .acquire "a" 10, rfl⟩)
      ⟨2, .release "a", rfl⟩) ⟨3, .acquire "b" 10, by decide +kernel⟩
  have hw : writerLock.Run
      (writerLock.commit 3 (.writeLock "b" 10 3 20) (writerLock.commit 2 (.writerRelease "a")
        (writerLock.commit 1 (.writeLock "a" 10 1 20)
          (writerLock.commit 0 (.writeLock "a" 10 0 20) (writerLock.init, []))))).1
      [("a", .int 1), ("b", .int 2)] :=
    .step (.step (.step (.step (.init rfl) ⟨0, .writeLock "a" 10 0 20, rfl⟩)
      ⟨1, .writeLock "a" 10 1 20, rfl⟩) ⟨2, .writerRelease "a", rfl⟩)
      ⟨3, .writeLock "b" 10 3 20, by decide +kernel⟩
  exact ⟨⟨_, hs, fencing_order.1 _ _ hs (by decide)⟩, ⟨_, hw, fencing_order.2 _ _ hw (by decide)⟩⟩

end Distsync
