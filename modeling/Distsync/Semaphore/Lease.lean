import Distsync.Semaphore
import Distsync.Lease.System
import Mathlib.Algebra.BigOperators.Group.Finset.Basic
import Mathlib.Algebra.Order.BigOperators.Group.Finset
import Mathlib.Data.Set.Finite.Lattice

/-!
# Distsync.Semaphore.Lease

Semaphore permits as their holders see them: any number of `PermitSet` objects
on one key, and one clock shared by all of them.

The members of a grant carry one score, and other objects touch it only by
reclaiming what has expired.  So the members of valid leases are all in the
set, and the set is within capacity.
-/

namespace Distsync

open Redis Trans

/-- The lease objects on one semaphore key. -/
structure PermitFleet (ι : Type) extends SemFleet ι where
  ttl : ι → WholeTtl
  permits_pos : ∀ i, 1 ≤ permits i

namespace PermitFleet

variable {ι : Type} (F : PermitFleet ι)

/-- The commands that `TryAcquire`, `Renew` and `Release` send. -/
def system : LeaseSystem ι Permits where
  ttl := F.ttl
  clocks := .shared
  acquire _ start i := F.exec (.acquire i (unixMilli start) (milliseconds (F.ttl i).ns))
  renew _ start i := F.exec (.renew i (unixMilli start) (milliseconds (F.ttl i).ns))
  release _ i := F.exec (.release i)
  -- the server does nothing to a set without a TTL
  internal _ _ _ := False
  -- `Renew` returns at once while the object has no tokens
  sendsRenew o := o.phase.granted = true

theorem keeps_inv : F.system.Keeps F.Inv where
  acquire _ _ _ _ h := h.exec _
  renew _ _ _ _ h := h.exec _
  release _ _ _ h := h.exec _
  internal _ _ _ _ hfalse := hfalse.elim

/-! ## One object's members -/

/-- The member that stands for all of the object's members. -/
def firstToken (i : ι) : String := permitToken (F.id i) 0

theorem firstToken_mem (i : ι) : F.firstToken i ∈ F.tokens i := by
  rw [SemFleet.tokens, mem_permitTokens]
  exact ⟨0, F.permits_pos i, rfl⟩

variable {F}

theorem firstToken_notMem (hij : i ≠ j) : F.firstToken i ∉ F.tokens j :=
  fun hm => hij (F.tokens_disjoint (F.firstToken_mem i) hm)

/-- All members of an object have the score of the first. -/
theorem commonScore (h : F.Inv z) (i : ι) : F.CommonScore z i (z.score (F.firstToken i)) := by
  obtain ⟨o, ho⟩ := h.whole i
  rwa [ho _ (F.firstToken_mem i)]

/-- An attempt as its own object sees it: after the reclamation a live grant
is found, or there is none and the attempt is refused or granted. -/
theorem acquire_own (h : F.Inv z) (start ttl : Int) (i : ι) :
    let sc := (z.remUpTo (unixMilli start)).score (F.firstToken i)
    let res := F.exec (.acquire i (unixMilli start) ttl) z
    ((∃ x, sc = some x ∧ unixMilli start < x) ∧ res.1.score (F.firstToken i) = sc ∧
        (∃ n, res.2 = .int n) ∨
      sc = none ∧ res.1.score (F.firstToken i) = none ∧ res.2 = .nil ∨
      sc = none ∧ res.1.score (F.firstToken i) = some (unixMilli start + ttl) ∧
        ∃ n, res.2 = .int n) := by
  intro sc res
  have hcommon := commonScore (h.remUpTo (unixMilli start)) i
  rcases semAcquire_cases (unixMilli start) ttl F.capacity (F.tokens i) z with
    ⟨hown, heq⟩ | ⟨⟨m, hm, hnone⟩, -, heq⟩ | ⟨⟨m, hm, hnone⟩, -, heq⟩
  · obtain ⟨x, hx⟩ := hown _ (F.firstToken_mem i)
    have hlive := hx
    rw [ZSet.score_remUpTo, Option.filter_eq_some_iff, decide_eq_true_iff] at hlive
    exact .inl ⟨⟨x, hx, hlive.2⟩, by simp only [res, SemFleet.exec, heq, sc],
      _, by simp only [res, SemFleet.exec, heq]; rfl⟩
  · have hsc : sc = none := (hcommon m hm).symm.trans hnone
    exact .inr (.inl ⟨hsc, by simp only [res, SemFleet.exec, heq]; exact hsc,
      by simp only [res, SemFleet.exec, heq]⟩)
  · refine .inr (.inr ⟨(hcommon m hm).symm.trans hnone, ?_,
      _, by simp only [res, SemFleet.exec, heq]; rfl⟩)
    simp only [res, SemFleet.exec, heq]
    exact SemFleet.CommonScore.addAll_self _ i _ _ (F.firstToken_mem i)

/-- Others only see their expired members reclaimed. -/
theorem acquire_other (hij : i ≠ j) (start ttl : Int) (z : Permits) :
    (F.exec (.acquire j (unixMilli start) ttl) z).1.score (F.firstToken i) =
      (z.score (F.firstToken i)).filter (fun sc => unixMilli start < sc) := by
  rw [← ZSet.score_remUpTo]
  exact semAcquire_score_of_notMem (unixMilli start) ttl F.capacity z (firstToken_notMem hij)

theorem renew_other (hij : i ≠ j) (now ttl : Int) (z : Permits) :
    (F.exec (.renew j now ttl) z).1.score (F.firstToken i) = z.score (F.firstToken i) :=
  semRenew_score_of_notMem now ttl z (firstToken_notMem hij)

theorem release_score (i j : ι) (z : Permits) :
    (F.exec (.release j) z).1.score (F.firstToken i) =
      if F.firstToken i ∈ F.tokens j then none else z.score (F.firstToken i) := by
  rw [SemFleet.exec, semRelease_fst, ZSet.score_remAll]

variable (F) in
theorem scoreServed (i : ι) :
    F.system.ScoreServed F.Inv i (fun z => z.score (F.firstToken i)) where
  acquire server start z h hle := by
    refine ⟨_, ZSet.score_remUpTo z _ _ ▸ ScoreLease.lapse_filter hle _, ?_⟩
    rcases acquire_own h start (milliseconds (F.ttl i).ns) i with hlive | ⟨hsc, heq, hans⟩ |
        ⟨hsc, heq, hans⟩
    · exact .inl hlive
    · refine .inr (.inl ⟨by simp [hsc], ?_, hans⟩)
      rw [hsc]
      exact heq
    · refine .inr (.inr ⟨by simp [hsc], ?_, hans⟩)
      exact heq.trans (by rw [WholeTtl.milliseconds_ns]; rfl)
  renew server start z h := by
    rcases semRenew_cases (unixMilli start) (milliseconds (F.ttl i).ns) (F.tokens i) z with
      ⟨-, heq⟩ | ⟨-, heq⟩ <;> simp only [system, SemFleet.exec, heq]
    · refine .inl ⟨?_, trivial⟩
      rw [WholeTtl.milliseconds_ns]
      exact SemFleet.CommonScore.addAll_self _ i _ _ (F.firstToken_mem i)
    · exact .inr ⟨trivial, by simp⟩
  release server z _ := (release_score i i z).trans (if_pos (F.firstToken_mem i))
  acquire_other server start j z hij _ hle :=
    acquire_other hij start _ z ▸ ScoreLease.lapse_filter hle _
  renew_other server start j z hij _ := .inl (renew_other hij _ _ z)
  release_other server j z hij _ := .inl
    ((release_score i j z).trans (if_neg (firstToken_notMem hij)))
  internal _ _ _ _ hfalse := hfalse.elim

theorem init_inv : ∀ z : Permits, z = ∅ → F.Inv z ∧ z.score (F.firstToken i) = none := by
  rintro z rfl
  exact ⟨SemFleet.reach_inv (.init rfl), ZSet.score_empty _⟩

/-! ## Capacity -/

/-- The members of leases that are all in the set fit into the capacity. -/
theorem sum_permits_le (h : F.Inv z) (A : Finset ι)
    (hA : ∀ i ∈ A, ∀ m ∈ F.tokens i, ∃ sc, z.score m = some sc) :
    ∑ i ∈ A, F.permits i ≤ F.capacity := by
  have hcard : ∀ i, (F.tokens i).toFinset.card = F.permits i := by
    intro i
    rw [List.toFinset_card_of_nodup (F.nodup_tokens i), F.length_tokens]
  calc ∑ i ∈ A, F.permits i
      = ∑ i ∈ A, (F.tokens i).toFinset.card := by simp only [hcard]
    _ = (A.biUnion fun i => (F.tokens i).toFinset).card := by
        refine (Finset.card_biUnion fun i _ j _ hij => ?_).symm
        refine Finset.disjoint_left.mpr fun m hi hj => ?_
        exact hij (F.tokens_disjoint (List.mem_toFinset.mp hi) (List.mem_toFinset.mp hj))
    _ ≤ z.members.card := by
        refine Finset.card_le_card fun m hm => ?_
        obtain ⟨i, hi, hm⟩ := Finset.mem_biUnion.mp hm
        exact ZSet.mem_members.mpr (hA i hi m (List.mem_toFinset.mp hm))
    _ = z.card := ZSet.card_members z
    _ ≤ F.capacity := h.bounded

variable [DecidableEq ι]

/-- When the renewals of an object do not overlap and its attempts return with
their last answers, the members of its valid lease are in the set. -/
theorem members_of_valid {s : LeaseState ι Permits}
    (h : Reach (F.system.Init (· = ∅)) (F.system.Step Policy.sequential.lastAnswer) s)
    (hv : (s.obj i).Valid (s.clock i)) : ∀ m ∈ F.tokens i, ∃ sc, s.store.score m = some sc := by
  intro m hm
  have hinv : F.Inv s.store := F.keeps_inv.reach (fun z hz => (init_inv (i := i) z hz).1) h
  have hlast := Policy.sequential.last_lastAnswer
  have horder : (Policy.sequential.lastAnswer.sendingIf F.system.sendsRenew).Orderly :=
    ⟨fun _ hstart => hstart.1, fun _ hstart => hstart.2, fun _ _ _ hexec => hexec⟩
  rw [commonScore hinv i m hm]
  exact Option.ne_none_iff_exists'.mp
    ((F.scoreServed i).score_of_valid_orderly hlast horder F.keeps_inv init_inv rfl h hv)

variable (F) in
/-- **Capacity**: when the renewals of each object do not overlap and every
attempt returns with the answer of its last execution, the leases that have not
begun releasing and have their deadline ahead are finitely many, and together
they hold at most `capacity` permits. -/
theorem valid_permits_le_capacity {s : LeaseState ι Permits}
    (h : Reach (F.system.Init (· = ∅)) (F.system.Step Policy.sequential.lastAnswer) s) :
    ∃ valid : Finset ι, (∀ i, i ∈ valid ↔ (s.obj i).Valid (s.clock i)) ∧
      ∑ i ∈ valid, F.permits i ≤ F.capacity := by
  have hinv : F.Inv s.store := F.keeps_inv.reach
    (by rintro z rfl; exact SemFleet.reach_inv (.init rfl)) h
  have hsum : ∀ A : Finset ι, (∀ i ∈ A, (s.obj i).Valid (s.clock i)) →
      ∑ i ∈ A, F.permits i ≤ F.capacity :=
    fun A hA => sum_permits_le hinv A fun i hi => members_of_valid h (hA i hi)
  have hfin : { i | (s.obj i).Valid (s.clock i) }.Finite := by
    by_contra hinf
    obtain ⟨A, hA, hcard⟩ := Set.Infinite.exists_subset_card_eq hinf (F.capacity + 1)
    have hle : ∑ i ∈ A, 1 ≤ ∑ i ∈ A, F.permits i := Finset.sum_le_sum fun i _ => F.permits_pos i
    have hcap := hsum A fun i hi => hA hi
    rw [← Finset.card_eq_sum_ones, hcard] at hle
    omega
  exact ⟨hfin.toFinset, fun i => hfin.mem_toFinset, hsum _ fun i hi => hfin.mem_toFinset.mp hi⟩

/-- Nothing has happened, and the clock shows 0. -/
theorem reach_start (F : PermitFleet ι) (P : Policy) :
    Reach (F.system.Init (· = ∅)) (F.system.Step P) ⟨0, fun _ => 0, ∅, fun _ => .fresh⟩ :=
  .init ⟨rfl, fun _ => rfl, fun _ => rfl⟩

/-- Two contenders for three permits, one asking for two of them. -/
def threePermits : PermitFleet Bool where
  toSemFleet := .twoGrants
  ttl := fun _ => .second
  permits_pos := by decide

/-- The one that asks for two gets them. -/
theorem valid_permits_le_capacity_threePermits :
    ∃ s, Reach (threePermits.system.Init (· = ∅))
        (threePermits.system.Step Policy.sequential.lastAnswer) s ∧
      (s.obj true).Valid (s.clock true) ∧
      ∃ valid : Finset Bool, (∀ i, i ∈ valid ↔ (s.obj i).Valid (s.clock i)) ∧
        ∑ i ∈ valid, threePermits.permits i ≤ 3 := by
  have hreach := LeaseSystem.reach_run
    (threePermits.reach_start Policy.sequential.lastAnswer)
    [.acquireStart true, .acquireExec true, .acquireReturn true (.int 2)] (by decide +kernel)
  exact ⟨_, hreach, ⟨by decide +kernel, 989000000, by decide +kernel, by decide +kernel⟩,
    threePermits.valid_permits_le_capacity hreach⟩

/-- Three contenders for a single permit, each with a TTL of one second. -/
def singlePermit : PermitFleet (Fin 3) where
  id := ["p", "q", "r"].get
  id_inj := by
    intro i j
    revert i j
    decide
  permits := fun _ => 1
  capacity := 1
  ttl := fun _ => .second
  permits_pos := by decide

/-- **An outdated answer breaks the capacity**: an attempt of `"p"` is sent at 0
and refused at 100 ms, when `"q"` has the permit; after the release a transmission
of it that was overtaken is executed, and the member gets score 1000.  The refusal
arrives.  The next attempt of `"p"`, at 600 ms, finds the member its own, so `"p"`
counts on it until 1589 ms; an attempt of `"r"` at 1001 ms reclaims it. -/
theorem outdated_answer_over_capacity :
    ∃ s, Reach (singlePermit.system.Init (· = ∅)) (singlePermit.system.Step .sequential) s ∧
      s.server = 1001000000 ∧ (s.obj 0).Valid (s.clock 0) ∧ (s.obj 2).Valid (s.clock 2) ∧
      singlePermit.capacity < singlePermit.permits 0 + singlePermit.permits 2 := by
  have hreach := LeaseSystem.reach_run (singlePermit.reach_start .sequential)
    [.acquireStart 1, .acquireExec 1, .acquireReturn 1 (.int 1), .acquireStart 0,
      .elapse 100000000, .acquireExec 0, .elapse 10000000, .releaseStart 1, .releaseExec 1,
      .elapse 10000000, .acquireExec 0, .acquireReturn 0 .nil,
      .elapse 480000000, .acquireStart 0, .acquireExec 0, .acquireReturn 0 (.int 1),
      .elapse 401000000, .acquireStart 2, .acquireExec 2, .acquireReturn 2 (.int 1)]
    (by decide +kernel)
  exact ⟨_, hreach, by decide +kernel,
    ⟨by decide +kernel, 1589000000, by decide +kernel, by decide +kernel⟩,
    ⟨by decide +kernel, 1990000000, by decide +kernel, by decide +kernel⟩, by decide⟩

end PermitFleet

end Distsync
