import Distsync.Trans
import Distsync.Lua.Sem

/-!
# Distsync.Semaphore

The server side of a semaphore: the permits set under `sem_acquire`,
`sem_renew` and `sem_release`, executed in any order and with any timestamps.

Three facts hold of every reachable set.  It never exceeds the capacity.  A
grant is whole: its permits are all there under one score, or none of them is.
And an acquisition is decided exactly: it is granted if and only if what has
not expired at its own timestamp leaves room for it.
-/

namespace Distsync

open Redis Trans

/-- The grants that use one semaphore: distinct ids, each always asking for
the same number of permits. -/
structure SemFleet (ι : Type) where
  id : ι → String
  id_inj : Function.Injective id
  permits : ι → Nat
  capacity : Nat

/-- A command on the permits set on behalf of one grant. -/
inductive SemCmd (ι : Type) where
  | acquire (i : ι) (now ttl : Int)
  | renew (i : ι) (now ttl : Int)
  | release (i : ι)

namespace SemFleet

variable {ι : Type} (F : SemFleet ι)

/-- The member tokens of a grant. -/
def tokens (i : ι) : List String := permitTokens (F.id i) (F.permits i)

/-- The effect of a command. -/
def exec (c : SemCmd ι) (z : Permits) : Permits × Reply :=
  match c with
  | .acquire i now ttl => semAcquire now ttl F.capacity (F.tokens i) z
  | .renew i now ttl => semRenew now ttl (F.tokens i) z
  | .release i => semRelease (F.tokens i) z

/-- One command. -/
def Step (z z' : Permits) : Prop := ∃ c, z' = (F.exec c z).1

/-- Different grants share no member. -/
theorem tokens_disjoint (hi : m ∈ F.tokens i) (hj : m ∈ F.tokens j) : i = j := by
  rw [tokens, mem_permitTokens] at hi hj
  obtain ⟨a, -, ha⟩ := hi
  obtain ⟨b, -, hb⟩ := hj
  exact F.id_inj (permitToken_inj.mp (ha.trans hb.symm)).1

@[simp] theorem length_tokens (i : ι) : (F.tokens i).length = F.permits i :=
  length_permitTokens _ _

theorem nodup_tokens (i : ι) : (F.tokens i).Nodup := nodup_permitTokens _ _

/-! ## Grants are whole -/

/-- All members of grant `i` have the score `o`; with `none`, none is there. -/
def CommonScore (z : Permits) (i : ι) (o : Option Int) : Prop :=
  ∀ m ∈ F.tokens i, z.score m = o

variable {F}

/-- Reclamation takes a grant away as a whole or leaves it as a whole. -/
theorem CommonScore.remUpTo (h : F.CommonScore z i o) (now : Int) :
    F.CommonScore (z.remUpTo now) i (o.filter (fun sc => now < sc)) := by
  intro m hm
  rw [ZSet.score_remUpTo, h m hm]

theorem CommonScore.addAll_self (z : Permits) (i : ι) (b : Int) :
    F.CommonScore (z.addAll (F.tokens i) b) i (some b) := by
  intro m hm
  rw [ZSet.score_addAll, if_pos hm]

theorem CommonScore.addAll_of_ne (h : F.CommonScore z i o) (hne : i ≠ j) (b : Int) :
    F.CommonScore (z.addAll (F.tokens j) b) i o := by
  intro m hm
  rw [ZSet.score_addAll, if_neg, h m hm]
  exact fun hj => hne (F.tokens_disjoint hm hj)

theorem CommonScore.remAll_self (z : Permits) (i : ι) :
    F.CommonScore (z.remAll (F.tokens i)) i none := by
  intro m hm
  rw [ZSet.score_remAll, if_pos hm]

theorem CommonScore.remAll_of_ne (h : F.CommonScore z i o) (hne : i ≠ j) :
    F.CommonScore (z.remAll (F.tokens j)) i o := by
  intro m hm
  rw [ZSet.score_remAll, if_neg, h m hm]
  exact fun hj => hne (F.tokens_disjoint hm hj)

variable (F)

/-- The set is within capacity and every grant in it is whole. -/
structure Inv (z : Permits) : Prop where
  bounded : z.card ≤ F.capacity
  whole : ∀ i, ∃ o, F.CommonScore z i o

variable {F}

theorem Inv.remUpTo (h : F.Inv z) (now : Int) : F.Inv (z.remUpTo now) where
  bounded := (ZSet.card_filter_le z _).trans h.bounded
  whole i := by
    obtain ⟨o, ho⟩ := h.whole i
    exact ⟨_, ho.remUpTo now⟩

/-- Writing a whole grant keeps every grant whole. -/
theorem Inv.addAll (h : F.Inv z) (i : ι) (b : Int)
    (hcard : (z.addAll (F.tokens i) b).card ≤ F.capacity) : F.Inv (z.addAll (F.tokens i) b) where
  bounded := hcard
  whole j := by
    by_cases hij : j = i
    · subst hij
      exact ⟨_, CommonScore.addAll_self z j b⟩
    · obtain ⟨o, ho⟩ := h.whole j
      exact ⟨o, ho.addAll_of_ne hij b⟩

theorem Inv.remAll (h : F.Inv z) (i : ι) : F.Inv (z.remAll (F.tokens i)) where
  bounded := (ZSet.card_remAll_le z _).trans h.bounded
  whole j := by
    by_cases hij : j = i
    · subst hij
      exact ⟨_, CommonScore.remAll_self z j⟩
    · obtain ⟨o, ho⟩ := h.whole j
      exact ⟨o, ho.remAll_of_ne hij⟩

/-- Every command keeps the invariant. -/
theorem Inv.exec (h : F.Inv z) (c : SemCmd ι) : F.Inv (F.exec c z).1 := by
  cases c with
  | acquire i now ttl =>
      have hp := h.remUpTo now
      rcases semAcquire_cases now ttl F.capacity (F.tokens i) z with
        ⟨-, heq⟩ | ⟨-, -, heq⟩ | ⟨-, hroom, heq⟩
      · rw [SemFleet.exec, heq]
        exact hp
      · rw [SemFleet.exec, heq]
        exact hp
      · rw [SemFleet.exec, heq]
        exact hp.addAll i _ ((ZSet.card_addAll_le _ _ _).trans hroom)
  | renew i now ttl =>
      rcases semRenew_cases now ttl (F.tokens i) z with ⟨hall, heq⟩ | ⟨-, heq⟩
      · rw [SemFleet.exec, heq]
        refine h.addAll i _ ((ZSet.card_addAll_of_score _ ?_).trans h.bounded)
        intro m hm
        obtain ⟨sc, hsc, -⟩ := hall m hm
        exact ⟨sc, hsc⟩
      · rw [SemFleet.exec, heq]
        exact h
  | release i =>
      rw [SemFleet.exec, semRelease_fst]
      exact h.remAll i

theorem reach_inv (h : Reach (· = ∅) F.Step z) : F.Inv z := by
  refine Reach.invariant (I := F.Inv) ?_ ?_ h
  · rintro z rfl
    exact ⟨Nat.zero_le _, fun i => ⟨none, fun m _ => ZSet.score_empty m⟩⟩
  · rintro z z' - hz ⟨c, rfl⟩
    exact hz.exec c

/-! ## Acquisitions are decided exactly -/

/-- A grant with no member left after the reclamation is granted exactly when
there is room for it next to what is still live at its timestamp. -/
theorem acquire_granted_iff (h : F.Inv z) (i : ι) (now ttl : Int)
    (hnone : ∀ m ∈ F.tokens i, (z.remUpTo now).score m = none) :
    ((F.exec (.acquire i now ttl) z).2 ≠ .nil ∧
      ∀ m ∈ F.tokens i, (F.exec (.acquire i now ttl) z).1.score m = some (now + ttl)) ↔
    z.countAbove now + F.permits i ≤ F.capacity := by
  rw [← ZSet.card_remUpTo, ← F.length_tokens i]
  rcases semAcquire_cases now ttl F.capacity (F.tokens i) z with
    ⟨hown, heq⟩ | ⟨-, hfull, heq⟩ | ⟨-, hroom, heq⟩
  · -- a grant of no permits: it owns all of them at once
    have hnil : F.tokens i = [] := by
      apply List.eq_nil_iff_forall_not_mem.mpr
      intro m hm
      obtain ⟨sc, hsc⟩ := hown m hm
      rw [hnone m hm] at hsc
      contradiction
    rw [SemFleet.exec, heq, hnil]
    have hcard := (h.remUpTo now).bounded
    exact ⟨fun _ => hcard, fun _ => ⟨nofun, nofun⟩⟩
  · rw [SemFleet.exec, heq]
    constructor
    · exact fun hne => absurd rfl hne.1
    · omega
  · rw [SemFleet.exec, heq]
    exact ⟨fun _ => hroom, fun _ => ⟨nofun, CommonScore.addAll_self _ i _⟩⟩

/-- A refused acquisition removes expired members only, and adds none. -/
theorem acquire_refused (i : ι) (now ttl : Int)
    (hnil : (F.exec (.acquire i now ttl) z).2 = .nil) :
    (F.exec (.acquire i now ttl) z).1 = z.remUpTo now := by
  rcases semAcquire_cases now ttl F.capacity (F.tokens i) z with
    ⟨-, heq⟩ | ⟨-, -, heq⟩ | ⟨-, -, heq⟩
  · rw [SemFleet.exec, heq]
  · rw [SemFleet.exec, heq]
  · rw [SemFleet.exec, heq] at hnil
    contradiction

variable (F)

/-- **The permits set under arbitrary clocks**: bounded by the capacity,
all-or-nothing per grant, and exact in what it grants and refuses. -/
theorem permits_bounded_whole_exact (h : Reach (· = ∅) F.Step z) :
    z.card ≤ F.capacity ∧
    (∀ i, (∀ m ∈ F.tokens i, z.score m = none) ∨ ∃ sc, ∀ m ∈ F.tokens i, z.score m = some sc) ∧
    (∀ i now ttl, (∀ m ∈ F.tokens i, (z.remUpTo now).score m = none) →
      (((F.exec (.acquire i now ttl) z).2 ≠ .nil ∧
        ∀ m ∈ F.tokens i, (F.exec (.acquire i now ttl) z).1.score m = some (now + ttl)) ↔
      z.countAbove now + F.permits i ≤ F.capacity)) ∧
    (∀ i now ttl, (F.exec (.acquire i now ttl) z).2 = .nil → ∀ m,
      (∀ sc, z.score m = some sc → now < sc →
        (F.exec (.acquire i now ttl) z).1.score m = some sc) ∧
      (∀ sc, (F.exec (.acquire i now ttl) z).1.score m = some sc → z.score m = some sc)) := by
  have hinv := reach_inv h
  refine ⟨hinv.bounded, ?_, fun i now ttl hnone => acquire_granted_iff hinv i now ttl hnone, ?_⟩
  · intro i
    obtain ⟨o, ho⟩ := hinv.whole i
    cases o with
    | none => exact .inl ho
    | some sc => exact .inr ⟨sc, ho⟩
  · intro i now ttl hnil m
    rw [acquire_refused i now ttl hnil, ZSet.score_remUpTo]
    refine ⟨fun sc hsc hlt => ?_, fun sc hsc => ?_⟩
    · rw [hsc, Option.filter_some, if_pos (decide_eq_true hlt)]
    · exact (Option.filter_eq_some_iff.mp hsc).1

/-- Two grants on a semaphore of capacity three, one of two permits. -/
def twoGrants : SemFleet Bool where
  id := fun first => if first then "p" else "q"
  id_inj := by
    intro i j
    revert i j
    decide
  permits := fun first => if first then 2 else 1
  capacity := 3

/-- The first grant leaves room for exactly the second. -/
theorem permits_bounded_whole_exact_twoGrants :
    let z := (twoGrants.exec (.acquire true 0 1000) ∅).1
    z.card = 2 ∧ z.card ≤ 3 ∧ (twoGrants.exec (.acquire false 5 1000) z).2 ≠ .nil ∧
      ∀ m ∈ twoGrants.tokens false,
        (twoGrants.exec (.acquire false 5 1000) z).1.score m = some 1005 := by
  intro z
  have h := twoGrants.permits_bounded_whole_exact (z := z) (.step (.init rfl) ⟨_, rfl⟩)
  exact ⟨by decide +kernel, h.1, (h.2.2.1 false 5 1000 (by decide +kernel)).mpr (by decide +kernel)⟩

end SemFleet

end Distsync
