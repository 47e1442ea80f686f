import Mathlib.Data.List.Sort
import Mathlib.Data.Finset.Card
import Mathlib.Tactic.Common

/-!
# Distsync.Redis.ZSet

Sorted sets: finitely many members, each with one score, kept in the order
Redis keeps them (by score, equal scores by member).

A `ZSet` is the sorted list of its entries, with the sortedness and the
uniqueness of the members as fields, so `ZRANGE key 0 0` is the head of the
list.  Every operation is characterized by what it does to `score`; proofs
about scripts use those characterizations and never look at the list.
-/

namespace Redis

/-- The order of a sorted set: by score, ties by member. -/
def ZLe [LinearOrder α] [LinearOrder β] (a b : α × β) : Prop :=
  a.2 < b.2 ∨ a.2 = b.2 ∧ a.1 ≤ b.1

instance [LinearOrder α] [LinearOrder β] : DecidableRel (ZLe (α := α) (β := β)) :=
  fun a b => inferInstanceAs (Decidable (a.2 < b.2 ∨ a.2 = b.2 ∧ a.1 ≤ b.1))

instance [LinearOrder α] [LinearOrder β] : IsTrans (α × β) ZLe where
  trans a b c hab hbc := by
    rcases hab with hab | ⟨hab, hab'⟩ <;> rcases hbc with hbc | ⟨hbc, hbc'⟩
    · exact .inl (hab.trans hbc)
    · exact .inl (hbc ▸ hab)
    · exact .inl (hab ▸ hbc)
    · exact .inr ⟨hab.trans hbc, hab'.trans hbc'⟩

instance [LinearOrder α] [LinearOrder β] : Std.Total (ZLe (α := α) (β := β)) where
  total a b := by
    rcases lt_trichotomy a.2 b.2 with h | h | h
    · exact .inl (.inl h)
    · rcases le_total a.1 b.1 with h' | h'
      · exact .inl (.inr ⟨h, h'⟩)
      · exact .inr (.inr ⟨h.symm, h'⟩)
    · exact .inr (.inl h)

/-- A sorted set of members `α` with scores `β`. -/
structure ZSet (α β : Type*) [LinearOrder α] [LinearOrder β] where
  entries : List (α × β)
  sorted : entries.Pairwise ZLe
  nodup : (entries.map Prod.fst).Nodup

namespace ZSet

variable [LinearOrder α] [LinearOrder β]

theorem entries_inj {z w : ZSet α β} : z.entries = w.entries ↔ z = w := by
  constructor
  · intro h
    cases z
    cases w
    cases h
    rfl
  · intro h
    rw [h]

instance : DecidableEq (ZSet α β) := fun _ _ => decidable_of_iff _ entries_inj

instance : EmptyCollection (ZSet α β) := ⟨⟨[], .nil, List.nodup_nil⟩⟩

/-! ## Operations -/

/-- `ZSCORE`: the score of a member, if it is present. -/
def score (z : ZSet α β) (m : α) : Option β :=
  (z.entries.find? (fun e => e.1 = m)).map Prod.snd

/-- `ZCARD`: the number of members. -/
def card (z : ZSet α β) : Nat := z.entries.length

/-- `ZRANGE key 0 0`: the first member in the set's order. -/
def head? (z : ZSet α β) : Option α := z.entries.head?.map Prod.fst

/-- Keep the entries that satisfy `p`. -/
def filter (p : α × β → Prop) [DecidablePred p] (z : ZSet α β) : ZSet α β where
  entries := z.entries.filter (fun e => p e)
  sorted := z.sorted.filter _
  nodup := z.nodup.sublist ((List.filter_sublist).map _)

/-- `ZREM`: drop a member. -/
def rem (z : ZSet α β) (m : α) : ZSet α β := z.filter (fun e => e.1 ≠ m)

/-- `ZREMRANGEBYSCORE key -inf b`: drop the members scored at most `b`. -/
def remUpTo (z : ZSet α β) (b : β) : ZSet α β := z.filter (fun e => b < e.2)

/-- `ZRANGEBYSCORE key -inf (b`: the members scored below `b`. -/
def below (z : ZSet α β) (b : β) : List α := (z.entries.filter (fun e => e.2 < b)).map Prod.fst

/-- `ZCOUNT key (b +inf`: the number of members scored above `b`. -/
def countAbove (z : ZSet α β) (b : β) : Nat := z.entries.countP (fun e => b < e.2)

/-- `ZADD`: insert a member or move it to a new score. -/
def add (z : ZSet α β) (m : α) (b : β) : ZSet α β where
  entries := (z.rem m).entries.orderedInsert ZLe (m, b)
  sorted := (z.rem m).sorted.orderedInsert _ _
  nodup := by
    have hp := ((z.rem m).entries.perm_orderedInsert ZLe (m, b)).map Prod.fst
    have hm : m ∉ (z.rem m).entries.map Prod.fst := by simp [rem, filter]
    rw [hp.nodup_iff, List.map_cons, List.nodup_cons]
    exact ⟨hm, (z.rem m).nodup⟩

/-- A loop of `ZADD`s that gives every member of a list the same score. -/
def addAll (z : ZSet α β) (ms : List α) (b : β) : ZSet α β := ms.foldl (fun z m => z.add m b) z

/-- A loop of `ZREM`s. -/
def remAll (z : ZSet α β) (ms : List α) : ZSet α β := ms.foldl rem z

/-- The set of members. -/
def members (z : ZSet α β) : Finset α := (z.entries.map Prod.fst).toFinset

/-! ## Scores -/

/-- An entry is what `score` reports of its member. -/
theorem score_eq_some_iff {z : ZSet α β} : z.score m = some b ↔ (m, b) ∈ z.entries := by
  constructor
  · intro h
    rw [score, Option.map_eq_some_iff] at h
    obtain ⟨⟨m', b'⟩, hf, hb⟩ := h
    have hmem := List.mem_of_find?_eq_some hf
    have hm : m' = m := by simpa using List.find?_some hf
    rw [← hm, ← show b' = b from hb]
    exact hmem
  · intro h
    have hex : (z.entries.find? (fun e => decide (e.1 = m))).isSome := by
      rw [List.find?_isSome]
      exact ⟨(m, b), h, by simp⟩
    obtain ⟨⟨m', b'⟩, hf⟩ := Option.isSome_iff_exists.mp hex
    have hmem := List.mem_of_find?_eq_some hf
    have hm : m' = m := by simpa using List.find?_some hf
    have he : (m', b') = (m, b) := List.inj_on_of_nodup_map z.nodup hmem h (by simpa using hm)
    rw [score, hf, he]
    rfl

theorem score_eq_none_iff {z : ZSet α β} : z.score m = none ↔ ∀ b, (m, b) ∉ z.entries := by
  rw [Option.eq_none_iff_forall_ne_some]
  exact forall_congr' fun b => not_congr score_eq_some_iff

/-- Two scores of one member agree on when they are present, hence agree. -/
theorem score_congr {z w : ZSet α β} {m m' : α}
    (h : ∀ b, (m, b) ∈ z.entries ↔ (m', b) ∈ w.entries) : z.score m = w.score m' := by
  ext b
  rw [score_eq_some_iff, score_eq_some_iff]
  exact h b

@[simp] theorem score_empty (m : α) : (∅ : ZSet α β).score m = none := rfl

theorem mem_filter {z : ZSet α β} {p : α × β → Prop} [DecidablePred p] :
    e ∈ (z.filter p).entries ↔ e ∈ z.entries ∧ p e := by
  simp [filter]

theorem score_filter (z : ZSet α β) (p : α × β → Prop) [DecidablePred p] (m : α) :
    (z.filter p).score m = (z.score m).filter (fun b => p (m, b)) := by
  ext b
  rw [score_eq_some_iff, mem_filter, Option.filter_eq_some_iff, score_eq_some_iff,
    decide_eq_true_iff]

@[simp] theorem score_rem_self (z : ZSet α β) (m : α) : (z.rem m).score m = none := by
  rw [rem, score_filter]
  simp

theorem score_rem_of_ne (z : ZSet α β) (h : m' ≠ m) : (z.rem m).score m' = z.score m' := by
  apply score_congr
  intro b
  rw [rem, mem_filter]
  simp [h]

theorem score_rem (z : ZSet α β) (m m' : α) :
    (z.rem m).score m' = if m' = m then none else z.score m' := by
  split
  · next h => rw [h, score_rem_self]
  · next h => rw [score_rem_of_ne z h]

/-- Removal by score keeps exactly the members scored above the bound. -/
theorem score_remUpTo (z : ZSet α β) (b : β) (m : α) :
    (z.remUpTo b).score m = (z.score m).filter (fun c => b < c) := by
  rw [remUpTo, score_filter]

/-- Only the larger of two bounds counts. -/
theorem remUpTo_remUpTo (z : ZSet α β) (h : b ≤ c) : (z.remUpTo b).remUpTo c = z.remUpTo c := by
  have hentries : ((z.remUpTo b).remUpTo c).entries = (z.remUpTo c).entries := by
    simp only [remUpTo, filter, List.filter_filter]
    refine List.filter_congr fun e _ => ?_
    rw [← Bool.decide_and, decide_eq_decide]
    exact and_iff_left_of_imp fun hc => lt_of_le_of_lt h hc
  exact entries_inj.mp hentries

theorem mem_add {z : ZSet α β} :
    e ∈ (z.add m b).entries ↔ e = (m, b) ∨ e ∈ z.entries ∧ e.1 ≠ m := by
  rw [add, List.mem_orderedInsert, rem, mem_filter]

@[simp] theorem score_add_self (z : ZSet α β) (m : α) (b : β) : (z.add m b).score m = some b := by
  rw [score_eq_some_iff, mem_add]
  exact .inl rfl

theorem score_add_of_ne (z : ZSet α β) (b : β) (h : m' ≠ m) :
    (z.add m b).score m' = z.score m' := by
  apply score_congr
  intro c
  rw [mem_add]
  simp [h]

theorem score_add (z : ZSet α β) (m m' : α) (b : β) :
    (z.add m b).score m' = if m' = m then some b else z.score m' := by
  split
  · next h => rw [h, score_add_self]
  · next h => rw [score_add_of_ne z b h]

theorem score_addAll (z : ZSet α β) (ms : List α) (b : β) (m : α) :
    (z.addAll ms b).score m = if m ∈ ms then some b else z.score m := by
  induction ms generalizing z with
  | nil => simp [addAll]
  | cons m' ms ih =>
      rw [addAll, List.foldl_cons, ← addAll, ih, score_add]
      by_cases hm : m ∈ ms <;> by_cases he : m = m' <;> simp [hm, he]

theorem score_remAll (z : ZSet α β) (ms : List α) (m : α) :
    (z.remAll ms).score m = if m ∈ ms then none else z.score m := by
  induction ms generalizing z with
  | nil => simp [remAll]
  | cons m' ms ih =>
      rw [remAll, List.foldl_cons, ← remAll, ih, score_rem]
      by_cases hm : m ∈ ms <;> by_cases he : m = m' <;> simp [hm, he]

/-! ## Cardinality -/

theorem card_filter_le (z : ZSet α β) (p : α × β → Prop) [DecidablePred p] :
    (z.filter p).card ≤ z.card :=
  List.length_filter_le _ _

/-- Dropping a present member shrinks the set. -/
theorem card_rem_lt {z : ZSet α β} (h : z.score m = some b) : (z.rem m).card < z.card := by
  rw [card, card, rem, filter]
  refine List.length_filter_lt_length_iff_exists.mpr ⟨(m, b), score_eq_some_iff.mp h, ?_⟩
  simp

/-- What removal by score leaves is what is scored above the bound. -/
theorem card_remUpTo (z : ZSet α β) (b : β) : (z.remUpTo b).card = z.countAbove b := by
  rw [card, remUpTo, filter, countAbove, List.countP_eq_length_filter]

theorem countAbove_anti (z : ZSet α β) (h : b ≤ c) : z.countAbove c ≤ z.countAbove b :=
  List.countP_mono_left fun e _ he => by
    rw [decide_eq_true_iff] at he ⊢
    exact lt_of_le_of_lt h he

theorem countAbove_eq_card {z : ZSet α β} (h : ∀ e ∈ z.entries, b < e.2) :
    z.countAbove b = z.card := by
  rw [countAbove, card, List.countP_eq_length]
  intro e he
  exact decide_eq_true (h e he)

theorem card_add_le (z : ZSet α β) (m : α) (b : β) : (z.add m b).card ≤ z.card + 1 := by
  rw [card, add, List.orderedInsert_length]
  exact Nat.succ_le_succ (card_filter_le z _)

theorem card_add_of_none {z : ZSet α β} (h : z.score m = none) (b : β) :
    (z.add m b).card = z.card + 1 := by
  have hrem : (z.rem m).entries = z.entries := by
    refine List.filter_eq_self.mpr ?_
    rintro ⟨m', c⟩ hmem
    refine decide_eq_true ?_
    rintro rfl
    exact score_eq_none_iff.mp h c hmem
  rw [card, add, List.orderedInsert_length, hrem, card]

/-- Moving a present member does not grow the set. -/
theorem card_add_of_score {z : ZSet α β} (h : z.score m = some c) (b : β) :
    (z.add m b).card ≤ z.card := by
  rw [card, add, List.orderedInsert_length]
  exact card_rem_lt h

theorem card_addAll_le (z : ZSet α β) (ms : List α) (b : β) :
    (z.addAll ms b).card ≤ z.card + ms.length := by
  induction ms generalizing z with
  | nil => exact le_refl _
  | cons m ms ih =>
      rw [addAll, List.foldl_cons, ← addAll, List.length_cons]
      have hstep := card_add_le z m b
      have hrest := ih (z.add m b)
      omega

/-- Moving members that are all present does not grow the set. -/
theorem card_addAll_of_score {ms : List α} {z : ZSet α β} (b : β)
    (h : ∀ m ∈ ms, ∃ c, z.score m = some c) : (z.addAll ms b).card ≤ z.card := by
  induction ms generalizing z with
  | nil => exact le_refl _
  | cons m ms ih =>
      obtain ⟨c, hc⟩ := h m List.mem_cons_self
      have hrest : ∀ m' ∈ ms, ∃ c, (z.add m b).score m' = some c := by
        intro m' hm'
        rw [score_add]
        split
        · exact ⟨b, rfl⟩
        · exact h m' (List.mem_cons_of_mem m hm')
      exact (ih hrest).trans (card_add_of_score hc b)

theorem card_remAll_le (z : ZSet α β) (ms : List α) : (z.remAll ms).card ≤ z.card := by
  induction ms generalizing z with
  | nil => exact le_refl _
  | cons m ms ih => exact (ih (z.rem m)).trans (card_filter_le z _)

/-- A set is empty exactly when nothing has a score. -/
theorem card_eq_zero_iff {z : ZSet α β} : z.card = 0 ↔ ∀ m, z.score m = none := by
  rw [card, List.length_eq_zero_iff]
  constructor
  · intro h m
    rw [score, h]
    rfl
  · intro h
    apply List.eq_nil_iff_forall_not_mem.mpr
    rintro ⟨m, b⟩ hmem
    exact score_eq_none_iff.mp (h m) b hmem

theorem eq_empty_iff {z : ZSet α β} : z = ∅ ↔ ∀ m, z.score m = none := by
  rw [← card_eq_zero_iff, card, List.length_eq_zero_iff]
  constructor
  · intro h; rw [h]; rfl
  · intro h
    cases z
    cases h
    rfl

theorem mem_members {z : ZSet α β} : m ∈ z.members ↔ ∃ b, z.score m = some b := by
  simp [members, score_eq_some_iff]

@[simp] theorem card_members (z : ZSet α β) : z.members.card = z.card := by
  rw [members, List.toFinset_card_of_nodup z.nodup, List.length_map, card]

theorem card_le_of_score {z w : ZSet α β} (h : ∀ m b, z.score m = some b → w.score m ≠ none) :
    z.card ≤ w.card := by
  rw [← card_members, ← card_members]
  refine Finset.card_le_card fun m hm => ?_
  obtain ⟨b, hb⟩ := mem_members.mp hm
  exact mem_members.mpr (Option.ne_none_iff_exists'.mp (h m b hb))

/-! ## Order -/

theorem mem_below {z : ZSet α β} : m ∈ z.below b ↔ ∃ c, z.score m = some c ∧ c < b := by
  simp [below, score_eq_some_iff]

theorem head?_eq_none_iff {z : ZSet α β} : z.head? = none ↔ z = ∅ := by
  rw [head?, Option.map_eq_none_iff, List.head?_eq_none_iff, eq_empty_iff, ← card_eq_zero_iff,
    card, List.length_eq_zero_iff]

/-- No entry is scored below the first. -/
theorem le_of_entries_head? {z : ZSet α β} (h : z.entries.head? = some e) (he' : e' ∈ z.entries) :
    e.2 ≤ e'.2 := by
  obtain ⟨rest, hrest⟩ := List.head?_eq_some_iff.mp h
  have hsorted := z.sorted
  rw [hrest, List.pairwise_cons] at hsorted
  rw [hrest, List.mem_cons] at he'
  rcases he' with rfl | hmem
  · exact le_refl _
  · rcases hsorted.1 _ hmem with hlt | ⟨heq, -⟩
    · exact le_of_lt hlt
    · exact le_of_eq heq

/-- The head is present and no member is scored below it. -/
theorem score_head?_le {z : ZSet α β} (h : z.head? = some m) :
    ∃ b, z.score m = some b ∧ ∀ m' b', z.score m' = some b' → b ≤ b' := by
  rw [head?, Option.map_eq_some_iff] at h
  obtain ⟨⟨m₀, b⟩, hh, rfl⟩ := h
  refine ⟨b, score_eq_some_iff.mpr (List.mem_of_head? hh), fun m' b' hm' => ?_⟩
  exact le_of_entries_head? hh (score_eq_some_iff.mp hm')

/-- A member scored strictly below all others is the head. -/
theorem head?_eq_of_lt {z : ZSet α β} (hm : z.score m = some b)
    (hlt : ∀ m' b', z.score m' = some b' → m' ≠ m → b < b') : z.head? = some m := by
  cases hh : z.head? with
  | none =>
      rw [head?_eq_none_iff] at hh
      rw [hh, score_empty] at hm
      contradiction
  | some m₀ =>
      obtain ⟨b₀, hb₀, hle⟩ := score_head?_le hh
      by_cases he : m₀ = m
      · rw [he]
      · exact absurd (hle m b hm) (not_le_of_gt (hlt m₀ b₀ hb₀ he))

end ZSet

end Redis
