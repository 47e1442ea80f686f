import Mathlib.Algebra.Group.Int.Defs
import Mathlib.Tactic.Common

/-!
# Distsync.Redis.Slot

One key of a Redis keyspace: absent, or present with a value and, when a TTL
was set, the server time in milliseconds after which it is gone.

Collections live in a key only while they are non-empty: `modify` is the one
way to change one, and it deletes the key (deadline included) when nothing is
left, as Redis does.
-/

namespace Redis

/-- The contents of one key. -/
inductive Slot (α : Type u) where
  | absent
  | present (val : α) (deadline : Option Int)
deriving DecidableEq

namespace Slot

/-- `GET`: the value, if the key exists. -/
def get : Slot α → Option α
  | absent => none
  | present v _ => some v

/-- When the key will be gone; `none` for a key without TTL or no key. -/
def deadline : Slot α → Option Int
  | absent => none
  | present _ d => d

/-- The key as a reader at server time `now` sees it: Redis treats a key as
deleted once the clock is past its deadline. -/
def evict (now : Int) : Slot α → Slot α
  | absent => absent
  | present v none => present v none
  | present v (some d) => if d < now then absent else present v (some d)

/-- `PEXPIRE` executed at server time `now`: sets the deadline of an existing
key, and deletes it when the TTL is not positive. -/
def pexpire (now ttl : Int) : Slot α → Slot α
  | absent => absent
  | present v _ => if ttl ≤ 0 then absent else present v (some (now + ttl))

/-- `INCR`: an absent counter counts from zero; the TTL stays. -/
def incr : Slot Nat → Slot Nat
  | absent => present 1 none
  | present n d => present (n + 1) d

/-- A number that fits a Redis integer. -/
def Int64 (n : Int) : Prop := -2 ^ 63 ≤ n ∧ n < 2 ^ 63

instance : DecidablePred Int64 := fun n =>
  inferInstanceAs (Decidable (-2 ^ 63 ≤ n ∧ n < 2 ^ 63))

/-- `INCRBY` and the new value: an absent counter counts from zero, the TTL
stays, and an overflow is an error. -/
def incrBy (n : Int) (k : Slot Int) : Option (Slot Int × Int) :=
  let count := k.get.getD 0 + n
  if Int64 count then some (present count k.deadline, count) else none

/-- The collection stored in the key; an absent key reads as empty. -/
def contents [EmptyCollection α] (k : Slot α) : α := k.get.getD ∅

/-- Change the collection stored in the key.  A key that ends up empty is
deleted, and a key created here has no TTL. -/
def modify [EmptyCollection α] [DecidableEq α] (f : α → α) (k : Slot α) : Slot α :=
  if f k.contents = ∅ then absent else present (f k.contents) k.deadline

/-! ## What a key reads as after each operation -/

@[simp] theorem get_absent : (absent : Slot α).get = none := rfl

@[simp] theorem get_present (v : α) (d : Option Int) : (present v d).get = some v := rfl

@[simp] theorem deadline_present (v : α) (d : Option Int) : (present v d).deadline = d := rfl

theorem get_eq_some_iff {k : Slot α} : k.get = some v ↔ ∃ d, k = present v d := by
  cases k with
  | absent => simp
  | present w d => simp

theorem get_eq_none_iff {k : Slot α} : k.get = none ↔ k = absent := by
  cases k <;> simp

/-- Eviction keeps a key or drops it. -/
theorem evict_eq (now : Int) (k : Slot α) : k.evict now = k ∨ k.evict now = absent := by
  cases k with
  | absent => exact .inl rfl
  | present v d =>
      cases d with
      | none => exact .inl rfl
      | some d =>
          by_cases h : d < now
          · exact .inr (if_pos h)
          · exact .inl (if_neg h)

/-- A key that eviction drops was past its deadline. -/
theorem evict_eq_absent_iff {v : α} :
    (present v d).evict now = absent ↔ ∃ e, d = some e ∧ e < now := by
  cases d with
  | none => simp [evict]
  | some e => simp [evict]

theorem get_evict (t : Int) (k : Slot α) : (k.evict t).get = k.get ∨ (k.evict t).get = none := by
  rcases Slot.evict_eq t k with h | h
  · exact .inl (by rw [h])
  · exact .inr (by rw [h, Slot.get_absent])

theorem get_evict_eq_some {k : Slot α} (h : (k.evict now).get = some v) :
    k.evict now = k := by
  rcases evict_eq now k with hk | hk
  · exact hk
  · rw [hk] at h
    contradiction

/-- Keys with the same deadline are kept together. -/
theorem evict_eq_of_deadline {v : α} {w : β} (h : (present v d).evict now = present v d) :
    (present w d).evict now = present w d := by
  cases d with
  | none => rfl
  | some e =>
      have hlt : ¬e < now := by
        intro hlt
        rw [evict, if_pos hlt] at h
        contradiction
      exact if_neg hlt

/-- `PEXPIRE` changes no value. -/
theorem get_pexpire (now : Int) (k : Slot α) (h : 0 < ttl) : (k.pexpire now ttl).get = k.get := by
  cases k with
  | absent => rfl
  | present v d =>
      rw [pexpire, if_neg (by omega)]
      rfl

/-- `PEXPIRE` with a TTL that is not positive deletes the key. -/
theorem pexpire_of_nonpos (now : Int) (k : Slot α) (h : ttl ≤ 0) :
    k.pexpire now ttl = absent := by
  cases k with
  | absent => rfl
  | present v d => rw [pexpire, if_pos h]

theorem incr_eq (k : Slot Nat) : k.incr = present (k.get.getD 0 + 1) k.deadline := by
  cases k with
  | absent => rfl
  | present n d => rfl

section Collections

variable [EmptyCollection α]

@[simp] theorem contents_absent : (absent : Slot α).contents = ∅ := rfl

variable [DecidableEq α]

@[simp] theorem contents_modify (f : α → α) (k : Slot α) :
    (k.modify f).contents = f k.contents := by
  rw [modify]
  split
  · next h => rw [contents_absent, h]
  · rfl

theorem modify_eq_present {f : α → α} {k : Slot α} (h : k.modify f = present v d) :
    f k.contents ≠ ∅ ∧ v = f k.contents ∧ k.deadline = d := by
  rw [modify] at h
  split at h
  · contradiction
  · next hne =>
      cases h
      exact ⟨hne, rfl, rfl⟩

end Collections

end Slot

end Redis
