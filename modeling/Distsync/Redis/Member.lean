import Mathlib.Data.String.Basic
import Std.Data.String.ToNat

/-!
# Distsync.Redis.Member

Names of set members that are made of an id, a separator and a number.  A
number in decimal has no separator in it, so the last one ends the id, and
both parts can be read off the name whatever the id is.
-/

namespace Redis

theorem notMem_toList_toString {c : Char} (hc : c.isDigit = false) (i : Nat) :
    c ∉ (toString i).toList := by
  intro h
  rw [Nat.toString_eq_ofList_toDigits, String.toList_ofList] at h
  have hd := Nat.isDigit_of_mem_toDigits (by decide) (by decide) h
  rw [hc] at hd
  contradiction

/-- Two lists that agree around a separator absent from both tails agree
before and after it. -/
theorem append_cons_inj_of_notMem_right {a : α} {xs ys us vs : List α} (hu : a ∉ us)
    (hv : a ∉ vs) (h : xs ++ a :: us = ys ++ a :: vs) : xs = ys ∧ us = vs := by
  rcases List.append_eq_append_iff.mp h with ⟨w, hy, hw⟩ | ⟨w, hx, hw⟩
  · cases w with
    | nil =>
        rw [List.append_nil] at hy
        exact ⟨hy.symm, (List.cons.inj hw).2⟩
    | cons b w =>
        have htail := (List.cons.inj hw).2
        exact absurd (htail ▸ List.mem_append_right w List.mem_cons_self) hu
  · cases w with
    | nil =>
        rw [List.append_nil] at hx
        exact ⟨hx, (List.cons.inj hw).2.symm⟩
    | cons b w =>
        have htail := (List.cons.inj hw).2
        exact absurd (htail ▸ List.mem_append_right w List.mem_cons_self) hv

/-- Names of different ids, or with different numbers, are different. -/
theorem numbered_inj {c : Char} {sep id id' : String} {i j : Nat} (hsep : sep.toList = [c])
    (hc : c.isDigit = false) :
    id ++ sep ++ toString i = id' ++ sep ++ toString j ↔ id = id' ∧ i = j := by
  constructor
  · intro h
    have hl := congrArg String.toList h
    simp only [String.toList_append, hsep, List.append_assoc, List.singleton_append] at hl
    obtain ⟨hid, hi⟩ := append_cons_inj_of_notMem_right (notMem_toList_toString hc i)
      (notMem_toList_toString hc j) hl
    exact ⟨String.toList_inj.mp hid, Nat.repr_injective (String.toList_inj.mp hi)⟩
  · rintro ⟨rfl, rfl⟩
    rfl

end Redis
