import Mathlib.Data.List.TakeWhile
import Mathlib.Tactic.Common

/-!
# Distsync.Redis.Cluster

How Redis Cluster assigns a key to one of its 16384 hash slots: the CRC16 of
the key's *hash tag*, or of the whole key when it has none.

The tag is what stands between the first `{` and the first `}` after it,
unless that is empty.  So a tag survives whatever is appended to the key
(`hashTag_append`), and a key without one that gets a suffix without braces is
hashed as a whole (`hashTag_append_of_none`).  CRC16 is linear in exclusive or
(`crcByte_xor`), which is how two keys are told apart by their last byte.
-/

namespace Redis.Cluster

/-- `{`. -/
def openBrace : UInt8 := 123

/-- `}`. -/
def closeBrace : UInt8 := 125

/-- The hash tag of a key: what stands between the first `{` and the first `}`
after it, if both are there and something stands between them. -/
def hashTag (key : List UInt8) : Option (List UInt8) :=
  match key.dropWhile (· ≠ openBrace) with
  | [] => none
  | _ :: rest =>
      if closeBrace ∈ rest then
        let tag := rest.takeWhile (· ≠ closeBrace)
        if tag = [] then none else some tag
      else
        none

/-- One bit of CRC-16/XMODEM. -/
def crcShift (crc : BitVec 16) : BitVec 16 :=
  if crc.msb then (crc <<< 1) ^^^ 0x1021#16 else crc <<< 1

/-- `n` of them. -/
def crcShifts : Nat → BitVec 16 → BitVec 16
  | 0, crc => crc
  | n + 1, crc => crcShifts n (crcShift crc)

/-- One byte of CRC-16/XMODEM. -/
def crcByte (crc : BitVec 16) (b : UInt8) : BitVec 16 :=
  crcShifts 8 (crc ^^^ (b.toBitVec.setWidth 16 <<< 8))

/-- CRC-16/XMODEM. -/
def crc16 (bs : List UInt8) : BitVec 16 := bs.foldl crcByte 0#16

/-- The slot of a key. -/
def keySlot (key : List UInt8) : Nat := (crc16 ((hashTag key).getD key)).toNat % 16384

/-- The check value of the polynomial. -/
example : crc16 [49, 50, 51, 52, 53, 54, 55, 56, 57] = 0x31C3#16 := by decide +kernel

/-! ## Hash tags -/

theorem dropWhile_ne_append {a : UInt8} {xs : List UInt8} (h : a ∉ xs) (ys : List UInt8) :
    (xs ++ a :: ys).dropWhile (· ≠ a) = a :: ys := by
  rw [List.dropWhile_append_of_pos]
  · simp
  · intro b hb
    exact decide_eq_true fun he => h (he ▸ hb)

theorem takeWhile_ne_append {a : UInt8} {xs : List UInt8} (h : a ∉ xs) (ys : List UInt8) :
    (xs ++ a :: ys).takeWhile (· ≠ a) = xs := by
  rw [List.takeWhile_append_of_pos]
  · simp
  · intro b hb
    exact decide_eq_true fun he => h (he ▸ hb)

/-- A key that opens no tag has none. -/
theorem hashTag_of_notMem (h : openBrace ∉ key) : hashTag key = none := by
  have hdrop : key.dropWhile (· ≠ openBrace) = [] := by
    rw [List.dropWhile_eq_nil_iff]
    intro b hb
    exact decide_eq_true fun he => h (he ▸ hb)
  simp only [hashTag, hdrop]

/-- A key that opens a tag and does not close it has none. -/
theorem hashTag_open {pre rest : List UInt8} (hpre : openBrace ∉ pre) (hrest : closeBrace ∉ rest) :
    hashTag (pre ++ openBrace :: rest) = none := by
  simp only [hashTag, dropWhile_ne_append hpre, if_neg hrest]

/-- The tag of a key that opens one and closes it. -/
theorem hashTag_closed {pre tag post : List UInt8} (hpre : openBrace ∉ pre)
    (htag : closeBrace ∉ tag) :
    hashTag (pre ++ openBrace :: (tag ++ closeBrace :: post)) =
      if tag = [] then none else some tag := by
  have hmem : closeBrace ∈ tag ++ closeBrace :: post := by simp
  simp only [hashTag, dropWhile_ne_append hpre, if_pos hmem, takeWhile_ne_append htag]

/-- The three shapes of a key. -/
theorem key_shape (key : List UInt8) :
    openBrace ∉ key ∨
    (∃ pre rest, key = pre ++ openBrace :: rest ∧ openBrace ∉ pre ∧ closeBrace ∉ rest) ∨
    (∃ pre tag post, key = pre ++ openBrace :: (tag ++ closeBrace :: post) ∧ openBrace ∉ pre ∧
      closeBrace ∉ tag) := by
  by_cases hopen : openBrace ∈ key
  · obtain ⟨pre, rest, rfl, hpre⟩ := List.eq_append_cons_of_mem hopen
    by_cases hclose : closeBrace ∈ rest
    · obtain ⟨tag, post, rfl, htag⟩ := List.eq_append_cons_of_mem hclose
      exact .inr (.inr ⟨pre, tag, post, rfl, hpre, htag⟩)
    · exact .inr (.inl ⟨pre, rest, rfl, hpre, hclose⟩)
  · exact .inl hopen

theorem hashTag_eq_some_iff :
    hashTag key = some tag ↔ ∃ pre post, key = pre ++ openBrace :: (tag ++ closeBrace :: post) ∧
      openBrace ∉ pre ∧ closeBrace ∉ tag ∧ tag ≠ [] := by
  constructor
  · intro h
    rcases key_shape key with hopen | ⟨pre, rest, rfl, hpre, hrest⟩ |
      ⟨pre, tag', post, rfl, hpre, htag⟩
    · simp [hashTag_of_notMem hopen] at h
    · simp [hashTag_open hpre hrest] at h
    · rw [hashTag_closed hpre htag] at h
      split at h
      · contradiction
      · next hne =>
          cases h
          exact ⟨pre, post, rfl, hpre, htag, hne⟩
  · rintro ⟨pre, post, rfl, hpre, htag, hne⟩
    rw [hashTag_closed hpre htag, if_neg hne]

/-- A tag survives whatever is appended. -/
theorem hashTag_append (h : hashTag key = some tag) (suffix : List UInt8) :
    hashTag (key ++ suffix) = some tag := by
  obtain ⟨pre, post, rfl, hrest⟩ := hashTag_eq_some_iff.mp h
  exact hashTag_eq_some_iff.mpr ⟨pre, post ++ suffix, by simp, hrest⟩

/-- A suffix without braces makes no tag. -/
theorem hashTag_append_of_none (h : hashTag key = none) {suffix : List UInt8}
    (hopen : openBrace ∉ suffix) (hclose : closeBrace ∉ suffix) :
    hashTag (key ++ suffix) = none := by
  rcases key_shape key with hkey | ⟨pre, rest, rfl, hpre, hrest⟩ | ⟨pre, tag, post, rfl, hpre, htag⟩
  · exact hashTag_of_notMem (by simp [hkey, hopen])
  · rw [List.append_assoc, List.cons_append]
    exact hashTag_open hpre (by simp [hrest, hclose])
  · rw [hashTag_closed hpre htag] at h
    simp only [List.append_assoc, List.cons_append]
    rw [hashTag_closed hpre htag, h]

/-! ## CRC16 -/

theorem crcShift_xor (a b : BitVec 16) : crcShift (a ^^^ b) = crcShift a ^^^ crcShift b := by
  have hcancel (x y p : BitVec 16) : x ^^^ p ^^^ (y ^^^ p) = x ^^^ y := by
    rw [BitVec.xor_comm y p, BitVec.xor_assoc, ← BitVec.xor_assoc p p y, BitVec.xor_self,
      BitVec.zero_xor]
  unfold crcShift
  rw [BitVec.msb_xor, BitVec.shiftLeft_xor_distrib]
  cases a.msb <;> cases b.msb <;> simp [hcancel]
  · ac_rfl
  · ac_rfl

theorem crcShifts_xor (n : Nat) (a b : BitVec 16) :
    crcShifts n (a ^^^ b) = crcShifts n a ^^^ crcShifts n b := by
  induction n generalizing a b with
  | zero => rfl
  | succ n ih => simp only [crcShifts, crcShift_xor, ih]

/-- Two bytes that follow the same remainder leave remainders that differ by
the remainder of their difference. -/
theorem crcByte_xor (crc : BitVec 16) (a b : UInt8) :
    crcByte crc a ^^^ crcByte crc b = crcByte 0#16 (a ^^^ b) := by
  have hdiff : crc ^^^ (a.toBitVec.setWidth 16 <<< 8) ^^^ (crc ^^^ (b.toBitVec.setWidth 16 <<< 8)) =
      0#16 ^^^ ((a ^^^ b).toBitVec.setWidth 16 <<< 8) := by
    rw [UInt8.toBitVec_xor, BitVec.setWidth_xor, BitVec.shiftLeft_xor_distrib, BitVec.zero_xor,
      BitVec.xor_comm crc, BitVec.xor_assoc, ← BitVec.xor_assoc crc, BitVec.xor_self,
      BitVec.zero_xor]
  unfold crcByte
  rw [← crcShifts_xor, hdiff]

/-- Keys hashed as a whole are in different slots when they differ in the last
byte and the difference does not vanish in the slot's fourteen bits. -/
theorem keySlot_concat_ne {key : List UInt8} {a b : UInt8} (ha : hashTag (key ++ [a]) = none)
    (hb : hashTag (key ++ [b]) = none) (hne : (crcByte 0#16 (a ^^^ b)).setWidth 14 ≠ 0#14) :
    keySlot (key ++ [a]) ≠ keySlot (key ++ [b]) := by
  intro heq
  apply hne
  rw [← crcByte_xor (crc16 key) a b, BitVec.setWidth_xor]
  have hlow : (crcByte (crc16 key) a).setWidth 14 = (crcByte (crc16 key) b).setWidth 14 := by
    apply BitVec.eq_of_toNat_eq
    simpa [keySlot, ha, hb, crc16] using heq
  rw [hlow, BitVec.xor_self]

end Redis.Cluster
