import Mathlib.Algebra.Group.Int.Defs
import Mathlib.Algebra.Group.Nat.Defs
import Mathlib.Data.Nat.Log
import Mathlib.Tactic.Common

/-!
# Distsync.Redis.Reply

What a Lua script can answer, and what its numbers go through on the way.

Lua numbers are IEEE doubles, so an integer that passes through a script is
rounded to 53 significant bits (ties to even).  `toDouble` is that rounding on
naturals; below `2 ^ 53` it changes nothing.
-/

namespace Redis

/-- The nearest multiple of `2 ^ e`, ties to the even multiple. -/
def roundTo (e n : Nat) : Nat :=
  let q := n / 2 ^ e
  let r := n % 2 ^ e
  (if 2 ^ e < 2 * r ∨ 2 ^ e = 2 * r ∧ q % 2 = 1 then q + 1 else q) * 2 ^ e

/-- The double nearest to a natural number, read back as a natural. -/
def toDouble (n : Nat) : Nat := roundTo (Nat.log 2 n - 52) n

@[simp] theorem roundTo_zero (n : Nat) : roundTo 0 n = n := by
  simp [roundTo, Nat.mod_one]

/-- Integers below `2 ^ 53` are doubles. -/
theorem toDouble_of_lt (h : n < 2 ^ 53) : toDouble n = n := by
  have hlog : Nat.log 2 n < 53 := by
    cases n with
    | zero => simp
    | succ n => exact Nat.log_lt_of_lt_pow (by omega) h
  rw [toDouble, Nat.sub_eq_zero_of_le (by omega), roundTo_zero]

example : toDouble (2 ^ 53 + 1) = 2 ^ 53 := by decide +kernel

/-- Rounding to a multiple of `2 ^ e` does not fall below one. -/
theorem le_roundTo (h : m * 2 ^ e ≤ n) : m * 2 ^ e ≤ roundTo e n := by
  have hq : m ≤ n / 2 ^ e := (Nat.le_div_iff_mul_le (Nat.two_pow_pos e)).mpr h
  rw [roundTo]
  refine Nat.mul_le_mul_right _ ?_
  split
  · exact Nat.le_succ_of_le hq
  · exact hq

/-- Integers from `2 ^ 53` on stay there. -/
theorem le_toDouble (h : 2 ^ 53 ≤ n) : 2 ^ 53 ≤ toDouble n := by
  have hne : n ≠ 0 := by omega
  -- the multiples that `n` is rounded to include its leading bit
  have hlog : 53 ≤ Nat.log 2 n := Nat.le_log_of_pow_le (by decide) h
  have hlead : 2 ^ 52 * 2 ^ (Nat.log 2 n - 52) = 2 ^ Nat.log 2 n := by
    rw [← Nat.pow_add]
    congr 1
    omega
  have hle : 2 ^ 52 * 2 ^ (Nat.log 2 n - 52) ≤ n := by
    rw [hlead]
    exact Nat.pow_log_le_self 2 hne
  calc 2 ^ 53 ≤ 2 ^ Nat.log 2 n := Nat.pow_le_pow_right (by decide) hlog
    _ = 2 ^ 52 * 2 ^ (Nat.log 2 n - 52) := hlead.symm
    _ ≤ toDouble n := le_roundTo hle

/-- The double nearest to an integer. -/
def intToDouble (n : Int) : Int := n.sign * toDouble n.natAbs

/-- Rounding an integer does not move it across a bound below `2 ^ 53`. -/
theorem intToDouble_cases (h : 0 ≤ n) :
    intToDouble n = n ∨ 2 ^ 53 ≤ n ∧ 2 ^ 53 ≤ intToDouble n := by
  obtain ⟨n, rfl⟩ := Int.eq_ofNat_of_zero_le h
  rw [intToDouble, Int.natAbs_natCast]
  by_cases hlt : n < 2 ^ 53
  · left
    rw [toDouble_of_lt hlt]
    exact Int.sign_mul_natAbs n
  · have hle : 2 ^ 53 ≤ n := Nat.le_of_not_lt hlt
    have hdouble := le_toDouble hle
    rw [Int.sign_eq_one_of_pos (by omega)]
    omega

/-- The answer of a script: nil, an integer, or a raised error. -/
inductive Reply where
  | nil
  | int (n : Nat)
  | err
deriving DecidableEq

namespace Reply

/-- The answer is an integer. -/
def isInt : Reply → Bool
  | int _ => true
  | _ => false

/-- Returning a Lua number. -/
def number (n : Nat) : Reply := int (toDouble n)

/-- Returning `tonumber(redis.call('GET', key))`: an absent key reads as
`false`, which `tonumber` turns into nil. -/
def ofGet : Option Nat → Reply
  | none => nil
  | some n => number n

theorem number_of_lt (h : n < 2 ^ 53) : number n = int n := by
  rw [number, toDouble_of_lt h]

end Reply

end Redis
