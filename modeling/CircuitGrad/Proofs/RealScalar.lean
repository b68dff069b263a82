import Mathlib
import CircuitGrad.Scalar

/-! # Exact arithmetic

    The real numbers as a carrier of the numeric definitions.  All operations
    are the mathematical ones: nothing is rounded, every number is finite, and
    the two weights of the four-term shift rule are the surds they stand for.

    A quotient by zero, the logarithm of a negative number and so on have the
    values that the library of the real numbers gives them.  Statements that
    depend on such a value exclude it.
-/

namespace CircuitGrad

/-- The real numeral two is read through this instance in every module. -/
instance atLeastTwo_two : Nat.AtLeastTwo 2 := ⟨le_rfl⟩

open Classical in
/-- A real number contributes itself to a key. -/
noncomputable instance : Representation ℝ where
  Code := UInt8 ⊕ ℝ
  byte := .inl
  number x := [.inr x]

open Classical in
noncomputable instance : Scalar ℝ where
  pi := Real.pi
  rsqrtTwo := 1 / √2
  fourTermMajor := (√2 + 1) / (4 * √2)
  fourTermMinor := (√2 - 1) / (4 * √2)
  sin := Real.sin
  cos := Real.cos
  tan := Real.tan
  exp := Real.exp
  ln := Real.log
  sqrt := Real.sqrt
  abs x := |x|
  round x := if 0 ≤ x then ⌊x + 1 / 2⌋ else ⌈x - 1 / 2⌉
  lt x y := decide (x < y)
  le x y := decide (x ≤ y)
  isNaN _ := false
  isFinite _ := true
  totalLe x y := decide (x ≤ y)
  text _ := ""

namespace Proofs

/-- The sum of a list does not depend on how it is folded. -/
theorem sum_eq_sum (xs : List ℝ) : Scalar.sum xs = xs.sum := by
  unfold Scalar.sum
  rw [neg_zero, List.sum_eq_foldl]

/-- Square and multiply: the bits of the exponent that are still to be read
    carry the power that is still to be multiplied. -/
theorem powerStep_eq (x acc : ℝ) (n : ℕ) : Scalar.powerStep x acc n = acc * x ^ n := by
  induction n using Nat.strongRecOn generalizing x acc with
  | ind n ih =>
    unfold Scalar.powerStep
    have hn : n = 2 * (n / 2) + n % 2 := (Nat.div_add_mod n 2).symm
    have hsq : (x * x) ^ (n / 2) = x ^ (2 * (n / 2)) := by rw [pow_mul, sq]
    by_cases hhalf : n / 2 = 0
    -- The last bit is read.
    · have hle : n = n % 2 := by omega
      rw [dif_pos hhalf]
      by_cases hodd : n % 2 = 1
      · rw [if_pos hodd, hle, hodd, pow_one]
      · have hzero : n = 0 := by omega
        rw [if_neg hodd, hzero, pow_zero, mul_one]
    -- The higher bits carry the power of the square.
    · rw [dif_neg hhalf, ih (n / 2) (by omega), hsq]
      by_cases hodd : n % 2 = 1
      · rw [if_pos hodd, mul_assoc, ← pow_succ', ← hodd, ← hn]
      · have heven : n = 2 * (n / 2) := by omega
        rw [if_neg hodd, ← heven]

/-- Repeated squaring computes the integer powers, negative ones included. -/
theorem power_eq_zpow (x : ℝ) (n : ℤ) : Scalar.power x n = x ^ n := by
  unfold Scalar.power
  rw [powerStep_eq, one_mul]
  by_cases hneg : n < 0
  · have hn : n = -(n.natAbs : ℤ) := by omega
    rw [if_pos hneg, one_div]
    conv_rhs => rw [hn, zpow_neg, zpow_natCast]
  · have hn : n = (n.natAbs : ℤ) := by omega
    rw [if_neg hneg]
    conv_rhs => rw [hn, zpow_natCast]

end Proofs

end CircuitGrad
