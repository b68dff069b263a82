import Mathlib
import CircuitGrad.Proofs.ShiftExactness

/-! # Lengths, inner products and marginals

    The length of a wave determines the real parts of inner products, so a
    linear map that keeps lengths keeps these as well, and bounds them
    (Cauchy–Schwarz).  The marginal weights of some wires split the squared
    length by what the wires spell: weighted sums over them are sums over the
    basis states (`sum_chance`).
-/

namespace CircuitGrad

namespace Proofs

variable {n : ℕ} {ψ φ : Wave n}

/-! ## Lengths and inner products -/

theorem weight_eq_re_braket (ψ : Wave n) : weight ψ = (braket ψ ψ).re := by
  unfold weight braket
  rw [Complex.re_sum]
  refine Finset.sum_congr rfl fun x _ => ?_
  rw [mul_comm, Complex.mul_conj, Complex.ofReal_re]

theorem re_braket_comm (ψ φ : Wave n) : (braket φ ψ).re = (braket ψ φ).re := by
  unfold braket
  rw [Complex.re_sum, Complex.re_sum]
  refine Finset.sum_congr rfl fun x _ => ?_
  rw [Complex.mul_re, Complex.mul_re, Complex.conj_re, Complex.conj_im, Complex.conj_re,
    Complex.conj_im]
  ring

theorem weight_add (ψ φ : Wave n) :
    weight (ψ + φ) = weight ψ + 2 * (braket ψ φ).re + weight φ := by
  rw [weight_eq_re_braket, weight_eq_re_braket, weight_eq_re_braket, braket_add_left,
    braket_add_right, braket_add_right, Complex.add_re, Complex.add_re, Complex.add_re,
    re_braket_comm ψ φ]
  ring

/-- A linear map that keeps lengths keeps the real parts of inner products. -/
theorem re_braket_of_weight {A : Wave n →ₗ[ℂ] Wave n} (hA : ∀ ψ, weight (A ψ) = weight ψ)
    (ψ φ : Wave n) : (braket (A ψ) (A φ)).re = (braket ψ φ).re := by
  have hsum := hA (ψ + φ)
  rw [map_add, weight_add, weight_add, hA, hA] at hsum
  linarith

theorem sq_re_braket_le (ψ φ : Wave n) : (braket ψ φ).re ^ 2 ≤ weight ψ * weight φ := by
  have habs : |(braket ψ φ).re| ≤ ∑ x, ‖ψ x‖ * ‖φ x‖ := by
    refine (Complex.abs_re_le_norm _).trans ((norm_sum_le _ _).trans_eq ?_)
    refine Finset.sum_congr rfl fun x _ => ?_
    rw [norm_mul, RCLike.norm_conj]
  have hweight (χ : Wave n) : ∑ x, ‖χ x‖ ^ 2 = weight χ :=
    Finset.sum_congr rfl fun x _ => (Complex.normSq_eq_norm_sq _).symm
  calc (braket ψ φ).re ^ 2 = |(braket ψ φ).re| ^ 2 := (sq_abs _).symm
    _ ≤ (∑ x, ‖ψ x‖ * ‖φ x‖) ^ 2 := pow_le_pow_left₀ (abs_nonneg _) habs 2
    _ ≤ (∑ x, ‖ψ x‖ ^ 2) * ∑ x, ‖φ x‖ ^ 2 := Finset.sum_mul_sq_le_sq_mul_sq _ _ _
    _ = weight ψ * weight φ := by rw [hweight, hweight]

/-! ## Marginals -/

theorem chance_nonneg (wires : List ℕ) (j : ℕ) (ψ : Wave n) : 0 ≤ chance wires j ψ := by
  refine Finset.sum_nonneg fun x _ => ?_
  split
  · exact Complex.normSq_nonneg _
  · exact le_rfl

theorem restrict_lt (n : ℕ) (wires : List ℕ) (i : ℕ) :
    Basis.restrict n wires i < 2 ^ wires.length := by
  unfold Basis.restrict
  induction wires using List.reverseRecOn with
  | nil => exact Nat.one_pos
  | append_singleton wires w ih =>
    have hbit := Bool.toNat_lt (Basis.bit n i w)
    rw [List.foldl_append, List.length_append, List.length_singleton, pow_succ]
    show 2 * _ + (Basis.bit n i w).toNat < _
    omega

/-- A sum over the marginal weights is one over the basis states, each counted
    for the number that its wires spell. -/
theorem sum_chance (g : ℕ → ℝ) (wires : List ℕ) (ψ : Wave n) :
    ∑ j ∈ Finset.range (2 ^ wires.length), g j * chance wires j ψ =
      ∑ x : Bits n, g (Basis.restrict n wires (index x)) * Complex.normSq (ψ x) := by
  unfold chance
  simp only [Finset.mul_sum, mul_ite, mul_zero]
  rw [Finset.sum_comm]
  refine Finset.sum_congr rfl fun x _ => ?_
  rw [Finset.sum_ite_eq, if_pos (Finset.mem_range.mpr (restrict_lt n wires (index x)))]

/-- The marginal weights add up to the squared length. -/
theorem sum_chance_one (wires : List ℕ) (ψ : Wave n) :
    ∑ j ∈ Finset.range (2 ^ wires.length), chance wires j ψ = weight ψ := by
  have h := sum_chance (fun _ => 1) wires ψ
  simp only [one_mul] at h
  exact h

theorem sum_chances (wires : List ℕ) (ψ : Wave n) :
    Scalar.sum (Array.ofFn fun j : Fin (2 ^ wires.length) => chance wires j ψ).toList =
      weight ψ := by
  rw [sum_eq_sum, Array.toList_ofFn, List.sum_ofFn, ← sum_chance_one wires, Finset.sum_range]

end Proofs

end CircuitGrad
