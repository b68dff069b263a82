import Mathlib
import CircuitGrad.Proofs.GateAction

/-! # Blocks of the standard gates

    The two-by-two matrices of the standard gates as complex matrices, and the
    identities between them that the decompositions of gates rest on.  Angles
    enter through the phases `exp (iφ)` where a matrix is diagonal and through
    cosine and sine of half the angle elsewhere.
-/

namespace CircuitGrad

namespace Proofs

open Gate.Matrix Complex

/-! ## Blocks by their rows -/

/-- The block with the given entries, row by row. -/
def rows (a b c d : ℂ) : Block
  | false, false => a
  | false, true => b
  | true, false => c
  | true, true => d

theorem toBlock_square (a b c d : Amplitude ℝ) :
    toBlock (square a b c d) = rows (toComplex a) (toComplex b) (toComplex c) (toComplex d) := by
  funext i j
  cases i <;> cases j <;> simp [toBlock, square, rows]

theorem rows_mul (a b c d a' b' c' d' : ℂ) : rows a b c d * rows a' b' c' d' =
    rows (a * a' + b * c') (a * b' + b * d') (c * a' + d * c') (c * b' + d * d') := by
  funext i j
  cases i <;> cases j <;> simp [Matrix.mul_apply, rows, add_comm]

theorem rows_smul (z a b c d : ℂ) : z • rows a b c d = rows (z * a) (z * b) (z * c) (z * d) := by
  funext i j
  cases i <;> cases j <;> simp [rows]

theorem one_eq_rows : (1 : Block) = rows 1 0 0 1 := by
  funext i j
  cases i <;> cases j <;> simp [rows]

/-! ## The standard blocks -/

/-- The phase of an angle. -/
noncomputable def phase (φ : ℝ) : ℂ := exp (φ * I)

theorem phase_eq (φ : ℝ) : phase φ = Real.cos φ + Real.sin φ * I := by
  rw [phase, exp_mul_I, ofReal_cos, ofReal_sin]

theorem phase_add (φ ω : ℝ) : phase (φ + ω) = phase φ * phase ω := by
  rw [phase, ofReal_add, add_mul, exp_add]
  rfl

theorem phase_zero : phase 0 = 1 := by simp [phase]

theorem phase_mul_neg (φ : ℝ) : phase φ * phase (-φ) = 1 := by
  rw [← phase_add, add_neg_cancel, phase_zero]

theorem norm_phase (φ : ℝ) : ‖phase φ‖ = 1 := norm_exp_ofReal_mul_I φ

/-- Equal blocks differ by the phase one. -/
theorem eq_one_smul {A B : Block} (h : A = B) : A = (1 : ℂ) • B :=
  h.trans (one_smul ℂ B).symm

theorem toComplex_mk (x y : ℝ) : toComplex ⟨x, y⟩ = x + y * I := by
  rw [toComplex, mk_eq_add_mul_I]

theorem toComplex_polar (r φ : ℝ) : toComplex (.polar r φ) = r * phase φ := by
  rw [phase_eq, mul_add, ← mul_assoc, ← ofReal_mul, ← ofReal_mul]
  exact toComplex_mk _ _

/-- One over the square root of two. -/
noncomputable def root : ℂ := (1 / √2 : ℝ)

theorem root_sq : root * root = 1 / 2 := by
  unfold root
  rw [← ofReal_mul, div_mul_div_comm, Real.mul_self_sqrt (by norm_num), one_mul]
  norm_num

theorem cos_pi_div_four : ((Real.cos (Real.pi / 2 / 2) : ℝ) : ℂ) = root := by
  unfold root
  rw [show Real.pi / 2 / 2 = Real.pi / 4 by ring, Real.cos_pi_div_four, Real.sqrt_div_self']

theorem sin_pi_div_four : ((Real.sin (Real.pi / 2 / 2) : ℝ) : ℂ) = root := by
  unfold root
  rw [show Real.pi / 2 / 2 = Real.pi / 4 by ring, Real.sin_pi_div_four, Real.sqrt_div_self']

theorem two_literal : (2.0 : ℝ) = 2 := by norm_num

theorem toBlock_identity : toBlock identity = 1 := by
  rw [identity, diagonal, toBlock_square, one_eq_rows]
  rfl

theorem toBlock_hadamard : toBlock hadamard = rows root root root (-root) := by
  have hroot : toComplex (.real (Scalar.rsqrtTwo : ℝ)) = root := rfl
  have hneg : toComplex (.real (-Scalar.rsqrtTwo : ℝ)) = -root := by
    rw [← hroot]
    apply Complex.ext <;> simp [toComplex, Amplitude.real]
  unfold hadamard
  rw [toBlock_square, hroot, hneg]

theorem toBlock_pauliX : toBlock pauliX = rows 0 1 1 0 := by
  unfold pauliX
  rw [toBlock_square]
  rfl

theorem toBlock_pauliY : toBlock pauliY = rows 0 (-I) I 0 := by
  unfold pauliY
  rw [toBlock_square, toComplex_zero, toComplex_mk, toComplex_mk]
  simp

theorem toBlock_pauliZ : toBlock pauliZ = rows 1 0 0 (-1) := by
  unfold pauliZ diagonal Amplitude.real
  rw [toBlock_square, toComplex_zero, toComplex_one, toComplex_mk]
  simp

theorem toBlock_s : toBlock Gate.Matrix.s = rows 1 0 0 I := by
  unfold Gate.Matrix.s diagonal
  rw [toBlock_square, toComplex_zero, toComplex_one, toComplex_mk]
  simp

theorem toBlock_t : toBlock Gate.Matrix.t = rows 1 0 0 (phase (Real.pi / 4)) := by
  unfold Gate.Matrix.t diagonal
  rw [toBlock_square, toComplex_polar, toComplex_zero, toComplex_one]
  norm_num [Scalar.pi]

theorem toBlock_sx : toBlock sx =
    rows ((1 + I) / 2) ((1 - I) / 2) ((1 - I) / 2) ((1 + I) / 2) := by
  have hplus : toComplex ⟨(0.5 : ℝ), 0.5⟩ = (1 + I) / 2 := by
    rw [toComplex_mk]
    push_cast
    ring
  have hminus : toComplex ⟨(0.5 : ℝ), -0.5⟩ = (1 - I) / 2 := by
    rw [toComplex_mk]
    push_cast
    ring
  unfold sx
  rw [toBlock_square, hplus, hminus]

/-- The blocks of the rotations by cosine and sine of half the angle. -/
theorem toBlock_rx (θ : ℝ) : toBlock (rx θ) =
    rows (Real.cos (θ / 2)) (-(Real.sin (θ / 2) * I)) (-(Real.sin (θ / 2) * I))
      (Real.cos (θ / 2)) := by
  unfold rx
  rw [toBlock_square, toComplex_mk, toComplex_mk, two_literal]
  simp [Scalar.sin, Scalar.cos]

theorem toBlock_ry (θ : ℝ) : toBlock (ry θ) =
    rows (Real.cos (θ / 2)) (-Real.sin (θ / 2)) (Real.sin (θ / 2)) (Real.cos (θ / 2)) := by
  unfold ry
  rw [toBlock_square, toComplex_mk, toComplex_mk, toComplex_mk, two_literal]
  simp [Scalar.sin, Scalar.cos]

theorem toBlock_rz (θ : ℝ) : toBlock (rz θ) = rows (phase (-(θ / 2))) 0 0 (phase (θ / 2)) := by
  unfold rz diagonal
  rw [toBlock_square, toComplex_zero, toComplex_mk, toComplex_mk, two_literal, phase_eq, phase_eq,
    Real.cos_neg, Real.sin_neg]
  rfl

theorem toBlock_phaseShift (φ : ℝ) : toBlock (phaseShift φ) = rows 1 0 0 (phase φ) := by
  unfold phaseShift diagonal
  rw [toBlock_square, toComplex_polar, toComplex_zero, toComplex_one, ofReal_one, one_mul]

theorem toBlock_rot (φ θ ω : ℝ) : toBlock (rot φ θ ω) =
    rows (Real.cos (θ / 2) * phase (-(φ + ω) / 2)) (-(Real.sin (θ / 2) * phase ((φ - ω) / 2)))
      (Real.sin (θ / 2) * phase (-(φ - ω) / 2)) (Real.cos (θ / 2) * phase ((φ + ω) / 2)) := by
  unfold rot
  rw [toBlock_square, toComplex_neg, toComplex_polar, toComplex_polar, toComplex_polar,
    toComplex_polar, two_literal]
  rfl

/-! ## Identities of blocks -/

theorem hadamard_mul_hadamard : toBlock hadamard * toBlock hadamard = 1 := by
  rw [toBlock_hadamard, rows_mul, one_eq_rows]
  congr 1
  · linear_combination 2 * root_sq
  · ring
  · ring
  · linear_combination 2 * root_sq

/-- Conjugation by a Hadamard gate exchanges the axes `X` and `Z`. -/
theorem hadamard_pauliZ_hadamard :
    toBlock hadamard * (toBlock pauliZ * toBlock hadamard) = toBlock pauliX := by
  rw [toBlock_hadamard, toBlock_pauliZ, toBlock_pauliX, rows_mul, rows_mul]
  congr 1
  · ring
  · linear_combination 2 * root_sq
  · linear_combination 2 * root_sq
  · ring

theorem hadamard_pauliX_hadamard :
    toBlock hadamard * (toBlock pauliX * toBlock hadamard) = toBlock pauliZ := by
  rw [toBlock_hadamard, toBlock_pauliX, toBlock_pauliZ, rows_mul, rows_mul]
  congr 1
  · linear_combination 2 * root_sq
  · ring
  · ring
  · linear_combination -2 * root_sq

theorem hadamard_rz_hadamard (θ : ℝ) :
    toBlock hadamard * (toBlock (rz θ) * toBlock hadamard) = toBlock (rx θ) := by
  rw [toBlock_hadamard, toBlock_rz, toBlock_rx, rows_mul, rows_mul, phase_eq, phase_eq,
    Real.cos_neg, Real.sin_neg, ofReal_neg]
  congr 1
  · linear_combination 2 * Real.cos (θ / 2) * root_sq
  · linear_combination -2 * Real.sin (θ / 2) * I * root_sq
  · linear_combination -2 * Real.sin (θ / 2) * I * root_sq
  · linear_combination 2 * Real.cos (θ / 2) * root_sq

/-- Rotations about one axis add up. -/
theorem ry_mul_ry (θ ω : ℝ) : toBlock (ry θ) * toBlock (ry ω) = toBlock (ry (θ + ω)) := by
  have hcos : Real.cos ((θ + ω) / 2) =
      Real.cos (θ / 2) * Real.cos (ω / 2) - Real.sin (θ / 2) * Real.sin (ω / 2) := by
    rw [add_div, Real.cos_add]
  have hsin : Real.sin ((θ + ω) / 2) =
      Real.sin (θ / 2) * Real.cos (ω / 2) + Real.cos (θ / 2) * Real.sin (ω / 2) := by
    rw [add_div, Real.sin_add]
  rw [toBlock_ry, toBlock_ry, toBlock_ry, rows_mul, hcos, hsin, ofReal_sub, ofReal_add,
    ofReal_mul, ofReal_mul, ofReal_mul, ofReal_mul]
  congr 1 <;> ring

theorem rz_mul_rz (θ ω : ℝ) : toBlock (rz θ) * toBlock (rz ω) = toBlock (rz (θ + ω)) := by
  rw [toBlock_rz, toBlock_rz, toBlock_rz, rows_mul, add_div, neg_add, phase_add, phase_add]
  congr 1 <;> ring

theorem ry_zero : toBlock (ry 0) = 1 := by
  rw [toBlock_ry, one_eq_rows]
  simp

theorem rz_zero : toBlock (rz 0) = 1 := by
  rw [toBlock_rz, one_eq_rows]
  simp [phase_zero]

/-- A bit flip turns the axes `Y` and `Z` around. -/
theorem pauliX_ry_pauliX (θ : ℝ) :
    toBlock pauliX * (toBlock (ry θ) * toBlock pauliX) = toBlock (ry (-θ)) := by
  rw [toBlock_pauliX, toBlock_ry, toBlock_ry, rows_mul, rows_mul, neg_div, Real.cos_neg,
    Real.sin_neg, ofReal_neg]
  congr 1 <;> ring

theorem pauliX_rz_pauliX (θ : ℝ) :
    toBlock pauliX * (toBlock (rz θ) * toBlock pauliX) = toBlock (rz (-θ)) := by
  rw [toBlock_pauliX, toBlock_rz, toBlock_rz, rows_mul, rows_mul, neg_div, neg_neg]
  congr 1 <;> ring

theorem phase_pi_div_four : phase (Real.pi / 2 / 2) = root + root * I := by
  rw [phase_eq, cos_pi_div_four, sin_pi_div_four]

theorem phase_neg_pi_div_four : phase (-(Real.pi / 2 / 2)) = root - root * I := by
  rw [phase_eq, Real.cos_neg, Real.sin_neg, ofReal_neg, cos_pi_div_four, sin_pi_div_four]
  ring

/-- A quarter turn about `Z` takes the axis `Y` to `X`. -/
theorem rz_ry_rz (θ : ℝ) :
    toBlock (rz (-(Real.pi / 2))) * (toBlock (ry θ) * toBlock (rz (Real.pi / 2))) =
      toBlock (rx θ) := by
  rw [toBlock_rz, toBlock_rz, toBlock_ry, toBlock_rx, rows_mul, rows_mul, neg_div, neg_neg,
    phase_pi_div_four, phase_neg_pi_div_four]
  generalize (Real.cos (θ / 2) : ℂ) = c
  generalize (Real.sin (θ / 2) : ℂ) = s
  congr 1
  · linear_combination 2 * c * root_sq - c * root * root * I_sq
  · linear_combination -2 * s * I * root_sq - s * root * root * I_sq
  · linear_combination -2 * s * I * root_sq + s * root * root * I_sq
  · linear_combination 2 * c * root_sq - c * root * root * I_sq

/-- A quarter turn about `Z` takes the axis `X` to `Y`. -/
theorem rz_rx_rz (θ : ℝ) :
    toBlock (rz (Real.pi / 2)) * (toBlock (rx θ) * toBlock (rz (-(Real.pi / 2)))) =
      toBlock (ry θ) := by
  have hback : toBlock (rz (Real.pi / 2)) * toBlock (rz (-(Real.pi / 2))) = 1 := by
    rw [rz_mul_rz, add_neg_cancel, rz_zero]
  rw [← rz_ry_rz]
  simp only [mul_assoc]
  rw [hback, mul_one, ← mul_assoc, hback, one_mul]

theorem rz_rx_rz_quarter :
    toBlock (rz (Real.pi / 2)) * (toBlock (rx (Real.pi / 2)) * toBlock (rz (Real.pi / 2))) =
      (-I) • toBlock hadamard := by
  rw [toBlock_rz, toBlock_rx, toBlock_hadamard, rows_mul, rows_mul, rows_smul,
    phase_pi_div_four, phase_neg_pi_div_four, cos_pi_div_four, sin_pi_div_four]
  congr 1
  · linear_combination root ^ 3 * I_sq - 2 * I * root * root_sq
  · linear_combination root ^ 3 * I * I_sq - 2 * I * root * root_sq
  · linear_combination root ^ 3 * I * I_sq - 2 * I * root * root_sq
  · linear_combination root ^ 3 * I_sq + 2 * I * root * root_sq

theorem rx_pi : toBlock (rx Real.pi) = (-I) • toBlock pauliX := by
  rw [toBlock_rx, toBlock_pauliX, rows_smul, Real.cos_pi_div_two, Real.sin_pi_div_two]
  simp

theorem ry_pi : toBlock (ry Real.pi) = (-I) • toBlock pauliY := by
  rw [toBlock_ry, toBlock_pauliY, rows_smul, Real.cos_pi_div_two, Real.sin_pi_div_two]
  simp

theorem phaseShift_pi : toBlock (phaseShift Real.pi) = toBlock pauliZ := by
  rw [toBlock_phaseShift, toBlock_pauliZ, phase_eq]
  simp

theorem phaseShift_half_pi : toBlock (phaseShift (Real.pi / 2)) = toBlock Gate.Matrix.s := by
  rw [toBlock_phaseShift, toBlock_s, phase_eq]
  simp

theorem phaseShift_quarter_pi :
    toBlock (phaseShift (Real.pi / 4)) = toBlock Gate.Matrix.t := by
  rw [toBlock_phaseShift, toBlock_t]

theorem rx_half_pi : toBlock (rx (Real.pi / 2)) = phase (-(Real.pi / 2 / 2)) • toBlock sx := by
  rw [toBlock_rx, toBlock_sx, rows_smul, phase_neg_pi_div_four, cos_pi_div_four, sin_pi_div_four]
  congr 1
  · linear_combination root / 2 * I_sq
  · linear_combination -root / 2 * I_sq
  · linear_combination -root / 2 * I_sq
  · linear_combination root / 2 * I_sq

theorem rz_eq_phaseShift (φ : ℝ) :
    toBlock (rz φ) = phase (-(φ / 2)) • toBlock (phaseShift φ) := by
  have hhalf : phase (-(φ / 2)) * phase φ = phase (φ / 2) := by
    rw [← phase_add]
    congr 1
    ring
  rw [toBlock_rz, toBlock_phaseShift, rows_smul, hhalf]
  simp

theorem rz_ry_rz_eq_rot (φ θ ω : ℝ) :
    toBlock (rz ω) * (toBlock (ry θ) * toBlock (rz φ)) = toBlock (rot φ θ ω) := by
  have hsplit : ∀ a b c : ℝ, c = a + b → phase c = phase a * phase b := fun a b c h => by
    rw [h, phase_add]
  rw [toBlock_rz, toBlock_rz, toBlock_ry, toBlock_rot, rows_mul, rows_mul,
    hsplit (-(ω / 2)) (-(φ / 2)) (-(φ + ω) / 2) (by ring),
    hsplit (-(ω / 2)) (φ / 2) ((φ - ω) / 2) (by ring),
    hsplit (ω / 2) (-(φ / 2)) (-(φ - ω) / 2) (by ring),
    hsplit (ω / 2) (φ / 2) ((φ + ω) / 2) (by ring)]
  congr 1 <;> ring

end Proofs

end CircuitGrad
