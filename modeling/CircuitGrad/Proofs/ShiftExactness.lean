import Mathlib
import CircuitGrad.Proofs.Isometry
import CircuitGrad.Proofs.Replacement

/-! # Why shift rules are exact

    A gate with one angle does to a wave, up to a global phase, what

      `cos (θ/2) • A + sin (θ/2) • B + C`

    does, and `C` vanishes unless the gate is controlled.  A quantity that is
    quadratic in the wave is then a combination of `1`, `cos θ`, `sin θ`, and
    with a `C` of `cos (θ/2)`, `sin (θ/2)` too.  The two-term rule gives the
    derivatives of the first three, the four-term rule those of all five.
-/

namespace CircuitGrad

namespace Proofs

variable {n : ℕ}

/-! ## Trigonometric functions of one angle -/

/-- A combination of the frequencies one and one half. -/
noncomputable def harmonic (a b c d e θ : ℝ) : ℝ :=
  a + b * Real.cos θ + c * Real.sin θ + d * Real.cos (θ / 2) + e * Real.sin (θ / 2)

theorem hasDerivAt_harmonic (a b c d e θ : ℝ) : HasDerivAt (harmonic a b c d e)
    (-b * Real.sin θ + c * Real.cos θ - d / 2 * Real.sin (θ / 2) + e / 2 * Real.cos (θ / 2)) θ := by
  have hhalf : HasDerivAt (fun s : ℝ => s / 2) (1 / 2) θ := (hasDerivAt_id θ).div_const 2
  have hcos := (Real.hasDerivAt_cos θ).const_mul b
  have hsin := (Real.hasDerivAt_sin θ).const_mul c
  have hcos' := hhalf.cos.const_mul d
  have hsin' := hhalf.sin.const_mul e
  refine ((((hcos.const_add a).add hsin).add hcos').add hsin').congr_deriv ?_
  ring

/-- A combination of one frequency. -/
noncomputable def sinusoid (gap a b c θ : ℝ) : ℝ :=
  a + b * Real.cos (gap * θ) + c * Real.sin (gap * θ)

/-- The derivative has the same frequency. -/
theorem hasDerivAt_sinusoid (gap a b c θ : ℝ) : HasDerivAt (sinusoid gap a b c)
    (sinusoid gap 0 (gap * c) (-(gap * b)) θ) θ := by
  have hangle : HasDerivAt (fun s : ℝ => gap * s) gap θ := by
    simpa using (hasDerivAt_id θ).const_mul gap
  have hcos := hangle.cos.const_mul b
  have hsin := hangle.sin.const_mul c
  refine ((hcos.const_add a).add hsin).congr_deriv ?_
  unfold sinusoid
  ring

/-- The two-term rule at an angle. -/
theorem twoTerm_apply (r θ : ℝ) (f : ℝ → ℝ) : (ShiftRule.twoTerm r).apply θ f =
    r * (f (θ + Real.pi / (4 * r)) - f (θ - Real.pi / (4 * r))) := by
  have hshift : Scalar.pi / (4.0 * r) = Real.pi / (4 * r) := by
    norm_num [Scalar.pi]
  unfold ShiftRule.apply ShiftRule.twoTerm ShiftRule.antisymmetric ShiftTerm.point
  rw [sum_eq_sum, hshift]
  simp only [List.map_cons, List.map_nil, List.sum_cons, List.sum_nil, one_mul]
  rw [← sub_eq_add_neg]
  ring

/-- The two-term rule of a gap gives the derivative of its frequency: the shifts
    move the angle by a quarter of a period. -/
theorem twoTerm_sinusoid {gap : ℝ} (hgap : gap ≠ 0) (a b c θ : ℝ) :
    (ShiftRule.twoTerm (gap / 2)).apply θ (sinusoid gap a b c) =
      sinusoid gap 0 (gap * c) (-(gap * b)) θ := by
  have hquarter : gap * (Real.pi / (4 * (gap / 2))) = Real.pi / 2 := by
    field_simp
    ring
  rw [twoTerm_apply]
  unfold sinusoid
  rw [mul_add gap θ, mul_sub gap θ, hquarter, Real.cos_add_pi_div_two, Real.cos_sub_pi_div_two,
    Real.sin_add_pi_div_two, Real.sin_sub_pi_div_two]
  ring

/-- The four-term rule at an angle. -/
theorem fourTerm_apply (θ : ℝ) (f : ℝ → ℝ) : ShiftRule.fourTerm.apply θ f =
    (√2 + 1) / (4 * √2) * (f (θ + Real.pi / 2) - f (θ - Real.pi / 2)) -
      (√2 - 1) / (4 * √2) * (f (θ + 3 * (Real.pi / 2)) - f (θ - 3 * (Real.pi / 2))) := by
  have hquarter : (Scalar.pi : ℝ) / 2.0 = Real.pi / 2 := by
    norm_num [Scalar.pi]
  have hthree : (3.0 : ℝ) = 3 := by norm_num
  unfold ShiftRule.apply ShiftRule.fourTerm ShiftTerm.point
  rw [sum_eq_sum, hquarter, hthree]
  simp only [List.map_cons, List.map_nil, List.sum_cons, List.sum_nil, one_mul]
  rw [show θ + -(Real.pi / 2) = θ - Real.pi / 2 by ring,
    show θ + -3 * (Real.pi / 2) = θ - 3 * (Real.pi / 2) by ring]
  show (√2 + 1) / (4 * √2) * _ + (-((√2 + 1) / (4 * √2)) * _ +
    (-((√2 - 1) / (4 * √2)) * _ + ((√2 - 1) / (4 * √2) * _ + 0))) = _
  ring

theorem cos_three_quarters (x : ℝ) :
    Real.cos (x + 3 * (Real.pi / 2)) - Real.cos (x - 3 * (Real.pi / 2)) = 2 * Real.sin x := by
  rw [show x + 3 * (Real.pi / 2) = x - Real.pi / 2 + 2 * Real.pi by ring,
    show x - 3 * (Real.pi / 2) = x + Real.pi / 2 - 2 * Real.pi by ring,
    Real.cos_add_two_pi, Real.cos_sub_two_pi, Real.cos_sub_pi_div_two, Real.cos_add_pi_div_two]
  ring

theorem sin_three_quarters (x : ℝ) :
    Real.sin (x + 3 * (Real.pi / 2)) - Real.sin (x - 3 * (Real.pi / 2)) = -2 * Real.cos x := by
  rw [show x + 3 * (Real.pi / 2) = x - Real.pi / 2 + 2 * Real.pi by ring,
    show x - 3 * (Real.pi / 2) = x + Real.pi / 2 - 2 * Real.pi by ring,
    Real.sin_add_two_pi, Real.sin_sub_two_pi, Real.sin_sub_pi_div_two, Real.sin_add_pi_div_two]
  ring

/-- The two-term rule gives the derivative of frequency one. -/
theorem twoTerm_exact (a b c θ : ℝ) : HasDerivAt (harmonic a b c 0 0)
    ((ShiftRule.twoTerm (1 / 2)).apply θ (harmonic a b c 0 0)) θ := by
  have hone : harmonic a b c 0 0 = sinusoid 1 a b c := by
    funext s
    simp only [harmonic, sinusoid, one_mul, zero_mul, add_zero]
  rw [hone, twoTerm_sinusoid one_ne_zero]
  exact hasDerivAt_sinusoid 1 a b c θ

/-- Half the angle at the two shifts of the four-term rule. -/
theorem half_shifts (x y : ℝ) :
    Real.cos (x / 2 + y) - Real.cos (x / 2 - y) = -2 * Real.sin y * Real.sin (x / 2) ∧
      Real.sin (x / 2 + y) - Real.sin (x / 2 - y) = 2 * Real.sin y * Real.cos (x / 2) := by
  rw [Real.cos_add, Real.cos_sub, Real.sin_add, Real.sin_sub]
  constructor <;> ring

/-- The four-term rule gives the derivatives of the frequencies one and one half. -/
theorem fourTerm_exact (a b c d e θ : ℝ) : HasDerivAt (harmonic a b c d e)
    (ShiftRule.fourTerm.apply θ (harmonic a b c d e)) θ := by
  refine (hasDerivAt_harmonic a b c d e θ).congr_deriv ?_
  have hroot : √2 ≠ 0 := by positivity
  have hnear : Real.sin (Real.pi / 4) = √2 / 2 := Real.sin_pi_div_four
  have hfar : Real.sin (3 * (Real.pi / 4)) = √2 / 2 := by
    rw [show 3 * (Real.pi / 4) = Real.pi - Real.pi / 4 by ring, Real.sin_pi_sub, hnear]
  obtain ⟨hcos, hsin⟩ := half_shifts θ (Real.pi / 4)
  obtain ⟨hcos', hsin'⟩ := half_shifts θ (3 * (Real.pi / 4))
  rw [hnear] at hcos hsin
  rw [hfar] at hcos' hsin'
  -- At both pairs of shifts the half frequency has the factor `√2`, so that the
  -- weights take it out of one pair and double it in the other.
  have hnearDiff : harmonic a b c d e (θ + Real.pi / 2) - harmonic a b c d e (θ - Real.pi / 2) =
      -2 * b * Real.sin θ + 2 * c * Real.cos θ - √2 * d * Real.sin (θ / 2) +
        √2 * e * Real.cos (θ / 2) := by
    unfold harmonic
    rw [show (θ + Real.pi / 2) / 2 = θ / 2 + Real.pi / 4 by ring,
      show (θ - Real.pi / 2) / 2 = θ / 2 - Real.pi / 4 by ring, Real.cos_add_pi_div_two,
      Real.cos_sub_pi_div_two, Real.sin_add_pi_div_two, Real.sin_sub_pi_div_two]
    linear_combination d * hcos + e * hsin
  have hfarDiff : harmonic a b c d e (θ + 3 * (Real.pi / 2)) -
      harmonic a b c d e (θ - 3 * (Real.pi / 2)) =
      2 * b * Real.sin θ - 2 * c * Real.cos θ - √2 * d * Real.sin (θ / 2) +
        √2 * e * Real.cos (θ / 2) := by
    unfold harmonic
    rw [show (θ + 3 * (Real.pi / 2)) / 2 = θ / 2 + 3 * (Real.pi / 4) by ring,
      show (θ - 3 * (Real.pi / 2)) / 2 = θ / 2 - 3 * (Real.pi / 4) by ring]
    linear_combination b * cos_three_quarters θ + c * sin_three_quarters θ + d * hcos' + e * hsin'
  rw [fourTerm_apply, hnearDiff, hfarDiff]
  field_simp
  ring

/-! ## Quadratic quantities -/

theorem braket_add_left (ψ ψ' φ : Wave n) :
    braket (ψ + ψ') φ = braket ψ φ + braket ψ' φ := by
  unfold braket
  rw [← Finset.sum_add_distrib]
  refine Finset.sum_congr rfl fun x _ => ?_
  rw [Pi.add_apply, map_add, add_mul]

theorem braket_add_right (ψ φ φ' : Wave n) :
    braket ψ (φ + φ') = braket ψ φ + braket ψ φ' := by
  unfold braket
  rw [← Finset.sum_add_distrib]
  refine Finset.sum_congr rfl fun x _ => ?_
  rw [Pi.add_apply, mul_add]

theorem braket_real_smul_left (r : ℝ) (ψ φ : Wave n) :
    braket ((r : ℂ) • ψ) φ = r * braket ψ φ := by
  unfold braket
  rw [Finset.mul_sum]
  refine Finset.sum_congr rfl fun x _ => ?_
  rw [Pi.smul_apply, smul_eq_mul, map_mul, Complex.conj_ofReal, mul_assoc]

theorem braket_real_smul_right (r : ℝ) (ψ φ : Wave n) :
    braket ψ ((r : ℂ) • φ) = r * braket ψ φ := by
  unfold braket
  rw [Finset.mul_sum]
  refine Finset.sum_congr rfl fun x _ => ?_
  rw [Pi.smul_apply, smul_eq_mul, mul_left_comm]

/-- The real part of the inner product of a wave with its image. -/
noncomputable def form (L : Wave n →ₗ[ℂ] Wave n) (ψ : Wave n) : ℝ := (braket ψ (L ψ)).re

theorem form_smul {z : ℂ} (hz : ‖z‖ = 1) (L : Wave n →ₗ[ℂ] Wave n) (ψ : Wave n) :
    form L (z • ψ) = form L ψ := by
  unfold form
  rw [map_smul, braket_smul hz]

theorem mean_eq_form (o : Observable ℝ) (ψ : Wave n) : mean o ψ = form (observableAction o) ψ :=
  rfl

/-- The part of a wave in which some wires spell a number. -/
def spelled (wires : List ℕ) (j : ℕ) : Wave n →ₗ[ℂ] Wave n where
  toFun ψ x := if Basis.restrict n wires (index x) = j then ψ x else 0
  map_add' ψ φ := by
    funext x
    by_cases h : Basis.restrict n wires (index x) = j <;> simp [h]
  map_smul' z ψ := by
    funext x
    by_cases h : Basis.restrict n wires (index x) = j <;> simp [h]

theorem chance_eq_form (wires : List ℕ) (j : ℕ) (ψ : Wave n) :
    chance wires j ψ = form (spelled wires j) ψ := by
  unfold chance form braket
  rw [Complex.re_sum]
  refine Finset.sum_congr rfl fun x _ => ?_
  show _ = ((starRingEnd ℂ) (ψ x) * if Basis.restrict n wires (index x) = j then ψ x else 0).re
  by_cases h : Basis.restrict n wires (index x) = j
  · rw [if_pos h, if_pos h, mul_comm, Complex.mul_conj, Complex.ofReal_re]
  · rw [if_neg h, if_neg h, mul_zero, Complex.zero_re]

/-! ## Waves that turn with an angle -/

/-- The wave turns with the angle in the way that the rule is made for. -/
def Turns (rule : ShiftRule ℝ) (χ : ℝ → Wave n) : Prop :=
  ∃ a b c : Wave n, (rule = .twoTerm (1 / 2) ∧ c = 0 ∨ rule = .fourTerm) ∧
    ∀ θ, ∃ z : ℂ, ‖z‖ = 1 ∧
      χ θ = z • ((Real.cos (θ / 2) : ℂ) • a + (Real.sin (θ / 2) : ℂ) • b + c)

theorem Turns.map {rule : ShiftRule ℝ} {χ : ℝ → Wave n} (h : Turns rule χ)
    (A : Wave n →ₗ[ℂ] Wave n) : Turns rule fun θ => A (χ θ) := by
  obtain ⟨a, b, c, hrule, hχ⟩ := h
  refine ⟨A a, A b, A c, hrule.imp_left fun ⟨hrule, hc⟩ => ⟨hrule, by rw [hc, map_zero]⟩, ?_⟩
  intro θ
  obtain ⟨z, hz, heq⟩ := hχ θ
  exact ⟨z, hz, by simp only [heq, map_smul, map_add]⟩

/-- A quadratic quantity of a turning wave is harmonic in the angle. -/
theorem form_eq_harmonic (L : Wave n →ₗ[ℂ] Wave n) (a b c : Wave n) (θ : ℝ) :
    form L ((Real.cos (θ / 2) : ℂ) • a + (Real.sin (θ / 2) : ℂ) • b + c) =
      harmonic ((form L a + form L b) / 2 + form L c) ((form L a - form L b) / 2)
        (((braket a (L b)).re + (braket b (L a)).re) / 2)
        ((braket a (L c)).re + (braket c (L a)).re)
        ((braket b (L c)).re + (braket c (L b)).re) θ := by
  -- Both sides in cosine and sine of half the angle.
  have hcos : Real.cos θ = 2 * Real.cos (θ / 2) ^ 2 - 1 := by
    rw [← Real.cos_two_mul, mul_div_cancel₀ θ two_ne_zero]
  have hsin : Real.sin θ = 2 * Real.sin (θ / 2) * Real.cos (θ / 2) := by
    rw [← Real.sin_two_mul, mul_div_cancel₀ θ two_ne_zero]
  have hone := Real.cos_sq_add_sin_sq (θ / 2)
  unfold harmonic form
  rw [hcos, hsin]
  generalize Real.cos (θ / 2) = x at *
  generalize Real.sin (θ / 2) = y at *
  simp only [map_add, map_smul, braket_add_left, braket_add_right, braket_real_smul_left,
    braket_real_smul_right, Complex.add_re, Complex.re_ofReal_mul]
  linear_combination (braket b (L b)).re * hone

/-- For a turning wave the rule gives the derivative of a quadratic quantity. -/
theorem Turns.hasDerivAt_form {rule : ShiftRule ℝ} {χ : ℝ → Wave n} (h : Turns rule χ)
    (L : Wave n →ₗ[ℂ] Wave n) (θ : ℝ) :
    HasDerivAt (fun s => form L (χ s)) (rule.apply θ fun s => form L (χ s)) θ := by
  obtain ⟨a, b, c, hrule, hχ⟩ := h
  have hharmonic : (fun s => form L (χ s)) = harmonic ((form L a + form L b) / 2 + form L c)
      ((form L a - form L b) / 2) (((braket a (L b)).re + (braket b (L a)).re) / 2)
      ((braket a (L c)).re + (braket c (L a)).re) ((braket b (L c)).re + (braket c (L b)).re) := by
    funext s
    obtain ⟨z, hz, heq⟩ := hχ s
    rw [heq, form_smul hz, form_eq_harmonic]
  rw [hharmonic]
  rcases hrule with ⟨rfl, rfl⟩ | rfl
  -- Without `c` the half frequencies vanish, and two terms suffice.
  · have hzero : ∀ ψ : Wave n, braket ψ (0 : Wave n) = 0 ∧ braket (0 : Wave n) ψ = 0 := by
      intro ψ
      simp [braket]
    simp only [map_zero, (hzero _).1, (hzero _).2, Complex.zero_re, add_zero]
    exact twoTerm_exact _ _ _ θ
  · exact fourTerm_exact _ _ _ _ _ θ

end Proofs

end CircuitGrad
