import Mathlib
import CircuitGrad.Proofs.JetFlags
import CircuitGrad.Proofs.PartialDerivative

/-! # Differentiation of expressions

    Evaluated on jets at a point, an expression yields the value of the
    function that it denotes, its partial derivatives and, where every seed
    asked for them, its second partial derivatives, at each point where all
    its parts are differentiable (`jet_correct`).

    The induction over expressions carries one invariant (`Tracks`): slopes
    are right in a neighbourhood of the point and bends at the point itself.
    Each operation keeps it, since its rule on slopes and bends is the product
    rule or the chain rule applied once and then once more.
-/

namespace CircuitGrad

open Filter Topology

namespace Proofs

variable {n : ℕ}

/-! ## The invariant of the evaluation -/

/-- Around `p` the jets `J` follow the function `f`: the values everywhere,
    the slopes near `p`, the bends at `p` where they are tracked. -/
structure Tracks (p : Fin n → ℝ) (f : (Fin n → ℝ) → ℝ) (J : (Fin n → ℝ) → Jet ℝ) : Prop where
  value      : ∀ q, (J q).value = f q
  ordered    : ∀ q, (J q).Ordered
  continuous : ContinuousAt f p
  slopes     : ∀ᶠ q in 𝓝 p, ∀ i : Fin n, HasPartialAt f i ((J q).slope i) q
  bends      : (J p).hasSecondOrder → ∀ i j : Fin n,
    HasPartialAt (fun q => (J q).slope i) j ((J p).bend i j) p

namespace Tracks

variable {p : Fin n → ℝ} {f g : (Fin n → ℝ) → ℝ} {J K : (Fin n → ℝ) → Jet ℝ}

theorem slope (h : Tracks p f J) (i : Fin n) : HasPartialAt f i ((J p).slope i) p :=
  h.slopes.self_of_nhds i

theorem constant (v : ℝ) : Tracks p (fun _ => v) fun _ => Jet.constant v where
  value _ := rfl
  ordered _ := fun d hd => by cases hd
  continuous := continuousAt_const
  slopes := .of_forall fun q i => HasPartialAt.const v i q
  bends _ i j := HasPartialAt.const 0 j p

theorem trainable (v : ℝ) : Tracks p (fun _ => v) fun _ => Jet.trainable v where
  value _ := rfl
  ordered _ := by
    intro d hd c hc
    cases hd
    cases hc
    exact ordered_nil
  continuous := continuousAt_const
  slopes := .of_forall fun q i => HasPartialAt.const v i q
  bends _ i j := HasPartialAt.const 0 j p

theorem seed (k : Fin n) (secondOrder : Bool) :
    Tracks p (fun q => q k) fun q => Jet.seed (q k) k n secondOrder where
  value _ := rfl
  ordered q := by
    intro d hd c hc
    cases hd
    cases secondOrder <;> cases hc
    exact ordered_nil
  continuous := (continuous_apply k).continuousAt
  slopes := .of_forall fun q i => slope_seed (q k) k i secondOrder ▸ HasPartialAt.coordinate k i q
  bends _ i j := by
    simp only [slope_seed, bend_seed]
    exact HasPartialAt.const _ j p

/-- The chain rule, once for the slopes and once more for the bends. -/
theorem chain (h : Tracks p f J) (φ0 φ1 φ2 : ℝ → ℝ)
    (h0 : ∀ᶠ v in 𝓝 (f p), HasDerivAt φ0 (φ1 v) v) (h1 : HasDerivAt φ1 (φ2 (f p)) (f p)) :
    Tracks p (fun q => φ0 (f q))
      fun q => (J q).chain (φ0 (J q).value) (φ1 (J q).value) (φ2 (J q).value) where
  value q := congrArg φ0 (h.value q)
  ordered q := ordered_chain _ _ _ _ (h.ordered q)
  continuous := h0.self_of_nhds.continuousAt.comp h.continuous
  slopes := by
    -- Near `p` the function stays where `φ0` is differentiable.
    filter_upwards [h.slopes, h.continuous.eventually h0] with q hq hφ i
    rw [slope_chain, h.value]
    exact HasPartialAt.comp hφ (hq i)
  bends hs i j := by
    rw [hasSecondOrder_chain] at hs
    -- The slope is a product of `φ1` of the value and the slope before.
    have hφ : HasPartialAt (fun q => φ1 (J q).value) j (φ2 (f p) * (J p).slope j) p := by
      simp only [h.value]
      exact HasPartialAt.comp h1 (h.slope j)
    simp only [slope_chain]
    refine (hφ.mul (h.bends hs i j)).congr_deriv ?_
    rw [bend_chain _ _ _ _ (h.ordered p) hs, h.value]
    ring

theorem scale (h : Tracks p f J) (k : ℝ) : Tracks p (fun q => f q * k) fun q => (J q).scale k where
  value q := congrArg (· * k) (h.value q)
  ordered q := ordered_scale _ _ (h.ordered q)
  continuous := h.continuous.mul continuousAt_const
  slopes := by
    filter_upwards [h.slopes] with q hq i
    refine ((hq i).mul (HasPartialAt.const k i q)).congr_deriv ?_
    rw [slope_scale]
    ring
  bends hs i j := by
    rw [hasSecondOrder_scale] at hs
    simp only [slope_scale]
    refine ((HasPartialAt.const k j p).mul (h.bends hs i j)).congr_deriv ?_
    rw [bend_scale]
    ring

theorem add (hf : Tracks p f J) (hg : Tracks p g K) :
    Tracks p (fun q => f q + g q) fun q => (J q).add (K q) where
  value q := congrArg₂ (· + ·) (hf.value q) (hg.value q)
  ordered q := ordered_add _ _ (hf.ordered q) (hg.ordered q)
  continuous := hf.continuous.add hg.continuous
  slopes := by
    filter_upwards [hf.slopes, hg.slopes] with q hfq hgq i
    rw [slope_add]
    exact (hfq i).add (hgq i)
  bends hs i j := by
    have hboth := hs
    rw [hasSecondOrder_add, Bool.and_eq_true] at hboth
    simp only [slope_add]
    rw [bend_add _ _ (hf.ordered p) (hg.ordered p) hs]
    exact (hf.bends hboth.1 i j).add (hg.bends hboth.2 i j)

/-- The product rule, once for the slopes and once more for the bends. -/
theorem mul (hf : Tracks p f J) (hg : Tracks p g K) :
    Tracks p (fun q => f q * g q) fun q => (J q).mul (K q) where
  value q := (value_mul _ _).trans (congrArg₂ (· * ·) (hf.value q) (hg.value q))
  ordered q := ordered_mul _ _ (hf.ordered q) (hg.ordered q)
  continuous := hf.continuous.mul hg.continuous
  slopes := by
    filter_upwards [hf.slopes, hg.slopes] with q hfq hgq i
    refine ((hfq i).mul (hgq i)).congr_deriv ?_
    rw [slope_mul, hf.value, hg.value]
    ring
  bends hs i j := by
    have hboth := hs
    rw [hasSecondOrder_mul, Bool.and_eq_true] at hboth
    simp only [slope_mul, hf.value, hg.value]
    -- The slope is a sum of two products, each differentiated at `p`.
    have hleft := (hf.slope j).mul (hg.bends hboth.2 i j)
    have hright := (hg.slope j).mul (hf.bends hboth.1 i j)
    refine (hleft.add hright).congr_deriv ?_
    rw [bend_mul _ _ (hf.ordered p) (hg.ordered p) hs, hf.value, hg.value]
    ring

/-! ### Elementary functions -/

theorem sin (h : Tracks p f J) : Tracks p (fun q => Real.sin (f q)) fun q => (J q).sin :=
  h.chain Real.sin Real.cos (fun v => -Real.sin v) (.of_forall Real.hasDerivAt_sin)
    (Real.hasDerivAt_cos (f p))

theorem cos (h : Tracks p f J) : Tracks p (fun q => Real.cos (f q)) fun q => (J q).cos :=
  h.chain Real.cos (fun v => -Real.sin v) (fun v => -Real.cos v) (.of_forall Real.hasDerivAt_cos)
    (Real.hasDerivAt_sin (f p)).fun_neg

theorem exp (h : Tracks p f J) : Tracks p (fun q => Real.exp (f q)) fun q => (J q).exp :=
  h.chain Real.exp Real.exp Real.exp (.of_forall Real.hasDerivAt_exp) (Real.hasDerivAt_exp (f p))

theorem tan (h : Tracks p f J) (hcos : Real.cos (f p) ≠ 0) :
    Tracks p (fun q => Real.tan (f q)) fun q => (J q).tan := by
  have hsec : ∀ v, Real.cos v ≠ 0 →
      HasDerivAt Real.tan (1 + Real.tan v * Real.tan v) v := by
    intro v hv
    refine (Real.hasDerivAt_tan hv).congr_deriv ?_
    rw [Real.tan_eq_sin_div_cos]
    field_simp
    linarith [Real.sin_sq_add_cos_sq v]
  refine h.chain Real.tan (fun v => 1 + Real.tan v * Real.tan v)
    (fun v => 2.0 * Real.tan v * (1 + Real.tan v * Real.tan v)) ?_ ?_
  · exact (Real.continuous_cos.continuousAt.eventually_ne hcos).mono hsec
  · have ht := hsec (f p) hcos
    refine ((ht.mul ht).const_add 1).congr_deriv ?_
    norm_num
    ring

theorem ln (h : Tracks p f J) (hpos : 0 < f p) :
    Tracks p (fun q => Real.log (f q)) fun q => (J q).ln := by
  refine h.chain Real.log (fun v => 1 / v) (fun v => -1 / (v * v)) ?_ ?_
  · filter_upwards [lt_mem_nhds hpos] with v hv
    exact (Real.hasDerivAt_log hv.ne').congr_deriv (one_div v).symm
  · simp only [one_div]
    refine (hasDerivAt_inv hpos.ne').congr_deriv ?_
    rw [sq, neg_div, one_div]

theorem sqrt (h : Tracks p f J) (hpos : 0 < f p) :
    Tracks p (fun q => √(f q)) fun q => (J q).sqrt := by
  have hroot : ∀ v : ℝ, 0 < v → HasDerivAt Real.sqrt (0.5 / √v) v := by
    intro v hv
    refine (Real.hasDerivAt_sqrt hv.ne').congr_deriv ?_
    have hne := (Real.sqrt_pos.mpr hv).ne'
    field_simp
    norm_num
  refine h.chain Real.sqrt (fun v => 0.5 / √v) (fun v => -0.25 / (√v * √v * √v)) ?_ ?_
  · filter_upwards [lt_mem_nhds hpos] with v hv
    exact hroot v hv
  · have hne := (Real.sqrt_pos.mpr hpos).ne'
    refine ((hasDerivAt_const (f p) (0.5 : ℝ)).div (hroot (f p) hpos) hne).congr_deriv ?_
    show _ = -0.25 / (√(f p) * √(f p) * √(f p))
    field_simp
    norm_num

theorem recip (h : Tracks p f J) (hne : f p ≠ 0) :
    Tracks p (fun q => (f q)⁻¹) fun q => (J q).recip := by
  simp only [← one_div]
  refine h.chain (fun v => 1 / v) (fun v => -1 / (v * v)) (fun v => 2.0 / (v * v * v)) ?_ ?_
  · filter_upwards [continuousAt_id.eventually_ne hne] with v (hv : v ≠ 0)
    simp only [one_div]
    refine (hasDerivAt_inv hv).congr_deriv ?_
    rw [sq, neg_div, one_div]
  · have hsq : HasDerivAt (fun v : ℝ => v * v) (2 * f p) (f p) := by
      refine ((hasDerivAt_id' (f p)).mul (hasDerivAt_id' (f p))).congr_deriv ?_
      ring
    refine ((hasDerivAt_const (f p) (-1 : ℝ)).div hsq (mul_ne_zero hne hne)).congr_deriv ?_
    show _ = 2.0 / (f p * f p * f p)
    field_simp
    norm_num

theorem power (h : Tracks p f J) {k : ℤ} (hlow : -2 ^ 31 + 2 ≤ k) (hhigh : k < 2 ^ 31)
    (hne : k < 0 → f p ≠ 0) : Tracks p (fun q => f q ^ k) fun q => (J q).power k := by
  unfold Jet.power
  by_cases hzero : k = 0
  · simp only [hzero, if_true, zpow_zero]
    exact constant 1
  by_cases hone : k = 1
  · simpa only [hone, if_true, zpow_one, one_ne_zero, if_false] using h
  simp only [if_neg hzero, if_neg hone, power_eq_zpow]
  -- the exponents of the derivatives are small enough to be kept as they are
  have hword : ∀ d : ℤ, 0 ≤ d → d ≤ 2 → Jet.exponentWord (k - d) = k - d := fun d hd hd' =>
    Int.bmod_eq_of_le (by norm_num; omega) (by norm_num; omega)
  rw [hword 1 (by omega) (by omega), hword 2 (by omega) (by omega)]
  refine h.chain (fun v => v ^ k) (fun v => k * v ^ (k - 1))
    (fun v => k * (k - 1) * v ^ (k - 2)) ?_ ?_
  · by_cases hneg : k < 0
    · filter_upwards [continuousAt_id.eventually_ne (hne hneg)] with v hv
      exact hasDerivAt_zpow k v (.inl hv)
    · exact .of_forall fun v => hasDerivAt_zpow k v (.inr (by omega))
  · have hside : f p ≠ 0 ∨ 0 ≤ k - 1 := by
      by_cases hneg : k < 0
      · exact .inl (hne hneg)
      · exact .inr (by omega)
    refine ((hasDerivAt_zpow (k - 1) (f p) hside).const_mul (k : ℝ)).congr_deriv ?_
    have hexp : k - 1 - 1 = k - 2 := by ring
    rw [hexp]
    push_cast
    ring

theorem neg (h : Tracks p f J) : Tracks p (fun q => -f q) fun q => -J q := by
  have h' := h.scale (-1)
  simp only [mul_neg_one] at h'
  exact h'

theorem sub (hf : Tracks p f J) (hg : Tracks p g K) :
    Tracks p (fun q => f q - g q) fun q => J q - K q := by
  have h := hf.add (hg.scale (-1))
  simp only [mul_neg_one, ← sub_eq_add_neg] at h
  exact h

theorem div (hf : Tracks p f J) (hg : Tracks p g K) (hne : g p ≠ 0) :
    Tracks p (fun q => f q / g q) fun q => J q / K q := by
  simpa only [← div_eq_mul_inv, ← div_eq_mul_recip] using hf.mul (hg.recip hne)

/-! ### Expressions -/

/-- Every leaf keeps the invariant. -/
theorem leaf (l : Leaf n) (p : Fin n → ℝ) : Tracks p (fun q => l.denote q) fun q => l.jet q := by
  cases l with
  | constant x => exact constant x
  | input i secondOrder => exact seed i secondOrder
  | trainable x => exact trainable x

/-- Every function of one jet keeps the invariant where it is smooth. -/
theorem unary (h : Tracks p f J) {φ : UnaryFunction} (hkeep : φ ≠ .frozen)
    (hsmooth : φ.Smooth (f p)) :
    Tracks p (fun q => φ.denote (f q)) fun q => φ.apply (J q) := by
  cases φ with
  | sin => exact h.sin
  | cos => exact h.cos
  | tan => exact h.tan hsmooth
  | exp => exact h.exp
  | ln => exact h.ln hsmooth
  | sqrt => exact h.sqrt hsmooth
  | recip => exact h.recip hsmooth
  | neg => exact h.neg
  | frozen => exact absurd rfl hkeep

/-- Every function of two jets keeps the invariant; a divisor must not vanish. -/
theorem binary (hf : Tracks p f J) (hg : Tracks p g K) {φ : BinaryFunction}
    (hne : φ = .div → g p ≠ 0) :
    Tracks p (fun q => φ.denote (f q) (g q)) fun q => φ.apply (J q) (K q) := by
  cases φ with
  | add => exact hf.add hg
  | sub => exact hf.sub hg
  | mul => exact hf.mul hg
  | div => exact hf.div hg (hne rfl)

/-- The jets of an expression follow the function that it denotes. -/
theorem expression {e : Expression (Leaf n)} (hadm : e.Admissible) (hdef : e.DefinedAt p) :
    Tracks p e.denote fun q => e.jet q := by
  induction e with
  | leaf l => exact leaf l p
  | unary φ x ih => exact (ih hadm.2 hdef.1).unary hadm.1 hdef.2
  | power x k ih => exact (ih hadm.2.2 hdef.1).power hadm.1 hadm.2.1 hdef.2
  | binary φ x y ihx ihy => exact (ihx hadm.1 hdef.1).binary (ihy hadm.2 hdef.2.1) hdef.2.2

end Tracks

/-! ## Correctness -/

/-- Forward mode is exact.  Where all parts of an expression are differentiable,
    its jet holds the value, the partial derivatives and, where they are
    tracked, the second partial derivatives of the function that the expression
    denotes; up to these last nothing depends on the order of the seeds; and an
    affine flag says that the function is affine, with this gradient and no
    second derivatives at any point. -/
theorem jet_correct (e : Expression (Leaf n)) (hadm : e.Admissible) (p : Fin n → ℝ)
    (hdef : e.DefinedAt p) :
    (e.jet p).value = e.denote p ∧
    (∀ i : Fin n, HasPartialAt e.denote i ((e.jet p).slope i) p) ∧
    ((e.jet p).hasSecondOrder → ∀ i j : Fin n, ∃ g : (Fin n → ℝ) → ℝ,
      (∀ᶠ q in 𝓝 p, HasPartialAt e.denote i (g q) q) ∧
        HasPartialAt g j ((e.jet p).bend i j) p) ∧
    (∀ secondOrder : Bool,
      ((e.reseed secondOrder).jet p).value = (e.jet p).value ∧
      ((e.reseed secondOrder).jet p).gradient? = (e.jet p).gradient? ∧
      ((e.reseed secondOrder).jet p).isAffine = (e.jet p).isAffine) ∧
    ((e.jet p).isAffine → ∃ (a : ℝ) (b : Fin n → ℝ), ∀ q,
      e.denote q = a + ∑ i, b i * q i ∧ (∀ i : Fin n, (e.jet q).slope i = b i) ∧
        ∀ i j : Fin n, (e.jet q).bend i j = 0) := by
  have htracks := Tracks.expression hadm hdef
  refine ⟨htracks.value p, htracks.slope, ?_, ?_, ?_⟩
  · intro hs i j
    exact ⟨fun q => (e.jet q).slope i, htracks.slopes.mono fun q hq => hq i, htracks.bends hs i j⟩
  · intro secondOrder
    have h := forgetBends_reseed secondOrder e p
    refine ⟨?_, ?_, ?_⟩
    · rw [← value_forgetBends, h, value_forgetBends]
    · rw [← gradient_forgetBends, h, gradient_forgetBends]
    · rw [← isAffine_forgetBends, h, isAffine_forgetBends]
  -- The flag holds for a reason that does not depend on the point.
  · intro haffine
    obtain ⟨a, b, hab⟩ := (Flagged.expression hadm).affine p haffine
    refine ⟨a, b, fun q => ?_⟩
    obtain ⟨hvalue, hslope, hflat⟩ := hab q
    exact ⟨(htracks.value q).symm.trans hvalue, hslope, fun i j => bend_of_flat hflat i j⟩

/-- `ln x₀ / (x₁ + t) - 3 x₀⁻²` with a trainable `t`. -/
def sampleExpression : Expression (Leaf 2) :=
  .binary .sub
    (.binary .div (.unary .ln (.leaf (.input 0 true)))
      (.binary .add (.leaf (.input 1 true)) (.leaf (.trainable 2))))
    (.binary .mul (.leaf (.constant 3)) (.power (.leaf (.input 0 true)) (-2)))

/-- The first and second partial derivatives of the sample at `(1, 1)`. -/
theorem jet_correct_sample :
    sampleExpression.Admissible ∧ sampleExpression.DefinedAt ![1, 1] ∧
      (sampleExpression.jet ![1, 1]).hasSecondOrder ∧
      (∀ i : Fin 2, HasPartialAt sampleExpression.denote i
        ((sampleExpression.jet ![1, 1]).slope i) ![1, 1]) ∧
      ∀ i j : Fin 2, ∃ g : (Fin 2 → ℝ) → ℝ,
        (∀ᶠ q in 𝓝 ![1, 1], HasPartialAt sampleExpression.denote i (g q) q) ∧
          HasPartialAt g j ((sampleExpression.jet ![1, 1]).bend i j) ![1, 1] := by
  have hadm : sampleExpression.Admissible := by
    simp [sampleExpression, Expression.Admissible]
  have hdef : sampleExpression.DefinedAt ![1, 1] := by
    simp [sampleExpression, Expression.DefinedAt, Expression.denote, Leaf.denote,
      UnaryFunction.Smooth, BinaryFunction.denote]
    norm_num
  have hs : (sampleExpression.jet ![1, 1]).hasSecondOrder := rfl
  have hcorrect := jet_correct sampleExpression hadm ![1, 1] hdef
  exact ⟨hadm, hdef, hs, hcorrect.2.1, hcorrect.2.2.1 hs⟩

end Proofs

end CircuitGrad
