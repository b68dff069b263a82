import Mathlib
import CircuitGrad.Proofs.ParameterDerivative

/-! # Outputs as smooth functions of the parameters

    An exact output of a trace depends smoothly on all parameter values
    together (`smooth_output`): along every smooth family of values it is a
    smooth function.  Its partial derivatives are smooth again
    (`Smooth.of_isPartial`), and along a curve that moves finitely many
    parameters it is differentiated by the chain rule
    (`Smooth.hasDerivAt_along`).
-/

open scoped ContDiff

namespace CircuitGrad

/-- Along every smooth family of parameter values the function is smooth. -/
def Smooth (f : (ℕ → ℝ) → ℝ) : Prop :=
  ∀ {E : Type} [NormedAddCommGroup E] [NormedSpace ℝ E] (γ : E → ℕ → ℝ),
    (∀ i, ContDiff ℝ ∞ fun e => γ e i) → ContDiff ℝ ∞ fun e => f (γ e)

namespace Smooth

variable {f f' : (ℕ → ℝ) → ℝ}

/-- A partial derivative of a smooth function is smooth. -/
theorem of_isPartial {i : ℕ} (hf : Smooth f) (h : IsPartial f i f') : Smooth f' := by
  intro E _ _ γ hγ
  -- One more direction moves the parameter; the partial derivative is taken in it.
  let F : E × ℝ → ℝ := fun p => f (Function.update (γ p.1) i p.2)
  have hF : ContDiff ℝ ∞ F := by
    refine hf (fun p : E × ℝ => Function.update (γ p.1) i p.2) fun j => ?_
    by_cases hj : j = i
    · subst hj
      simpa using contDiff_snd
    · simpa [Function.update_of_ne hj] using (hγ j).fun_comp contDiff_fst
  have hpoint : ContDiff ℝ ∞ fun e => (e, γ e i) := contDiff_id.prodMk (hγ i)
  have hvalue : ∀ e, f' (γ e) = fderiv ℝ F (e, γ e i) (0, 1) := by
    intro e
    have hline : HasDerivAt (fun s : ℝ => (e, s)) (0, 1) (γ e i) :=
      (hasDerivAt_const _ e).prodMk (hasDerivAt_id _)
    have hpartial : HasFDerivAt F (fderiv ℝ F (e, γ e i)) (e, γ e i) :=
      (hF.differentiable (by simp)).differentiableAt.hasFDerivAt
    exact (h (γ e)).unique (hpartial.comp_hasDerivAt (γ e i) hline)
  have hsmooth : ContDiff ℝ ∞ fun e => fderiv ℝ F (e, γ e i) :=
    (hF.fderiv_right (m := ∞) (by simp)).comp hpoint
  simpa only [hvalue] using hsmooth.clm_apply contDiff_const

section Moving

variable {m : ℕ} {index : Fin m → ℕ} (hindex : Function.Injective index)

include hindex

theorem extend_update (w : Fin m → ℝ) (base : ℕ → ℝ) (k : Fin m) (x : ℝ) :
    Function.extend index (Function.update w k x) base =
      Function.update (Function.extend index w base) (index k) x := by
  funext i
  by_cases hi : ∃ l, index l = i
  · obtain ⟨l, rfl⟩ := hi
    rw [hindex.extend_apply]
    by_cases hl : l = k
    · subst hl
      simp
    · rw [Function.update_of_ne hl, Function.update_of_ne (hindex.ne hl), hindex.extend_apply]
  · have hne : i ≠ index k := fun h => hi ⟨k, h.symm⟩
    rw [Function.update_of_ne hne, Function.extend_apply' _ _ _ hi,
      Function.extend_apply' _ _ _ hi]

/-- A smooth function is smooth in finitely many parameters. -/
theorem contDiff_extend (hf : Smooth f) (base : ℕ → ℝ) :
    ContDiff ℝ ∞ fun w => f (Function.extend index w base) := by
  refine hf (fun w => Function.extend index w base) fun i => ?_
  by_cases hi : ∃ k, index k = i
  · obtain ⟨k, rfl⟩ := hi
    simpa only [hindex.extend_apply] using contDiff_apply ℝ ℝ k
  · simpa only [Function.extend_apply' _ _ _ hi] using contDiff_const

/-- On each unit vector the total derivative is a partial one. -/
theorem fderiv_extend_single (hf : Smooth f) (base : ℕ → ℝ) (w : Fin m → ℝ) {k : Fin m} {x : ℝ}
    (hpart : HasPartialAt f (index k) x (Function.extend index w base)) :
    fderiv ℝ (fun w => f (Function.extend index w base)) w (Pi.single k 1) = x := by
  have hF : HasFDerivAt (fun w => f (Function.extend index w base))
      (fderiv ℝ (fun w => f (Function.extend index w base)) w) w :=
    ((hf.contDiff_extend hindex base).differentiable (by simp)).differentiableAt.hasFDerivAt
  rw [← Function.update_eq_self k w] at hF
  have hline := hF.comp_hasDerivAt _ (hasDerivAt_update w k (w k))
  simp only [Function.update_eq_self] at hline
  refine hline.unique ?_
  simp only [Function.comp_def, extend_update hindex]
  have hpoint : Function.extend index w base (index k) = w k := hindex.extend_apply _ _ k
  rw [← hpoint]
  exact hpart

/-- Along a curve that moves only the parameters `index k`, the derivative is the sum
    of the partial derivatives, each times the speed of its parameter. -/
theorem hasDerivAt_along (hf : Smooth f) {P : ℝ → ℕ → ℝ} {s : ℝ}
    (hfixed : ∀ i ∉ Set.range index, ∀ x, P x i = P s i) {speed part : Fin m → ℝ}
    (hspeed : ∀ k, HasDerivAt (fun x => P x (index k)) (speed k) s)
    (hpart : ∀ k, HasPartialAt f (index k) (part k) (P s)) :
    HasDerivAt (fun x => f (P x)) (∑ k, part k * speed k) s := by
  -- The curve is that of the moving parameters.
  have hmoving : ∀ x, Function.extend index (fun k => P x (index k)) (P s) = P x := by
    intro x
    funext i
    by_cases hi : ∃ k, index k = i
    · obtain ⟨k, rfl⟩ := hi
      exact hindex.extend_apply _ _ k
    · exact (Function.extend_apply' _ _ _ hi).trans (hfixed i hi x).symm
  have hF := ((hf.contDiff_extend hindex (P s)).differentiable
    (by simp)).differentiableAt.hasFDerivAt (x := fun k => P s (index k))
  have hcurve := hF.comp_hasDerivAt s (hasDerivAt_pi.mpr hspeed)
  have hunit : ∀ k, fderiv ℝ (fun w => f (Function.extend index w (P s)))
      (fun k => P s (index k)) (Pi.single k 1) = part k := fun k =>
    hf.fderiv_extend_single hindex (P s) _ (by rw [hmoving]; exact hpart k)
  have hvalue : fderiv ℝ (fun w => f (Function.extend index w (P s)))
      (fun k => P s (index k)) speed = ∑ k, part k * speed k := by
    conv_lhs => rw [pi_eq_sum_univ' speed]
    simp only [map_sum, map_smul, hunit, smul_eq_mul, mul_comm]
  rw [hvalue] at hcurve
  simpa only [Function.comp_def, hmoving] using hcurve

end Moving

end Smooth

namespace Proofs

variable {n : ℕ} {E : Type} [NormedAddCommGroup E] [NormedSpace ℝ E]

/-! ## Gates with smooth parameters -/

theorem contDiff_rows {a b c d : E → ℂ} (ha : ContDiff ℝ ∞ a) (hb : ContDiff ℝ ∞ b)
    (hc : ContDiff ℝ ∞ c) (hd : ContDiff ℝ ∞ d) (i j : Bool) :
    ContDiff ℝ ∞ fun e => rows (a e) (b e) (c e) (d e) i j := by
  cases i <;> cases j
  exacts [ha, hb, hc, hd]

theorem contDiff_ofReal {f : E → ℝ} (hf : ContDiff ℝ ∞ f) : ContDiff ℝ ∞ fun e => (f e : ℂ) :=
  Complex.ofRealCLM.contDiff.comp hf

theorem contDiff_phase {f : E → ℝ} (hf : ContDiff ℝ ∞ f) : ContDiff ℝ ∞ fun e => phase (f e) :=
  ((contDiff_ofReal hf).mul contDiff_const).cexp

theorem target_of_no_params {g : StandardGate} (h : g.paramCount = 0) (values : List ℝ) :
    g.target values = g.target [] := by
  cases g <;> first | rfl | cases h

section Angles

variable {f : E → ℝ}

theorem contDiff_cosHalf (hf : ContDiff ℝ ∞ f) :
    ContDiff ℝ ∞ fun e => (Real.cos (f e / 2) : ℂ) :=
  contDiff_ofReal (hf.div_const 2).cos

theorem contDiff_sinHalf (hf : ContDiff ℝ ∞ f) :
    ContDiff ℝ ∞ fun e => (Real.sin (f e / 2) : ℂ) :=
  contDiff_ofReal (hf.div_const 2).sin

theorem contDiff_rx (hf : ContDiff ℝ ∞ f) (i j : Bool) :
    ContDiff ℝ ∞ fun e => toBlock (Gate.Matrix.rx (f e)) i j := by
  simp only [toBlock_rx]
  exact contDiff_rows (contDiff_cosHalf hf) ((contDiff_sinHalf hf).mul contDiff_const).neg
    ((contDiff_sinHalf hf).mul contDiff_const).neg (contDiff_cosHalf hf) i j

theorem contDiff_ry (hf : ContDiff ℝ ∞ f) (i j : Bool) :
    ContDiff ℝ ∞ fun e => toBlock (Gate.Matrix.ry (f e)) i j := by
  simp only [toBlock_ry]
  exact contDiff_rows (contDiff_cosHalf hf) (contDiff_sinHalf hf).neg (contDiff_sinHalf hf)
    (contDiff_cosHalf hf) i j

theorem contDiff_rz (hf : ContDiff ℝ ∞ f) (i j : Bool) :
    ContDiff ℝ ∞ fun e => toBlock (Gate.Matrix.rz (f e)) i j := by
  simp only [toBlock_rz]
  exact contDiff_rows (contDiff_phase (hf.div_const 2).neg) contDiff_const contDiff_const
    (contDiff_phase (hf.div_const 2)) i j

theorem contDiff_phaseShift (hf : ContDiff ℝ ∞ f) (i j : Bool) :
    ContDiff ℝ ∞ fun e => toBlock (Gate.Matrix.phaseShift (f e)) i j := by
  simp only [toBlock_phaseShift]
  exact contDiff_rows contDiff_const contDiff_const contDiff_const (contDiff_phase hf) i j

theorem contDiff_rot (hf : ContDiff ℝ ∞ f) {g h : E → ℝ} (hg : ContDiff ℝ ∞ g)
    (hh : ContDiff ℝ ∞ h) (i j : Bool) :
    ContDiff ℝ ∞ fun e => toBlock (Gate.Matrix.rot (f e) (g e) (h e)) i j := by
  simp only [toBlock_rot]
  exact contDiff_rows
    ((contDiff_cosHalf hg).mul (contDiff_phase ((hf.add hh).neg.div_const 2)))
    ((contDiff_sinHalf hg).mul (contDiff_phase ((hf.sub hh).div_const 2))).neg
    ((contDiff_sinHalf hg).mul (contDiff_phase ((hf.sub hh).neg.div_const 2)))
    ((contDiff_cosHalf hg).mul (contDiff_phase ((hf.add hh).div_const 2))) i j

end Angles

/-- The matrix of a gate depends smoothly on its parameters. -/
theorem contDiff_target (g : StandardGate) {values : E → List ℝ}
    (h : ∀ i, ContDiff ℝ ∞ fun e => (values e).getD i 0) (i j : Bool) :
    ContDiff ℝ ∞ fun e => toBlock (g.target (values e)) i j := by
  by_cases hparams : g.paramCount = 0
  · have hblock : ∀ e, toBlock (g.target (values e)) i j = toBlock (g.target []) i j := by
      intro e
      rw [target_of_no_params hparams]
    simpa only [hblock] using contDiff_const
  cases g with
  | rx | crx => exact contDiff_rx (h 0) i j
  | ry | cry => exact contDiff_ry (h 0) i j
  | rz | crz => exact contDiff_rz (h 0) i j
  | phaseShift => exact contDiff_phaseShift (h 0) i j
  | rot => exact contDiff_rot (h 0) (h 1) (h 2) i j
  | _ => exact absurd rfl hparams

theorem contDiff_onWire {w : Fin n} {U : E → Bits n → Block} {ψ : E → Wave n}
    (hU : ∀ x i j, ContDiff ℝ ∞ fun e => U e x i j) (hψ : ContDiff ℝ ∞ ψ) :
    ContDiff ℝ ∞ fun e => onWire w (U e) (ψ e) := by
  have hcoordinate : ∀ x, ContDiff ℝ ∞ fun e => ψ e x := contDiff_pi.mp hψ
  refine contDiff_pi.mpr fun x => ?_
  simp only [onWire_apply]
  exact ((hU x _ _).mul (hcoordinate _)).add ((hU x _ _).mul (hcoordinate _))

/-- What a gate does to a smooth family of waves is a smooth family. -/
theorem contDiff_action (g : StandardGate) (ws : List (Fin n)) {values : E → List ℝ}
    (h : ∀ i, ContDiff ℝ ∞ fun e => (values e).getD i 0) {ψ : E → Wave n}
    (hψ : ContDiff ℝ ∞ ψ) : ContDiff ℝ ∞ fun e => g.action (values e) ws (ψ e) := by
  match ws with
  | [] => exact hψ
  | [w] => exact contDiff_onWire (fun _ => contDiff_target g h) hψ
  | [v, w] =>
    by_cases hswap : g = .swap
    · subst hswap
      exact contDiff_pi.mpr fun x => contDiff_pi.mp hψ _
    · simp only [action_two hswap]
      refine contDiff_onWire (fun x i j => ?_) hψ
      unfold controlled
      by_cases hx : x v
      · simpa only [if_pos hx] using contDiff_target g h i j
      · simpa only [if_neg hx] using contDiff_const
  | _ :: _ :: _ :: _ => exact hψ

/-- Operations with smooth parameters take a smooth family of waves to a smooth
    family. -/
theorem exists_contDiff_wave {ops : List (Operation ℝ)} (hops : ∀ op ∈ ops, op.Standard)
    (hwires : ∀ op ∈ ops, ∀ w ∈ op.wires, w < n) {γ : E → ℕ → ℝ}
    (hγ : ∀ i, ContDiff ℝ ∞ fun e => γ e i) {ψ : E → Wave n} (hψ : ContDiff ℝ ∞ ψ) :
    ∃ χ : E → Wave n, ContDiff ℝ ∞ χ ∧ ∀ e,
      (ofWave (ψ e)).applyAll (Operation.assignAll ops (γ e)) = .ok (ofWave (χ e)) := by
  induction ops generalizing γ ψ with
  | nil => exact ⟨ψ, hψ, fun _ => rfl⟩
  | cons op rest ih =>
    obtain ⟨hop, hrest⟩ := List.forall_mem_cons.mp hops
    obtain ⟨hown, hothers⟩ := List.forall_mem_cons.mp hwires
    obtain ⟨g, ws, hplaces⟩ := places_of_standard hop hown
    have hvalues : ∀ i, ContDiff ℝ ∞ fun e => (op.assign (γ e)).values.getD i 0 := by
      intro i
      unfold Operation.values
      simp only [List.getD_eq_getElem?_getD, List.getElem?_map, assign_params_getElem?]
      cases op.params[i]? with
      | none => exact contDiff_const
      | some p => exact hγ i
    have hshifted : ∀ i, ContDiff ℝ ∞ fun e => γ e (i + op.params.length) := fun i => hγ _
    obtain ⟨χ, hχ, hrun⟩ := ih hrest hothers hshifted (contDiff_action g ws hvalues hψ)
    refine ⟨χ, hχ, fun e => ?_⟩
    have hfirst := (hplaces.assign (γ e)).applyOperation_eq (ψ e)
    unfold StateVector.applyAll at hrun ⊢
    rw [Operation.assignAll, List.foldlM_cons, hfirst]
    exact hrun e

/-! ## Outputs -/

theorem contDiff_form (L : Wave n →ₗ[ℂ] Wave n) {ψ : E → Wave n} (hψ : ContDiff ℝ ∞ ψ) :
    ContDiff ℝ ∞ fun e => form L (ψ e) := by
  have hcoordinate : ∀ x, ContDiff ℝ ∞ fun e => ψ e x := contDiff_pi.mp hψ
  have himage : ContDiff ℝ ∞ fun e => L (ψ e) :=
    (LinearMap.toContinuousLinearMap (L.restrictScalars ℝ)).contDiff.comp hψ
  unfold form braket
  refine Complex.reCLM.contDiff.comp (ContDiff.sum fun x _ => ?_)
  exact (Complex.conjCLE.contDiff.comp (hcoordinate x)).mul (contDiff_pi.mp himage x)

/-- The output of an exact trace is a smooth function of all parameter values. -/
theorem smooth_output {t : Trace ℝ} (ht : t.Exact) (o : ℕ) : Smooth (output t o) := by
  intro E _ _ γ hγ
  obtain ⟨χ, hχ, hrun⟩ := exists_contDiff_wave ht.standard ht.valid.operations hγ
    (contDiff_const (c := firstWave t.register))
  have hwave : ∀ e, waveAt t (γ e) = χ e := fun e => waveAt_eq_of_applyAll ht (hrun e)
  obtain ⟨L, -, hplain, hvariance⟩ := reading_cases (n := t.register) ht.measurements o
  have hform : ContDiff ℝ ∞ fun e => form L (waveAt t (γ e)) := by
    simp only [hwave]
    exact contDiff_form L hχ
  unfold output
  by_cases ho : isVariance t.register t.measurements o = true
  · simp only [hvariance ho, weight_waveAt ht]
    exact contDiff_const.sub (hform.mul hform)
  · simp only [hplain (by simpa using ho)]
    exact hform

end Proofs

end CircuitGrad
