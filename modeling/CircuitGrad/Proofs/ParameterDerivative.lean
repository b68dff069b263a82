import CircuitGrad.Proofs.ExactTrace
import CircuitGrad.Proofs.PartialDerivative

/-! # Derivatives in the parameters

    The shift operator of a rule and a parameter takes a function of all
    parameter values to the weighted sum of its shifted values.  It is the
    partial derivative of every function for which the rule is exact, and a
    rule that is exact for a function stays so when the function is shifted in
    any parameter (`shiftExact_shiftAt`).  So shift operators in a row are
    partial derivatives in a row.
-/

namespace CircuitGrad

/-- The weighted sum of the values of `f` that are shifted in one parameter. -/
noncomputable def shiftAt (rule : ShiftRule ℝ) (i : ℕ) (f : (ℕ → ℝ) → ℝ) (v : ℕ → ℝ) : ℝ :=
  rule.apply (v i) fun x => f (Function.update v i x)

/-- The function `f'` is the partial derivative of `f` in parameter `i`. -/
def IsPartial (f : (ℕ → ℝ) → ℝ) (i : ℕ) (f' : (ℕ → ℝ) → ℝ) : Prop :=
  ∀ v, HasPartialAt f i (f' v) v

/-- The function `g` is what is left of `f` after partial derivatives in each
    of the parameters. -/
def IsIteratedPartial : ((ℕ → ℝ) → ℝ) → List ℕ → ((ℕ → ℝ) → ℝ) → Prop
  | f, [], g => g = f
  | f, i :: is, g => ∃ f', IsPartial f i f' ∧ IsIteratedPartial f' is g

/-- The rule gives the derivative of `f` in parameter `i`. -/
def ShiftExact (rule : ShiftRule ℝ) (i : ℕ) (f : (ℕ → ℝ) → ℝ) : Prop :=
  IsPartial f i (shiftAt rule i f)

namespace Proofs

/-! ## Shift operators -/

theorem rule_apply_eq (rule : ShiftRule ℝ) (x : ℝ) (f : ℝ → ℝ) :
    rule.apply x f = (rule.terms.map fun t => t.coefficient * f (t.point x)).sum := by
  unfold ShiftRule.apply
  rw [sum_eq_sum]

/-- Only the values at the points of the rule matter. -/
theorem rule_apply_congr {rule : ShiftRule ℝ} {x : ℝ} {f g : ℝ → ℝ}
    (h : ∀ t ∈ rule.terms, f (t.point x) = g (t.point x)) : rule.apply x f = rule.apply x g := by
  rw [rule_apply_eq, rule_apply_eq]
  refine congrArg List.sum (List.map_congr_left fun t ht => ?_)
  rw [h t ht]

/-- Weighted sums of differentiable functions. -/
theorem hasDerivAt_weighted {ι : Type} (items : List ι) (c : ι → ℝ) {f : ι → ℝ → ℝ} {f' : ι → ℝ}
    {x : ℝ} (h : ∀ e ∈ items, HasDerivAt (f e) (f' e) x) :
    HasDerivAt (fun s => (items.map fun e => c e * f e s).sum)
      ((items.map fun e => c e * f' e).sum) x := by
  induction items with
  | nil => exact hasDerivAt_const x 0
  | cons e items ih =>
    obtain ⟨he, hrest⟩ := List.forall_mem_cons.mp h
    simp only [List.map_cons, List.sum_cons]
    exact (he.const_mul (c e)).add (ih hrest)

/-- Sums over two lists may be exchanged. -/
theorem sum_map_comm {ι κ : Type} (xs : List ι) (ys : List κ) (f : ι → κ → ℝ) :
    (xs.map fun a => (ys.map fun b => f a b).sum).sum =
      (ys.map fun b => (xs.map fun a => f a b).sum).sum := by
  induction xs with
  | nil => simp
  | cons a xs ih =>
    simp only [List.map_cons, List.sum_cons, List.sum_map_add, ih]

/-- The rule shifts without scaling. -/
def Unscaled (rule : ShiftRule ℝ) : Prop := ∀ t ∈ rule.terms, t.multiplier = 1

/-- Shifts in two parameters. -/
theorem shiftAt_comm_of_ne (rule rule' : ShiftRule ℝ) {i j : ℕ} (hij : i ≠ j)
    (f : (ℕ → ℝ) → ℝ) :
    shiftAt rule i (shiftAt rule' j f) = shiftAt rule' j (shiftAt rule i f) := by
  funext v
  have hji : j ≠ i := Ne.symm hij
  unfold shiftAt
  simp only [rule_apply_eq, Function.update_of_ne hij, Function.update_of_ne hji,
    ← List.sum_map_mul_left]
  rw [sum_map_comm]
  refine congrArg List.sum (List.map_congr_left fun b _ => ?_)
  refine congrArg List.sum (List.map_congr_left fun a _ => ?_)
  rw [Function.update_comm hij, mul_left_comm]

/-- Shifts in one parameter and then in another, or in the same. -/
theorem shiftAt_comm {rule rule' : ShiftRule ℝ} (h : Unscaled rule) (h' : Unscaled rule')
    (i j : ℕ) (f : (ℕ → ℝ) → ℝ) :
    shiftAt rule i (shiftAt rule' j f) = shiftAt rule' j (shiftAt rule i f) := by
  by_cases hij : i = j
  · subst hij
    funext v
    unfold shiftAt
    simp only [rule_apply_eq, Function.update_self, Function.update_idem, ← List.sum_map_mul_left]
    rw [sum_map_comm]
    refine congrArg List.sum (List.map_congr_left fun b hb => ?_)
    refine congrArg List.sum (List.map_congr_left fun a ha => ?_)
    -- In one parameter the shifts add up, in either order.
    have hpoint : b.point (a.point (v i)) = a.point (b.point (v i)) := by
      unfold ShiftTerm.point
      rw [h a ha, h' b hb]
      ring
    rw [hpoint, mul_left_comm]
  · exact shiftAt_comm_of_ne rule rule' hij f

/-- A rule stays exact when the function is shifted in any parameter. -/
theorem shiftExact_shiftAt {rule rule' : ShiftRule ℝ} (h : Unscaled rule) (h' : Unscaled rule')
    {i j : ℕ} {f : (ℕ → ℝ) → ℝ} (hf : ShiftExact rule i f) :
    ShiftExact rule i (shiftAt rule' j f) := by
  intro v
  rw [shiftAt_comm h h']
  unfold shiftAt
  simp only [rule_apply_eq rule']
  refine hasDerivAt_weighted _ _ fun t ht => ?_
  have hshifted := hf (Function.update v j (t.point (v j)))
  unfold HasPartialAt shiftAt at hshifted
  by_cases hij : i = j
  · -- Shifts in the parameter itself move the point of the derivative.
    subst hij
    have hpoint : ∀ s, t.point s = s + t.shift := by
      intro s
      unfold ShiftTerm.point
      rw [h' t ht, one_mul]
    simp only [Function.update_self, Function.update_idem, hpoint] at hshifted ⊢
    exact hshifted.comp_add_const (v i) t.shift
  · have hji : j ≠ i := Ne.symm hij
    simp only [Function.update_of_ne hij, Function.update_of_ne hji] at hshifted ⊢
    simp only [Function.update_comm hij]
    exact hshifted

/-- Shift operators of exact rules, one after the other, are partial
    derivatives, one after the other. -/
theorem isIteratedPartial_shifts {rules : List (ℕ × ShiftRule ℝ)}
    (hscale : ∀ e ∈ rules, Unscaled e.2) {f : (ℕ → ℝ) → ℝ}
    (hf : ∀ e ∈ rules, ShiftExact e.2 e.1 f) :
    IsIteratedPartial f (rules.map (·.1)) (rules.foldl (fun g e => shiftAt e.2 e.1 g) f) := by
  induction rules generalizing f with
  | nil => exact rfl
  | cons e rules ih =>
    obtain ⟨he, hrest⟩ := List.forall_mem_cons.mp hf
    obtain ⟨hscaleFirst, hscaleRest⟩ := List.forall_mem_cons.mp hscale
    -- The other rules stay exact for what the first one leaves.
    refine ⟨shiftAt e.2 e.1 f, he, ih hscaleRest fun e' he' => ?_⟩
    exact shiftExact_shiftAt (hscaleRest e' he') hscaleFirst (hrest e' he')

/-! ## Outputs as functions of the parameters -/

/-- The wave that the operations of a trace prepare at some parameter values. -/
noncomputable def waveAt (t : Trace ℝ) (v : ℕ → ℝ) : Wave t.register :=
  Classical.epsilon fun ψ => Simulation.finalState (t.assign v) = .ok (ofWave ψ)

/-- An entry of the result at some parameter values. -/
noncomputable def output (t : Trace ℝ) (o : ℕ) (v : ℕ → ℝ) : ℝ :=
  reading t.measurements o (waveAt t v)

/-- The trace with means in the place of variances. -/
def meansOf {α : Type} (t : Trace α) : Trace α :=
  { t with measurements := t.measurements.map meanOf }

section Outputs

variable {t : Trace ℝ} {i : ℕ} {rule : ShiftRule ℝ}

theorem exact_assign (ht : t.Exact) (v : ℕ → ℝ) : (t.assign v).Exact :=
  ⟨valid_assign ht.valid v, forall_mem_assignAll (fun _ v h => standard_assign h v) ht.standard v,
    ht.measurements, ht.analytic, ht.nonempty, ht.fits⟩

theorem valid_meansOf {t : Trace ℝ} (ht : t.Valid) : (meansOf t).Valid := by
  refine ⟨?_, ht.operations, ?_⟩
  · intro hnil
    exact ht.measured (List.map_eq_nil_iff.mp hnil)
  · intro m hm
    obtain ⟨m', hm', rfl⟩ := List.mem_map.mp hm
    rw [wires_meanOf]
    exact ht.measurements m' hm'

theorem exact_meansOf (ht : t.Exact) : (meansOf t).Exact := by
  refine ⟨valid_meansOf ht.valid, ht.standard, ?_, ht.analytic, ht.nonempty, ht.fits⟩
  intro m hm
  obtain ⟨m', hm', rfl⟩ := List.mem_map.mp hm
  exact differentiable_meanOf (ht.measurements m' hm')

/-- The operations at some parameter values, as a linear map. -/
theorem acts_assign (ht : t.Exact) (v : ℕ → ℝ) : ∃ A : Wave t.register →ₗ[ℂ] Wave t.register,
    Acts (Operation.assignAll t.operations v) A :=
  Acts.exists_of_standard (exact_assign ht v).standard (exact_assign ht v).valid.operations

theorem finalState_eq_applyAll (ht : t.Exact) (v : ℕ → ℝ) : Simulation.finalState (t.assign v) =
    (ofWave (firstWave t.register)).applyAll (Operation.assignAll t.operations v) := by
  unfold Simulation.finalState
  rw [show (t.assign v).register = t.register from rfl, zero_eq_ok ht.nonempty ht.fits]
  rfl

theorem finalState_assign (ht : t.Exact) (v : ℕ → ℝ) :
    Simulation.finalState (t.assign v) = .ok (ofWave (waveAt t v)) := by
  obtain ⟨A, hA⟩ := acts_assign ht v
  have hsome : ∃ ψ : Wave t.register, Simulation.finalState (t.assign v) = .ok (ofWave ψ) :=
    ⟨A (firstWave t.register), (finalState_eq_applyAll ht v).trans (hA _)⟩
  exact Classical.epsilon_spec hsome

theorem waveAt_eq_of_applyAll (ht : t.Exact) {v : ℕ → ℝ} {ψ : Wave t.register}
    (h : (ofWave (firstWave t.register)).applyAll (Operation.assignAll t.operations v) =
      .ok (ofWave ψ)) : waveAt t v = ψ := by
  rw [← finalState_eq_applyAll ht, finalState_assign ht] at h
  exact ofWave_injective (Except.ok.inj h)

theorem weight_waveAt (ht : t.Exact) (v : ℕ → ℝ) :
    weight (waveAt t v) = weight (firstWave t.register) := by
  obtain ⟨A, hA⟩ := acts_assign ht v
  rw [waveAt_eq_of_applyAll ht (hA _)]
  exact weight_of_acts (exact_assign ht v).standard (exact_assign ht v).valid.operations hA _

/-- The wave turns with every parameter by the rule of the parameter. -/
theorem turns_waveAt (ht : t.Exact) (hrule : RuleAt t i rule) (v : ℕ → ℝ) :
    Turns rule fun s => waveAt t (Function.update v i s) := by
  obtain ⟨o, p, op, hlocation, hop, hshift⟩ := hrule
  obtain ⟨χ, hχ, hrun⟩ := exists_turning ht.standard ht.valid.operations hlocation hop hshift v
    (firstWave t.register)
  rw [show (fun s => waveAt t (Function.update v i s)) = χ from
    funext fun s => waveAt_eq_of_applyAll ht (hrun s)]
  exact hχ

/-- Parameters of standard gates have one of two rules. -/
theorem rule_of_ruleAt (hops : ∀ op ∈ t.operations, op.Standard)
    (hwires : ∀ op ∈ t.operations, ∀ w ∈ op.wires, w < t.register) (hrule : RuleAt t i rule) :
    rule = .twoTerm (1 / 2) ∨ rule = .fourTerm := by
  obtain ⟨o, p, op, hlocation, hop, hshift⟩ := hrule
  -- A wave turns by these two rules only.
  obtain ⟨_, ⟨a, b, c, hcases, -⟩, -⟩ := exists_turning hops hwires hlocation hop hshift
    (fun _ => 0) (firstWave t.register)
  exact hcases.imp_left And.left

theorem unscaled_of_ruleAt (ht : t.Exact) (hrule : RuleAt t i rule) : Unscaled rule := by
  rcases rule_of_ruleAt ht.standard ht.valid.operations hrule with rfl | rfl
  · simp [Unscaled, ShiftRule.twoTerm, ShiftRule.antisymmetric]
  · simp [Unscaled, ShiftRule.fourTerm]

theorem terms_ne_nil_of_ruleAt (hops : ∀ op ∈ t.operations, op.Standard)
    (hwires : ∀ op ∈ t.operations, ∀ w ∈ op.wires, w < t.register) (hrule : RuleAt t i rule) :
    rule.terms ≠ [] := by
  rcases rule_of_ruleAt hops hwires hrule with rfl | rfl
  · exact List.cons_ne_nil _ _
  · exact List.cons_ne_nil _ _

/-- The rule of a parameter is exact for quadratic quantities of the wave. -/
theorem shiftExact_form (ht : t.Exact) (hrule : RuleAt t i rule)
    (L : Wave t.register →ₗ[ℂ] Wave t.register) :
    ShiftExact rule i fun v => form L (waveAt t v) := by
  intro v
  exact (turns_waveAt ht hrule v).hasDerivAt_form L (v i)

/-- The rule of a parameter is exact for means and probabilities. -/
theorem shiftExact_output (ht : t.Exact) (hrule : RuleAt t i rule) {o : ℕ}
    (ho : isVariance t.register t.measurements o = false) : ShiftExact rule i (output t o) := by
  obtain ⟨L, -, hplain, -⟩ := reading_cases (n := t.register) ht.measurements o
  rw [show output t o = fun v => form L (waveAt t v) from funext fun v => hplain ho (waveAt t v)]
  exact shiftExact_form ht hrule L

/-- A variance is differentiated through the mean. -/
theorem isPartial_variance (ht : t.Exact) (hrule : RuleAt t i rule) {o : ℕ}
    (ho : isVariance t.register t.measurements o = true) : IsPartial (output t o) i fun v =>
      shiftAt rule i (output (meansOf t) o) v * output (meansOf t) o v * (-2) := by
  obtain ⟨L, hmean, -, hvariance⟩ := reading_cases (n := t.register) ht.measurements o
  have hmeans : output (meansOf t) o = fun v => form L (waveAt t v) :=
    funext fun v => hmean (waveAt t v)
  have houtput : output t o = fun v =>
      weight (firstWave t.register) - form L (waveAt t v) * form L (waveAt t v) := by
    funext v
    rw [← weight_waveAt ht v]
    exact hvariance ho (waveAt t v)
  intro v
  have hform := shiftExact_form ht hrule L v
  rw [houtput, hmeans]
  -- The length of the wave is constant, so the square of the mean is what changes.
  refine ((hform.mul hform).const_sub (weight (firstWave t.register))).congr_deriv ?_
  ring

end Outputs

end Proofs

end CircuitGrad
