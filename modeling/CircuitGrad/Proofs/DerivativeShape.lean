import CircuitGrad.Proofs.FirstOrderShape

/-! # Shapes of derivatives

    A derivative of order `k` is to have the shape of the output followed by
    `k` dimensions.  The plans of first derivatives that it nests fold results
    which carry the dimensions of the inner plans already, so a shift rule
    without terms, whose column has the shape of the output, fits at the first
    order only.  A derivative of a higher order has its shape exactly when all
    plans but the innermost are made from rules that have terms
    (`derivative_shape_iff`).
-/

namespace CircuitGrad

variable {α : Type}

/-- All shift rules have terms where first derivatives are taken, but for the last of
    `more` further times. -/
def Differentiator.NestsTerms [Scalar α] (d : Differentiator α) : ℕ → Trace α → Prop
  | 0, _ => True
  | more + 1, t => d.method.HasTerms t ∧
      ∀ p, d.firstOrder t = .ok p → ∀ u ∈ p.traces, d.NestsTerms more u

namespace Proofs

/-! ## Stretches of results -/

section Stretches

variable {R : Trace α → Tensor α → Prop} {shape : List ℕ} {inner : List (Plan α)}
  {results rs : List (Tensor α)}

/-- Results that belong to the traces of several plans, in stretches. -/
theorem forall₂_stretch {p : Plan α}
    (h : List.Forall₂ R ((p :: inner).flatMap (·.traces)) results) :
    List.Forall₂ R p.traces (results.take p.size) ∧
      List.Forall₂ R (inner.flatMap (·.traces)) (results.drop p.size) := by
  rw [List.flatMap_cons] at h
  have hown := List.forall₂_take p.size h
  have hrest := List.forall₂_drop p.size h
  unfold Plan.size at hown hrest ⊢
  rw [List.take_left] at hown
  rw [List.drop_left] at hrest
  exact ⟨hown, hrest⟩

theorem foldEach_shapes (hresults : List.Forall₂ R (inner.flatMap (·.traces)) results)
    (h : ∀ q ∈ inner, ∀ own, List.Forall₂ R q.traces own →
      ∃ T, q.combine own = .ok T ∧ T.shape = shape) :
    ∃ rs, Plan.foldEach inner results = .ok rs ∧ ∀ r ∈ rs, r.shape = shape := by
  induction inner generalizing results with
  | nil => exact ⟨[], rfl, by simp⟩
  | cons q inner ih =>
    obtain ⟨hown, hrest⟩ := forall₂_stretch hresults
    obtain ⟨hfirst, hothers⟩ := List.forall_mem_cons.mp h
    obtain ⟨T, hT, hshape⟩ := hfirst _ hown
    obtain ⟨rs, hrs, hshapes⟩ := ih hrest hothers
    refine ⟨T :: rs, ?_, List.forall_mem_cons.mpr ⟨hshape, hshapes⟩⟩
    rw [Plan.foldEach, hT, hrs]
    rfl

theorem of_foldEach (hresults : List.Forall₂ R (inner.flatMap (·.traces)) results)
    (hfold : Plan.foldEach inner results = .ok rs) (hrs : ∀ r ∈ rs, r.shape = shape) :
    ∀ q ∈ inner, ∃ own, List.Forall₂ R q.traces own ∧
      ∃ T, q.combine own = .ok T ∧ T.shape = shape := by
  induction inner generalizing results rs with
  | nil => simp
  | cons q inner ih =>
    obtain ⟨hown, hrest⟩ := forall₂_stretch hresults
    rw [Plan.foldEach] at hfold
    obtain ⟨T, hT, hfold⟩ := bind_eq_ok hfold
    obtain ⟨rs', hrs', hfold⟩ := bind_eq_ok hfold
    obtain rfl := Except.ok.inj hfold
    obtain ⟨hshape, hshapes⟩ := List.forall_mem_cons.mp hrs
    exact List.forall_mem_cons.mpr ⟨⟨_, hown, T, hT, hshape⟩, ih hrest hrs' hshapes⟩

end Stretches

/-! ## First derivatives by either method -/

section FirstOrder

variable [Scalar α] {d : Differentiator α} {t : Trace α} {p : Plan α} {selected out shape : List ℕ}
  {rs : List (Tensor α)}

theorem resembles_of_mem_firstOrder (hplan : d.firstOrder t = .ok p)
    (hselected : t.selectTrainable d.method.parameters = .ok selected) (hne : selected ≠ [])
    {u : Trace α} (hu : u ∈ p.traces) : t.Resembles u := by
  unfold Differentiator.firstOrder GradientMethod.plan at hplan
  cases hmethod : d.method with
  | parameterShift c =>
    rw [hmethod] at hplan
    exact resembles_of_mem_shifts hplan hu
  | finiteDifference c =>
    rw [hmethod] at hplan hselected
    exact resembles_of_mem_differences hplan hselected hne hu

theorem firstOrder_fold_shape (hplan : d.firstOrder t = .ok p)
    (hselected : t.selectTrainable d.method.parameters = .ok selected) (hne : selected ≠ [])
    (hout : t.outputShape = .ok out) (hlength : rs.length = p.traces.length)
    (hrs : ∀ r ∈ rs, r.shape = shape) (h : shape = out ∨ t.Linear ∧ d.method.HasTerms t) :
    ∃ T, p.fold rs = .ok T ∧ T.shape = shape ++ [selected.length] := by
  unfold Differentiator.firstOrder GradientMethod.plan at hplan
  cases hmethod : d.method with
  | parameterShift c =>
    rw [hmethod] at hplan hselected h
    exact shifts_fold_shape hplan hselected hne hout hlength hrs h
  | finiteDifference c =>
    rw [hmethod] at hplan hselected
    exact differences_fold_shape hplan hselected hne hlength hrs

/-- First derivatives are planned for traces whose output has a shape. -/
theorem outputShape_of_firstOrder (hplan : d.firstOrder t = .ok p)
    (hselected : t.selectTrainable d.method.parameters = .ok selected) (hne : selected ≠ []) :
    ∃ out, t.outputShape = .ok out := by
  unfold Differentiator.firstOrder GradientMethod.plan at hplan
  cases hmethod : d.method with
  | parameterShift c =>
    rw [hmethod] at hplan
    obtain ⟨_, _, _, _, _, out, -, -, -, hout, -⟩ := plan_eq_ok hplan
    exact ⟨out, hout⟩
  | finiteDifference c =>
    rw [hmethod] at hplan hselected
    obtain ⟨_, -, -, hout, -⟩ := differences_eq_ok hplan hselected hne
    exact hout

/-- Difference quotients have terms throughout. -/
theorem nestsTerms_differences {c : DifferenceConfig α} (hmethod : d.method = .finiteDifference c)
    (more : ℕ) (t : Trace α) : d.NestsTerms more t := by
  induction more generalizing t with
  | zero => trivial
  | succ more ih =>
    refine ⟨?_, fun _ _ u _ => ih u⟩
    rw [hmethod]
    trivial

/-- Nothing is executed where nothing is selected. -/
theorem traces_of_nothing (hplan : d.firstOrder t = .ok p)
    (hselected : t.selectTrainable d.method.parameters = .ok []) : p.traces = [] := by
  unfold Differentiator.firstOrder GradientMethod.plan at hplan
  cases hmethod : d.method with
  | parameterShift c =>
    rw [hmethod] at hplan hselected
    obtain ⟨selected, _, _, rules, shifted, _, hselected', -, -, -, hrules, hshifted, htraces, -⟩ :=
      plan_eq_ok hplan
    obtain rfl := Except.ok.inj (hselected.symm.trans hselected')
    cases hrules
    cases hshifted
    simpa using htraces
  | finiteDifference c =>
    rw [hmethod] at hplan hselected
    simp only [FiniteDifference.plan] at hplan
    obtain ⟨_, -, hplan⟩ := bind_eq_ok hplan
    split at hplan
    · cases hplan
    · rw [show t.selectTrainable c.parameters = .ok [] from hselected, ok_bind] at hplan
      obtain ⟨out, -, hplan⟩ := bind_eq_ok hplan
      rw [if_pos List.isEmpty_nil] at hplan
      rw [← Except.ok.inj hplan]
      rfl

theorem nestsTerms_of_nothing (hselected : t.selectTrainable d.method.parameters = .ok [])
    (more : ℕ) : d.NestsTerms more t := by
  cases more with
  | zero => trivial
  | succ more =>
    refine ⟨?_, fun q hq u hu => ?_⟩
    · cases hmethod : d.method with
      | parameterShift c =>
        intro selected hselected' i hi
        rw [hmethod] at hselected
        obtain rfl := Except.ok.inj (hselected.symm.trans hselected')
        cases hi
      | finiteDifference c => trivial
    · rw [traces_of_nothing hq hselected] at hu
      cases hu

end FirstOrder

/-! ## Nested plans -/

/-- Results that have the shapes of the traces' outputs. -/
abbrev Shaped (ts : List (Trace α)) (results : List (Tensor α)) : Prop :=
  List.Forall₂ (fun v r => v.outputShape = .ok r.shape) ts results

section Nested

variable [Scalar α] {d : Differentiator α} {t : Trace α} {p : Plan α} {selected out : List ℕ}
  {results : List (Tensor α)}

/-- First derivatives of results of the output's shape. -/
theorem firstOrder_combine_shape (hplan : d.firstOrder t = .ok p)
    (hselected : t.selectTrainable d.method.parameters = .ok selected) (hne : selected ≠ [])
    (hout : t.outputShape = .ok out) (hresults : Shaped p.traces results) :
    ∃ T, p.combine results = .ok T ∧ T.shape = out ++ [selected.length] := by
  have hlength := hresults.length_eq.symm
  have hrs : ∀ r ∈ results, r.shape = out := by
    intro r hr
    obtain ⟨i, hi, rfl⟩ := List.getElem_of_mem hr
    have hi' : i < p.traces.length := hlength ▸ hi
    have hshape := hresults.get hi' hi
    have hresembles := resembles_of_mem_firstOrder hplan hselected hne (List.getElem_mem hi')
    exact (Except.ok.inj (hout.symm.trans (hresembles.outputShape.symm.trans hshape))).symm
  obtain ⟨T, hT, hshape⟩ :=
    firstOrder_fold_shape hplan hselected hne hout hlength hrs (.inl rfl)
  exact ⟨T, (combine_of_length hlength).trans hT, hshape⟩

/-- Nested plans fold results to a tensor of the right shape exactly when all shift
    rules but the innermost have terms. -/
theorem nested_shape_iff {more : ℕ} (hplan : d.nested more t = .ok p)
    (hselected : t.selectTrainable d.method.parameters = .ok selected) (hne : selected ≠ [])
    (hlinear : more = 0 ∨ t.Linear) (hout : t.outputShape = .ok out)
    (hresults : Shaped p.traces results) :
    (∃ T, p.combine results = .ok T ∧
      T.shape = out ++ List.replicate (more + 1) selected.length) ↔ d.NestsTerms more t := by
  induction more generalizing t p results with
  | zero =>
    exact ⟨fun _ => trivial, fun _ => firstOrder_combine_shape hplan hselected hne hout hresults⟩
  | succ more ih =>
    obtain ⟨q, hq, hplan⟩ := bind_eq_ok hplan
    rw [andThen_eq] at hplan
    obtain ⟨inner, hinner, hplan⟩ := bind_eq_ok hplan
    obtain rfl := Except.ok.inj hplan
    have hlinear := hlinear.resolve_left (Nat.succ_ne_zero more)
    have hcount := length_of_mapM hinner
    -- The inner plans are those of traces that resemble this one.
    have hown : ∀ u ∈ q.traces, ∀ r, d.nested more u = .ok r → ∀ own, Shaped r.traces own →
        ((∃ T, r.combine own = .ok T ∧
          T.shape = out ++ List.replicate (more + 1) selected.length) ↔ d.NestsTerms more u) := by
      intro u hu r hr own hshaped
      have hresembles := resembles_of_mem_firstOrder hq hselected hne hu
      exact ih hr ((selectTrainable_of_resembles hresembles _).trans hselected)
        (.inr (hresembles.linear hlinear)) (hresembles.outputShape.trans hout) hshaped
    rw [combine_of_length hresults.length_eq.symm]
    have hshape : out ++ List.replicate (more + 1 + 1) selected.length =
        (out ++ List.replicate (more + 1) selected.length) ++ [selected.length] := by
      rw [List.append_assoc, List.replicate_succ' (n := more + 1)]
    rw [hshape]
    constructor
    · rintro ⟨T, hT, hTshape⟩
      obtain ⟨rs, hrs, hfold⟩ := bind_eq_ok hT
      have hlength := (length_of_foldEach hrs).trans hcount
      cases hmethod : d.method with
      | finiteDifference c => exact nestsTerms_differences hmethod _ t
      | parameterShift c =>
        have hne' : out ++ List.replicate (more + 1) selected.length ≠ out := by
          intro heq
          have hlengths := congrArg List.length heq
          simp at hlengths
        have hq' := hq
        unfold Differentiator.firstOrder GradientMethod.plan at hq'
        rw [hmethod] at hq'
        have hselected' := hselected
        rw [hmethod] at hselected'
        obtain ⟨hterms, hshapes⟩ :=
          of_shifts_fold hq' hlinear hselected' hne hout hlength hfold hTshape hne'
        refine ⟨hmethod ▸ hterms, ?_⟩
        intro q' hq'' u hu
        obtain rfl := Except.ok.inj (hq.symm.trans hq'')
        obtain ⟨r, hr⟩ := ok_of_mapM hinner hu
        obtain ⟨own, hshaped, hcombine⟩ :=
          of_foldEach hresults hrs hshapes r (mem_results_of_mapM hinner hu hr)
        exact (hown u hu r hr own hshaped).mp hcombine
    · rintro ⟨hterms, hnests⟩
      have hcombine : ∀ r ∈ inner, ∀ own, Shaped r.traces own → ∃ T, r.combine own = .ok T ∧
          T.shape = out ++ List.replicate (more + 1) selected.length := by
        intro r hr own hshaped
        obtain ⟨u, hu, hur⟩ := mem_of_mapM hinner hr
        exact (hown u hu r hur own hshaped).mpr (hnests q hq u hu)
      obtain ⟨rs, hrs, hshapes⟩ := foldEach_shapes hresults hcombine
      obtain ⟨T, hT, hTshape⟩ := firstOrder_fold_shape hq hselected hne hout
        ((length_of_foldEach hrs).trans hcount) hshapes (.inr ⟨hlinear, hterms⟩)
      refine ⟨T, ?_, hTshape⟩
      unfold composite
      simp only [hrs]
      exact hT

end Nested

/-! ## Derivatives -/

/-- Expansion replaces operations and nothing else, by operations in the register. -/
theorem replaced_of_expandDifferentiable [Scalar α] {table : GateTable α} {depth : ℕ}
    {cost : DecompositionCost α} {t u : Trace α}
    (h : t.expandDifferentiable table depth cost = .ok u) :
    u = { t with operations := u.operations } ∧ (t.Valid → u.Valid) := by
  obtain ⟨-, rfl⟩ | ⟨results, -, rfl, hvalid⟩ := expandDifferentiable_cases h
  · exact ⟨rfl, id⟩
  · exact ⟨rfl, fun _ => hvalid⟩

theorem measurements_of_expand [Scalar α] {d : Differentiator α} {t u : Trace α}
    (h : d.expand t = .ok u) : u.measurements = t.measurements := by
  rw [(replaced_of_expandDifferentiable h).1]

/-- Whatever results of the right shapes the traces of a derivative are given, they
    are combined to a tensor of the output's shape followed by one dimension per order
    exactly when all shift rules but the innermost have terms.  At the first order that
    is always, and so it is at any order for difference quotients. -/
theorem derivative_shape_iff [Scalar α] (d : Differentiator α) (t : Trace α) {more : ℕ}
    {plan : Plan α} (hplan : d.derivative t (more + 1) = .ok plan) :
    ∃ u selected out, d.expand t = .ok u ∧
      u.selectTrainable d.method.parameters = .ok selected ∧ u.outputShape = .ok out ∧
      ∀ results, Shaped plan.traces results →
        ((∃ T, plan.combine results = .ok T ∧
          T.shape = out ++ List.replicate (more + 1) selected.length) ↔ d.NestsTerms more u) := by
  obtain ⟨u, selected, hexpand, hselected, hlinear, hplan⟩ := derivative_succ_eq_ok hplan
  by_cases hempty : selected = []
  · subst hempty
    obtain ⟨out, hout, hplan⟩ := bind_eq_ok hplan
    obtain rfl := Except.ok.inj hplan
    refine ⟨u, [], out, hexpand, hselected, hout, ?_⟩
    intro results hresults
    obtain rfl := List.forall₂_nil_left_iff.mp hresults
    refine ⟨fun _ => ?_, fun _ => ⟨_, rfl, rfl⟩⟩
    exact nestsTerms_of_nothing hselected more
  · rw [if_neg (fun hnil => hempty (List.isEmpty_iff.mp hnil))] at hplan
    obtain ⟨p, hp⟩ := firstOrder_of_nested hplan
    obtain ⟨out, hout⟩ := outputShape_of_firstOrder hp hselected hempty
    refine ⟨u, selected, out, hexpand, hselected, hout, fun results hresults => ?_⟩
    refine nested_shape_iff hplan hselected hempty (hlinear.imp_right fun hnone => ?_) hout hresults
    intro m hm
    exact hnone m (measurements_of_expand hexpand ▸ hm)

/-- A gate whose rule for the first parameter has no terms, and that of any other one
    term at three times the value. -/
noncomputable def unevenGate : GateSpec ℝ :=
  { name := "U"
    paramCount := 2
    wireCount := 1
    gradMethod := .analytic
    rule := some (.valueDependent fun values i =>
      ⟨if i = 0 then [] else [⟨1, 2, values.getD i 0⟩]⟩) }

/-- Both parameters of the gate are trainable. -/
noncomputable def uneven : Trace ℝ :=
  { operations := [⟨unevenGate, [.trainable 0.1, .trainable 0.2], [0]⟩]
    measurements := [.ofObservable .expectation (.word (.single 0 .Z))]
    register := 1
    shots := .analytic
    layout := .empty }

/-- Its second derivative is executed as one trace, and the one result of the right
    shape cannot be combined. -/
theorem derivative_shape_uneven : ∃ plan, byShifts.derivative uneven 2 = .ok plan ∧
    Shaped plan.traces [.scalar 1] ∧ ∃ e, plan.combine [.scalar 1] = .error e := by
  exact ⟨_, rfl, .cons rfl .nil, _, rfl⟩

/-- No results are combined to the Hessian, as the rule of the first parameter has no
    terms. -/
theorem derivative_shape_iff_uneven : ∃ plan, byShifts.derivative uneven 2 = .ok plan ∧
    ∀ results, Shaped plan.traces results →
      ¬∃ T, plan.combine results = .ok T ∧ T.shape = [2, 2] := by
  have hplanned : ∃ plan, byShifts.derivative uneven 2 = .ok plan := ⟨_, rfl⟩
  obtain ⟨plan, hplan⟩ := hplanned
  refine ⟨plan, hplan, fun results hresults => ?_⟩
  obtain ⟨u, selected, out, hexpand, hselected, hout, hiff⟩ :=
    derivative_shape_iff byShifts uneven hplan
  obtain rfl : uneven = u := Except.ok.inj hexpand
  obtain rfl : [0, 1] = selected := Except.ok.inj hselected
  obtain rfl : [] = out := Except.ok.inj hout
  intro hshape
  have hterms := ((hiff results hresults).mp hshape).1 [0, 1] rfl 0 List.mem_cons_self _ rfl
  exact hterms rfl

end Proofs

end CircuitGrad
