import Mathlib
import CircuitGrad.Gradient.ParameterShift
import CircuitGrad.Proofs.DecompositionTree
import CircuitGrad.Proofs.GivenAnswers

/-! # Differentiable traces

    A trace that was made differentiable holds the leaves of trees of
    decompositions, one tree for each operation of the original.  All its
    operations are differentiable: expanding it again does nothing, and the
    parameter-shift rule finds a rule for every trainable parameter, because
    the condition under which expansion stops asks for a rule for every
    parameter of the operation (`shiftRule_of_trainable`).
-/

namespace CircuitGrad

namespace Proofs

variable {α : Type} {t u : Trace α}

/-! ## Rules of trainable parameters -/

/-- A position among all parameters is one among those of an operation. -/
theorem locate?_of_getElem? {ops : List (Operation α)} {i : ℕ} {x : Jet α}
    (h : (ops.flatMap (·.params))[i]? = some x) :
    ∃ o p op, Trace.locate? ops i = some (o, p) ∧ ops[o]? = some op ∧ op.params[p]? = some x := by
  induction ops generalizing i with
  | nil => cases h
  | cons op ops ih =>
    rw [List.flatMap_cons] at h
    by_cases hi : i < op.params.length
    · rw [List.getElem?_append_left hi] at h
      exact ⟨0, i, op, if_pos hi, rfl, h⟩
    · rw [List.getElem?_append_right (not_lt.mp hi)] at h
      obtain ⟨o, p, op', hlocate, hop, hx⟩ := ih h
      refine ⟨o + 1, p, op', ?_, hop, hx⟩
      rw [Trace.locate?, if_neg hi, hlocate]
      rfl

/-- The trainable parameters have a rule of their gate, or the gate asks for difference
    quotients. -/
theorem shiftRule?_of_isDifferentiable [Scalar α] {op : Operation α} (hop : op.isDifferentiable)
    {p : ℕ} {x : Jet α} (hx : op.params[p]? = some x) (htrainable : x.isTrainable) :
    (op.shiftRule? p).isSome ∨ op.spec.gradMethod = .numeric := by
  have hsome : op.isTrainable = true :=
    List.any_eq_true.mpr ⟨x, List.mem_of_getElem? hx, htrainable⟩
  have hown : op.hasOwnGradient = true := by
    simpa [Operation.isDifferentiable, hsome] using hop
  unfold Operation.hasOwnGradient at hown
  split at hown
  · next hnumeric => exact .inr hnumeric
  · cases hown
  · have hp : p < op.params.length := (List.getElem?_eq_some_iff.mp hx).1
    exact .inl (List.all_eq_true.mp hown p (List.mem_range.mpr hp))

theorem shiftRule_of_trainable [Scalar α] (hops : ∀ op ∈ t.operations, op.isDifferentiable) {i : ℕ}
    (hi : i ∈ t.trainableIndices) (step : α) : ∃ rule, t.shiftRule i step = .ok rule := by
  obtain ⟨⟨x, j⟩, hx, rfl⟩ := List.mem_map.mp hi
  obtain ⟨hx, htrainable⟩ := List.mem_filter.mp hx
  obtain ⟨o, p, op, hlocate, hop, hparam⟩ :=
    locate?_of_getElem? (List.mem_zipIdx_iff_getElem?.mp hx)
  have hlocation : t.paramLocation? j = some (o, p) := hlocate
  simp only [Trace.shiftRule, hlocation, hop]
  rcases shiftRule?_of_isDifferentiable (hops op (List.mem_of_getElem? hop)) hparam htrainable
    with hrule | hnumeric
  · obtain ⟨rule, hrule⟩ := Option.isSome_iff_exists.mp hrule
    exact ⟨rule, by rw [hrule]⟩
  · cases hrule : op.shiftRule? p with
    | some rule => exact ⟨rule, rfl⟩
    | none => exact ⟨.centralDifference step, by rw [hnumeric]⟩

/-- What is selected is trainable. -/
theorem mem_selectTrainable {positions : Option (List ℕ)} {selected : List ℕ}
    (h : t.selectTrainable positions = .ok selected) : ∀ i ∈ selected, i ∈ t.trainableIndices := by
  intro i hi
  unfold Trace.selectTrainable at h
  cases positions with
  | none => exact Except.ok.inj h ▸ hi
  | some positions =>
    obtain ⟨position, -, hposition⟩ := mem_of_mapM h hi
    split at hposition
    · next j hj => exact Except.ok.inj hposition ▸ List.mem_of_getElem? hj
    · cases hposition

/-! ## Failures of the parameter-shift rule -/

/-- The parameter-shift rule does not miss a rule if the selected parameters have one. -/
theorem plan_ne_noRule [Scalar α] {c : ShiftConfig α} {gate : String}
    (hrules : ∀ selected, t.selectTrainable c.parameters = .ok selected →
      ∀ i ∈ selected, ∃ rule, t.shiftRule i c.step = .ok rule) :
    ParameterShift.plan t c ≠ .error (.gradientUndefined gate .noRule) := by
  refine shifts_ne_error id (fun _ => nofun) ?_ fun selected hselected i hi => ?_
  · intro name cause h
    cases h
    rfl
  · obtain ⟨rule, hrule⟩ := hrules selected hselected i hi
    rw [hrule]
    exact nofun

/-! ## Traces that were made differentiable -/

/-- What a trace is expanded to for differentiation: leaves of trees in the place of its
    operations, which are differentiable; then nothing is left to expand, and no shift rule is
    missing. -/
theorem expandDifferentiable_correct [Scalar α] {table : GateTable α} {depth : ℕ}
    {cost : DecompositionCost α} (h : t.expandDifferentiable table depth cost = .ok u) :
    (∀ op ∈ u.operations, op.isDifferentiable) ∧
    (∃ trees : List (DecompositionTree α), trees.map (·.root) = t.operations ∧
      u = { t with operations := trees.flatMap (·.leaves) } ∧
      ∀ tree ∈ trees, tree.Resolves table ∧ tree.height ≤ depth ∧
        (tree.root.isDifferentiable → tree.leaves = [tree.root])) ∧
    (∀ table' depth' cost', u.expandDifferentiable table' depth' cost' = .ok u) ∧
    ∀ c : ShiftConfig α,
      (∀ selected, u.selectTrainable c.parameters = .ok selected →
        ∀ i ∈ selected, ∃ rule, u.shiftRule i c.step = .ok rule) ∧
      ∀ gate, ParameterShift.plan u c ≠ .error (.gradientUndefined gate .noRule) := by
  obtain ⟨trees, hroots, rfl, htrees⟩ := trees_of_expandDifferentiable h
  have hops : ∀ op ∈ trees.flatMap (·.leaves), op.isDifferentiable := by
    intro op hop
    obtain ⟨tree, htree, hop⟩ := List.mem_flatMap.mp hop
    exact isDifferentiable_of_mem_leaves (htrees tree htree).1 op hop
  have hrules : ∀ (c : ShiftConfig α) selected,
      ({ t with operations := trees.flatMap (·.leaves) } : Trace α).selectTrainable
        c.parameters = .ok selected → ∀ i ∈ selected, ∃ rule,
      ({ t with operations := trees.flatMap (·.leaves) } : Trace α).shiftRule i c.step =
        .ok rule :=
    fun c selected hselected i hi =>
      shiftRule_of_trainable hops (mem_selectTrainable hselected i hi) c.step
  refine ⟨hops, ⟨trees, hroots, rfl, fun tree htree => ?_⟩, ?_, fun c => ⟨hrules c, ?_⟩⟩
  · obtain ⟨hresolves, -, hheight⟩ := htrees tree htree
    refine ⟨hresolves, hheight, fun hroot => ?_⟩
    rw [eq_leaf_of_resolves hresolves hroot]
    simp [DecompositionTree.leaves, DecompositionTree.root]
  · exact fun table' depth' cost' => expandDifferentiable_of_all hops table' depth' cost'
  · exact fun gate => plan_ne_noRule (hrules c)

/-- Gates of three layers, of which the last is differentiated by difference quotients. -/
noncomputable def layers : GateTable ℝ :=
  ⟨#[{ name := "Outer", decompositions := [fun params wires =>
        .ok [⟨.custom 1, params, wires⟩, ⟨.custom 2, params, wires⟩]] },
    { name := "Middle", decompositions := [fun params wires =>
        .ok [⟨.custom 2, params, wires⟩, ⟨.custom 2, params.map (-·), wires⟩]] },
    { name := "Inner", gradMethod := .numeric }]⟩

/-- The outer gate with a trainable parameter, and with one that is not. -/
noncomputable def layered : Trace ℝ :=
  { operations := [⟨layers.spec (.custom 0), [.trainable 0.4], [0]⟩,
      ⟨layers.spec (.custom 0), [.constant 0.2], [0]⟩]
    measurements := [.ofObservable .expectation (.word (.single 0 .Z))]
    register := 1
    shots := .analytic
    layout := .empty }

/-- Three inner gates replace the first operation, and the second one stays. -/
theorem expandDifferentiable_correct_layered :
    ∃ u, layered.expandDifferentiable layers 2 trainableOperations = .ok u ∧
      u.operations.map (·.name) = ["Inner", "Inner", "Inner", "Outer"] ∧
      (∀ op ∈ u.operations, op.isDifferentiable) ∧
      ∀ selected, u.selectTrainable none = .ok selected →
        ∀ i ∈ selected, ∃ rule, u.shiftRule i 1 = .ok rule := by
  obtain ⟨u, hu, hnames⟩ : ∃ u, layered.expandDifferentiable layers 2 trainableOperations =
      .ok u ∧ u.operations.map (·.name) = ["Inner", "Inner", "Inner", "Outer"] := ⟨_, rfl, rfl⟩
  obtain ⟨hops, -, -, hrules⟩ := expandDifferentiable_correct hu
  exact ⟨u, hu, hnames, hops, (hrules ⟨none, 1, false⟩).1⟩

end Proofs

end CircuitGrad
