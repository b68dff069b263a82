import Mathlib
import CircuitGrad.Gradient.ParameterShift
import CircuitGrad.Proofs.TurningGates

/-! # Values of all parameters

    A trace with its parameters bound to the values of an assignment, which
    gives a number to each flat index.  Binding one parameter to another value
    updates the assignment in one place (`withParam_assign`), and the wave that
    the operations prepare turns with the value of a parameter by the rule that
    the parameter is differentiated with (`exists_turning`).
-/

namespace CircuitGrad

/-- The operation with parameter `i` bound to `v i`. -/
def Operation.assign (op : Operation ℝ) (v : ℕ → ℝ) : Operation ℝ :=
  { op with params := op.params.mapIdx fun i p => p.withValue (v i) }

/-- The operations with their parameters bound in order. -/
def Operation.assignAll : List (Operation ℝ) → (ℕ → ℝ) → List (Operation ℝ)
  | [], _ => []
  | op :: rest, v => op.assign v :: assignAll rest fun i => v (i + op.params.length)

/-- The trace with the parameter of flat index `i` bound to `v i`. -/
def Trace.assign (t : Trace ℝ) (v : ℕ → ℝ) : Trace ℝ :=
  { t with operations := Operation.assignAll t.operations v }

/-- The values that the parameters of a trace are bound to. -/
def Trace.point (t : Trace ℝ) (i : ℕ) : ℝ := t.values.getD i 0

namespace Proofs

open Operation (assignAll)

variable {n : ℕ}

/-! ## One operation -/

@[simp] theorem length_assign (op : Operation ℝ) (v : ℕ → ℝ) :
    (op.assign v).params.length = op.params.length := List.length_mapIdx

theorem assign_params_getElem? (op : Operation ℝ) (v : ℕ → ℝ) (i : ℕ) :
    (op.assign v).params[i]? = op.params[i]?.map fun p => p.withValue (v i) :=
  List.getElem?_mapIdx

/-- Only the values of the operation's own parameters matter. -/
theorem assign_congr (op : Operation ℝ) {v w : ℕ → ℝ} (h : ∀ i < op.params.length, v i = w i) :
    op.assign v = op.assign w := by
  unfold Operation.assign
  congr 1
  refine List.ext_getElem? fun i => ?_
  rw [List.getElem?_mapIdx, List.getElem?_mapIdx]
  by_cases hi : i < op.params.length
  · rw [h i hi]
  · rw [List.getElem?_eq_none (by omega)]
    rfl

/-- Binding the values that are bound changes nothing. -/
theorem assign_eq_self {op : Operation ℝ} {v : ℕ → ℝ}
    (h : ∀ i p, op.params[i]? = some p → v i = p.value) : op.assign v = op := by
  obtain ⟨spec, params, wires⟩ := op
  unfold Operation.assign
  congr 1
  refine List.ext_getElem? fun i => ?_
  rw [List.getElem?_mapIdx]
  cases hp : params[i]? with
  | none => rfl
  | some p =>
    rw [Option.map_some, h i p hp]
    rfl

/-- Another value for one parameter. -/
theorem withParam_assign_op (op : Operation ℝ) (v : ℕ → ℝ) (p : ℕ) (x : ℝ) :
    (op.assign v).withParam p x = op.assign (Function.update v p x) := by
  unfold Operation.assign Operation.withParam
  congr 1
  refine List.ext_getElem? fun i => ?_
  rw [List.getElem?_modify, List.getElem?_mapIdx, List.getElem?_mapIdx, Option.map_eq_map,
    Option.map_map]
  by_cases hi : p = i
  · subst hi
    rw [Function.update_self]
    simp [Function.comp_def, Jet.withValue]
  · rw [Function.update_of_ne (Ne.symm hi)]
    simp [Function.comp_def, hi]

theorem Places.assign {op : Operation ℝ} {g : StandardGate} {ws : List (Fin n)}
    (h : Places op g ws) (v : ℕ → ℝ) : Places (op.assign v) g ws :=
  ⟨h.spec, h.wires, (length_assign op v).trans h.params, h.length, h.nodup⟩

/-- The values of an operation with one parameter. -/
theorem values_assign_of_one {op : Operation ℝ} (h : op.params.length = 1) (v : ℕ → ℝ) :
    (op.assign v).values = [v 0] := by
  obtain ⟨p, hp⟩ := List.length_eq_one_iff.mp h
  unfold Operation.values Operation.assign
  rw [hp]
  rfl

/-! ## Operations in order -/

/-- Shifting the indices past the first operation. -/
theorem update_shift (v : ℕ → ℝ) {i m : ℕ} (h : m ≤ i) (x : ℝ) :
    (fun j => Function.update v i x (j + m)) =
      Function.update (fun j => v (j + m)) (i - m) x := by
  funext j
  by_cases hj : j = i - m
  · have hi : j + m = i := by omega
    rw [hi, hj, Function.update_self, Function.update_self]
  · have hi : j + m ≠ i := by omega
    rw [Function.update_of_ne hj, Function.update_of_ne hi]

theorem update_shift_of_lt (v : ℕ → ℝ) {i m : ℕ} (h : i < m) (x : ℝ) :
    (fun j => Function.update v i x (j + m)) = fun j => v (j + m) := by
  funext j
  have hj : j + m ≠ i := by omega
  exact Function.update_of_ne hj x v

/-- Only the values of parameters that exist matter. -/
theorem assignAll_congr {ops : List (Operation ℝ)} {v w : ℕ → ℝ}
    (h : ∀ i < (ops.map (·.params.length)).sum, v i = w i) : assignAll ops v = assignAll ops w := by
  induction ops generalizing v w with
  | nil => rfl
  | cons op rest ih =>
    rw [List.map_cons, List.sum_cons] at h
    rw [assignAll, assignAll, assign_congr op fun i hi => h i (by omega),
      ih fun i hi => h (i + op.params.length) (by omega)]

theorem locate_assignAll (ops : List (Operation ℝ)) (v : ℕ → ℝ) (i : ℕ) :
    Trace.locate? (assignAll ops v) i = Trace.locate? ops i := by
  induction ops generalizing v i with
  | nil => rfl
  | cons op rest ih => simp only [assignAll, Trace.locate?, length_assign, ih]

/-- Binding one parameter anew updates the assignment. -/
theorem modify_assignAll {ops : List (Operation ℝ)} {i o p : ℕ}
    (h : Trace.locate? ops i = some (o, p)) (v : ℕ → ℝ) (x : ℝ) :
    (assignAll ops v).modify o (·.withParam p x) = assignAll ops (Function.update v i x) := by
  induction ops generalizing i o v with
  | nil => cases h
  | cons op rest ih =>
    rw [Trace.locate?] at h
    by_cases hi : i < op.params.length
    · rw [if_pos hi] at h
      obtain ⟨rfl, rfl⟩ : 0 = o ∧ i = p := by simpa using h
      rw [assignAll, assignAll, update_shift_of_lt v hi, List.modify_zero_cons,
        withParam_assign_op]
    · rw [if_neg hi] at h
      obtain ⟨⟨o', p'⟩, hrest, heq⟩ := Option.map_eq_some_iff.mp h
      obtain ⟨rfl, rfl⟩ : o' + 1 = o ∧ p' = p := by simpa using heq
      -- The first operation does not hold the parameter and stays as it is.
      have hfirst : op.assign (Function.update v i x) = op.assign v :=
        assign_congr op fun j hj => Function.update_of_ne (by omega) x v
      rw [assignAll, assignAll, update_shift v (by omega), List.modify_succ_cons, hfirst,
        ih hrest]

/-- A property of operations that does not depend on values. -/
theorem forall_mem_assignAll {P : Operation ℝ → Prop} (hP : ∀ op v, P op → P (op.assign v))
    {ops : List (Operation ℝ)} (h : ∀ op ∈ ops, P op) (v : ℕ → ℝ) :
    ∀ op ∈ assignAll ops v, P op := by
  induction ops generalizing v with
  | nil => simp [assignAll]
  | cons op rest ih =>
    obtain ⟨hop, hrest⟩ := List.forall_mem_cons.mp h
    exact List.forall_mem_cons.mpr ⟨hP op v hop, ih hrest _⟩

theorem standard_assign {op : Operation ℝ} (h : op.Standard) (v : ℕ → ℝ) :
    (op.assign v).Standard := by
  obtain ⟨g, hmake⟩ := h
  obtain ⟨hparams, hlength, hnodup, heq⟩ := (make_operation_iff (wireCount_ne_zero g)).mp hmake
  have hspec : op.spec = g.spec := by rw [heq]
  refine ⟨g, (make_operation_iff (wireCount_ne_zero g)).mpr ⟨?_, hlength, hnodup, ?_⟩⟩
  · rw [length_assign, hparams]
  · rw [← hspec]
    rfl

/-- The wave that operations prepare turns with the value of a parameter by the
    rule of the parameter. -/
theorem exists_turning {ops : List (Operation ℝ)} (hops : ∀ op ∈ ops, op.Standard)
    (hwires : ∀ op ∈ ops, ∀ w ∈ op.wires, w < n) {i o p : ℕ} {op : Operation ℝ}
    (hlocate : Trace.locate? ops i = some (o, p)) (hop : ops[o]? = some op)
    {rule : ShiftRule ℝ} (hrule : op.shiftRule? p = some rule) (v : ℕ → ℝ) (ψ : Wave n) :
    ∃ χ : ℝ → Wave n, Turns rule χ ∧
      ∀ s, (ofWave ψ).applyAll (assignAll ops (Function.update v i s)) = .ok (ofWave (χ s)) := by
  induction ops generalizing i o v ψ with
  | nil => cases hlocate
  | cons first rest ih =>
    obtain ⟨hfirst, hrest⟩ := List.forall_mem_cons.mp hops
    obtain ⟨hfirstWires, hrestWires⟩ := List.forall_mem_cons.mp hwires
    obtain ⟨g, ws, hplaces⟩ := places_of_standard hfirst hfirstWires
    rw [Trace.locate?] at hlocate
    by_cases hi : i < first.params.length
    · -- The parameter belongs to the first gate, which turns; the others follow.
      rw [if_pos hi] at hlocate
      obtain ⟨rfl, rfl⟩ : 0 = o ∧ i = p := by simpa using hlocate
      obtain rfl : first = op := by simpa using hop
      obtain ⟨hone, rfl, rfl⟩ := hplaces.of_shiftRule hrule
      obtain ⟨A, hA⟩ := Acts.exists_of_standard (n := n)
        (forall_mem_assignAll (fun _ v h => standard_assign h v) hrest
          fun j => v (j + first.params.length))
        (forall_mem_assignAll (P := fun op => ∀ w ∈ op.wires, w < n) (fun _ _ h => h) hrestWires _)
      refine ⟨_, (turns_action hone hplaces.length ψ).map A, fun s => ?_⟩
      have hvalues := values_assign_of_one (hplaces.params.trans hone) (Function.update v 0 s)
      have hsingle := Acts.single (hplaces.assign (Function.update v 0 s))
      rw [hvalues, Function.update_self] at hsingle
      rw [assignAll, update_shift_of_lt v hi]
      exact (hsingle.append hA) ψ
    · -- The first gate does the same for all values, and the others turn.
      rw [if_neg hi] at hlocate
      obtain ⟨⟨o', p'⟩, hlocate', heq⟩ := Option.map_eq_some_iff.mp hlocate
      obtain ⟨rfl, rfl⟩ : o' + 1 = o ∧ p' = p := by simpa using heq
      have hfixed : ∀ s, first.assign (Function.update v i s) = first.assign v := fun s =>
        assign_congr first fun j hj => Function.update_of_ne (by omega) s v
      obtain ⟨χ, hχ, hrun⟩ := ih hrest hrestWires hlocate' (by simpa using hop)
        (fun j => v (j + first.params.length)) (g.action (first.assign v).values ws ψ)
      refine ⟨χ, hχ, fun s => ?_⟩
      have hstep := (hplaces.assign v).applyOperation_eq ψ
      rw [assignAll, update_shift v (by omega), hfixed]
      unfold StateVector.applyAll at hrun ⊢
      rw [List.foldlM_cons, hstep]
      exact hrun s

/-! ## Traces -/

theorem valid_assign {t : Trace ℝ} (h : t.Valid) (v : ℕ → ℝ) : (t.assign v).Valid :=
  ⟨h.measured, forall_mem_assignAll (P := fun op => ∀ w ∈ op.wires, w < t.register)
    (fun _ _ h => h) h.operations v, h.measurements⟩

/-- Operations keep the values that they have already. -/
theorem assignAll_values (ops : List (Operation ℝ)) :
    assignAll ops (fun i => ((ops.flatMap (·.params)).map (·.value)).getD i 0) = ops := by
  induction ops with
  | nil => rfl
  | cons op rest ih =>
    rw [List.flatMap_cons, List.map_append]
    have hfirst : op.assign (fun i => (op.params.map (·.value) ++
        (rest.flatMap (·.params)).map (·.value)).getD i 0) = op := by
      refine assign_eq_self fun i p hp => ?_
      have hi : i < op.params.length := (List.getElem?_eq_some_iff.mp hp).1
      rw [List.getD_append _ _ _ _ (by simpa using hi), List.getD_eq_getElem?_getD,
        List.getElem?_map, hp]
      rfl
    have hrest : (fun i => (op.params.map (·.value) ++
        (rest.flatMap (·.params)).map (·.value)).getD (i + op.params.length) 0) =
        fun i => ((rest.flatMap (·.params)).map (·.value)).getD i 0 := by
      funext i
      rw [List.getD_append_right _ _ _ _ (by simp), List.length_map, Nat.add_sub_cancel]
    rw [assignAll, hfirst, hrest, ih]

theorem assign_point (t : Trace ℝ) : t.assign t.point = t :=
  congrArg (fun ops => ({ t with operations := ops } : Trace ℝ)) (assignAll_values t.operations)

theorem operation_withValues (op : Operation ℝ) {values : List ℝ}
    (h : op.params.length ≤ values.length) :
    op.withValues (values.take op.params.length) = .ok (op.assign fun i => values.getD i 0) := by
  have hcount : (values.take op.params.length).length = op.params.length := by
    rw [List.length_take]
    omega
  unfold Operation.withValues Operation.assign
  rw [if_neg (not_not.mpr hcount)]
  congr 2
  refine List.ext_getElem? fun i => ?_
  rw [List.getElem?_mapIdx, List.getElem?_zipWith]
  by_cases hi : i < op.params.length
  · simp [hi, List.getElem?_eq_getElem (show i < values.length by omega)]
  · rw [List.getElem?_eq_none (by omega)]
    rfl

/-- Each operation takes its own stretch of the values. -/
theorem deal_withValues {ops : List (Operation ℝ)} {values : List ℝ}
    (h : values.length = (ops.map (·.params.length)).sum) :
    (Trace.deal Operation.withValues ops values).mapM id =
      .ok (assignAll ops fun i => values.getD i 0) := by
  induction ops generalizing values with
  | nil => rfl
  | cons op rest ih =>
    rw [List.map_cons, List.sum_cons] at h
    have hrest : (values.drop op.params.length).length = (rest.map (·.params.length)).sum := by
      rw [List.length_drop]
      omega
    have hshift : (fun i => (values.drop op.params.length).getD i 0) =
        fun i => values.getD (i + op.params.length) 0 := by
      funext i
      simp [List.getD_eq_getElem?_getD, Nat.add_comm]
    rw [Trace.deal, List.mapM_cons, operation_withValues op (by omega), ih hrest, hshift]
    rfl

/-- Binding all parameters to a list of values. -/
theorem withValues_eq_assign (t : Trace ℝ) (values : List ℝ) (h : values.length = t.paramCount) :
    t.withValues values = .ok (t.assign fun i => values.getD i 0) := by
  unfold Trace.withValues
  rw [if_neg (not_not.mpr h), deal_withValues h]
  rfl

theorem isTrainable_assignAll (ops : List (Operation ℝ)) (v : ℕ → ℝ) :
    ((assignAll ops v).flatMap (·.params)).map (·.isTrainable) =
      (ops.flatMap (·.params)).map (·.isTrainable) := by
  induction ops generalizing v with
  | nil => rfl
  | cons op rest ih =>
    have hfirst : (op.assign v).params.map (·.isTrainable) = op.params.map (·.isTrainable) := by
      refine List.ext_getElem? fun i => ?_
      rw [List.getElem?_map, List.getElem?_map, assign_params_getElem?, Option.map_map]
      rfl
    rw [assignAll, List.flatMap_cons, List.flatMap_cons, List.map_append, List.map_append,
      hfirst, ih]

/-- Which parameters are trainable depends on their flags only. -/
theorem trainableIndices_eq {α : Type} (t : Trace α) : t.trainableIndices =
    ((t.params.map (·.isTrainable)).zipIdx.filter (·.1)).map (·.2) := by
  unfold Trace.trainableIndices
  rw [List.zipIdx_map, List.filter_map, List.map_map]
  rfl

theorem nodup_trainableIndices {α : Type} (t : Trace α) : t.trainableIndices.Nodup := by
  have hsub : t.trainableIndices.Sublist (t.params.zipIdx.map (·.2)) :=
    (List.filter_sublist).map _
  rw [List.zipIdx_map_snd] at hsub
  exact hsub.nodup (List.nodup_range' ..)

theorem trainableIndices_assign (t : Trace ℝ) (v : ℕ → ℝ) :
    (t.assign v).trainableIndices = t.trainableIndices := by
  rw [trainableIndices_eq, trainableIndices_eq]
  exact congrArg (fun flags : List Bool => (flags.zipIdx.filter (·.1)).map (·.2))
    (isTrainable_assignAll t.operations v)

theorem selectTrainable_assign (t : Trace ℝ) (v : ℕ → ℝ) (positions : Option (List ℕ)) :
    (t.assign v).selectTrainable positions = t.selectTrainable positions := by
  unfold Trace.selectTrainable
  rw [trainableIndices_assign]

/-! ## One parameter of a trace -/

/-- The operations of an assigned trace, one by one. -/
theorem assignAll_getElem? (ops : List (Operation ℝ)) (v : ℕ → ℝ) (o : ℕ) :
    ∃ w, (assignAll ops v)[o]? = ops[o]?.map (·.assign w) := by
  induction ops generalizing v o with
  | nil => exact ⟨v, rfl⟩
  | cons op rest ih =>
    cases o with
    | zero => exact ⟨v, rfl⟩
    | succ o => exact ih _ o

theorem spec_eq_of_standard {op : Operation ℝ} (h : op.Standard) :
    ∃ g : StandardGate, op.spec = g.spec := by
  obtain ⟨g, hmake⟩ := h
  exact ⟨g, by rw [((make_operation_iff (wireCount_ne_zero g)).mp hmake).2.2.2]⟩

/-- The gate has no shift rule that depends on the values of its parameters. -/
def FixedRule (op : Operation ℝ) : Prop := ∀ f, op.spec.rule ≠ some (.valueDependent f)

/-- The parameter belongs to an operation without such a rule. -/
def FixedAt (t : Trace ℝ) (i : ℕ) : Prop :=
  ∀ o p op, t.paramLocation? i = some (o, p) → t.operations[o]? = some op → FixedRule op

theorem fixedRule_of_standard {op : Operation ℝ} (h : op.Standard) : FixedRule op := by
  obtain ⟨g, hspec⟩ := spec_eq_of_standard h
  intro f
  rw [hspec]
  cases g <;> simp [StandardGate.spec, StandardGate.rule]

theorem opShiftRule_assign {op : Operation ℝ} (h : FixedRule op) (v : ℕ → ℝ) (p : ℕ) :
    (op.assign v).shiftRule? p = op.shiftRule? p := by
  have hspec : (op.assign v).spec = op.spec := rfl
  unfold Operation.shiftRule?
  rw [length_assign, hspec]
  cases hrule : op.spec.rule with
  | none => rfl
  | some source =>
    cases source with
    | fixed rule => rfl
    | valueDependent f => exact absurd hrule (h f)

/-- A fixed rule is the same at all values. -/
theorem shiftRule_assign_of_fixed {t : Trace ℝ} {i : ℕ} (h : FixedAt t i) (v : ℕ → ℝ) (step : ℝ) :
    (t.assign v).shiftRule i step = t.shiftRule i step := by
  have hlocation : (t.assign v).paramLocation? i = t.paramLocation? i := locate_assignAll _ v i
  unfold Trace.shiftRule
  rw [hlocation]
  cases hfound : t.paramLocation? i with
  | none => rfl
  | some location =>
    obtain ⟨o, p⟩ := location
    obtain ⟨w, hop'⟩ := assignAll_getElem? t.operations v o
    simp only [show (t.assign v).operations[o]? = t.operations[o]?.map (·.assign w) from hop']
    cases hop : t.operations[o]? with
    | none => rfl
    | some op =>
      have hrule := opShiftRule_assign (h o p op hfound hop) w p
      simp only [Option.map_some, hrule]
      rfl

theorem shiftRule_assign {t : Trace ℝ} (hops : ∀ op ∈ t.operations, op.Standard) (v : ℕ → ℝ)
    (i : ℕ) (step : ℝ) : (t.assign v).shiftRule i step = t.shiftRule i step :=
  shiftRule_assign_of_fixed (fun _ _ op _ hop =>
    fixedRule_of_standard (hops op (List.mem_of_getElem? hop))) v step

/-- The parameter is differentiated by the shift rule. -/
def RuleAt (t : Trace ℝ) (i : ℕ) (rule : ShiftRule ℝ) : Prop :=
  ∃ o p op, t.paramLocation? i = some (o, p) ∧ t.operations[o]? = some op ∧
    op.shiftRule? p = some rule

/-- Standard gates are not differentiated by difference quotients. -/
theorem ruleAt_of_shiftRule {t : Trace ℝ} (hops : ∀ op ∈ t.operations, op.Standard) {i : ℕ}
    {step : ℝ} {rule : ShiftRule ℝ} (h : t.shiftRule i step = .ok rule) : RuleAt t i rule := by
  unfold Trace.shiftRule at h
  cases hlocation : t.paramLocation? i with
  | none => rw [hlocation] at h; cases h
  | some location =>
    obtain ⟨o, p⟩ := location
    rw [hlocation] at h
    cases hop : t.operations[o]? with
    | none => simp only [hop] at h; cases h
    | some op =>
      obtain ⟨g, hspec⟩ := spec_eq_of_standard (hops op (List.mem_of_getElem? hop))
      cases hrule : op.shiftRule? p with
      | none =>
        have hmethod : op.spec.gradMethod = .analytic ∨ op.spec.gradMethod = .none := by
          rw [hspec]
          cases g <;> decide
        rcases hmethod with hmethod | hmethod <;> simp only [hop, hrule, hmethod] at h <;> cases h
      | some rule' =>
        simp only [hop, hrule] at h
        obtain rfl := Except.ok.inj h
        exact ⟨o, p, op, hlocation, hop, hrule⟩

theorem shiftRule_of_ruleAt {t : Trace ℝ} {i : ℕ} {rule : ShiftRule ℝ} (h : RuleAt t i rule)
    (step : ℝ) : t.shiftRule i step = .ok rule := by
  obtain ⟨o, p, op, hlocation, hop, hrule⟩ := h
  unfold Trace.shiftRule
  rw [hlocation]
  simp only [hop, hrule]

/-- The parameter that is found at a position has the position's value. -/
theorem value_assignAll {ops : List (Operation ℝ)} {i o p : ℕ}
    (h : Trace.locate? ops i = some (o, p)) (v : ℕ → ℝ) :
    (((assignAll ops v)[o]?).bind (·.params[p]?)).map (·.value) = some (v i) := by
  induction ops generalizing v i o with
  | nil => cases h
  | cons op rest ih =>
    rw [Trace.locate?] at h
    by_cases hi : i < op.params.length
    · rw [if_pos hi] at h
      obtain ⟨rfl, rfl⟩ : 0 = o ∧ i = p := by simpa using h
      show ((op.assign v).params[i]?).map (·.value) = _
      rw [assign_params_getElem?, List.getElem?_eq_getElem hi]
      rfl
    · rw [if_neg hi] at h
      obtain ⟨⟨o', p'⟩, hrest, heq⟩ := Option.map_eq_some_iff.mp h
      obtain ⟨rfl, rfl⟩ : o' + 1 = o ∧ p' = p := by simpa using heq
      -- Counted from past the first operation, the index is smaller.
      have hnext := ih hrest fun j => v (j + op.params.length)
      rw [Nat.sub_add_cancel (by omega)] at hnext
      exact hnext

section Located

variable {t : Trace ℝ} {i o p : ℕ}

theorem withParam_assign (h : t.paramLocation? i = some (o, p)) (v : ℕ → ℝ) (x : ℝ) :
    (t.assign v).withParam i x = .ok (t.assign (Function.update v i x)) := by
  have hlocation : (t.assign v).paramLocation? i = some (o, p) := (locate_assignAll _ v i).trans h
  unfold Trace.withParam
  rw [hlocation]
  exact congrArg (fun ops => Except.ok ({ t with operations := ops } : Trace ℝ))
    (modify_assignAll h v x)

theorem paramValue_assign (h : t.paramLocation? i = some (o, p)) (v : ℕ → ℝ) :
    (t.assign v).paramValue i = v i := by
  have hparam : (t.assign v).param? i = ((assignAll t.operations v)[o]?).bind (·.params[p]?) := by
    unfold Trace.param?
    rw [show (t.assign v).paramLocation? i = some (o, p) from (locate_assignAll _ v i).trans h]
    rfl
  have hvalue := value_assignAll h v
  unfold Trace.paramValue
  rw [hparam]
  cases hfound : ((assignAll t.operations v)[o]?).bind (·.params[p]?) with
  | none => rw [hfound] at hvalue; cases hvalue
  | some jet =>
    rw [hfound] at hvalue
    exact Option.some.inj hvalue

/-- The shifted traces bind one parameter to the points of the rule. -/
theorem shifted_assign (h : t.paramLocation? i = some (o, p)) (v : ℕ → ℝ)
    (rule : ShiftRule ℝ) : (t.assign v).shifted i rule =
      .ok (rule.terms.map fun term => t.assign (Function.update v i (term.point (v i)))) := by
  unfold Trace.shifted
  rw [paramValue_assign h]
  exact mapM_ok fun term _ => withParam_assign h v (term.point (v i))

end Located

end Proofs

end CircuitGrad
