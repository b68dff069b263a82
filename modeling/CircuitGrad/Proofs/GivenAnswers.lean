import CircuitGrad.Batch
import CircuitGrad.Splitting
import CircuitGrad.Gradient.FiniteDifference
import CircuitGrad.Gradient.ParameterShift
import CircuitGrad.Proofs.Steps

/-! # Steps that give an answer

    A computation can end without an answer of its own, when an index falls
    outside the list it addresses.  Most steps cannot: whatever they are given,
    they end in a result or in an error that says what is wrong.  Packing is
    among them because a batch is packed only if it has as many results as
    there are shapes (`packBatch_answers`).

    Steps that only check what they are given end in no other error than a
    refusal of it, so the same holds for every error that is none.
-/

namespace CircuitGrad

/-- Something given is refused: a trace, a wire, a shape or an argument. -/
def Error.Refusal : Error → Prop
  | .invalidTrace _ | .invalidWire _ _ | .shapeMismatch _ | .invalidArgument _ => True
  | _ => False

namespace Proofs

variable {α : Type}

theorem ite_answers {β : Type} {c : Prop} [Decidable c] {x y : Except Error β}
    (hx : x ≠ .error .aborted) (hy : y ≠ .error .aborted) :
    (if c then x else y) ≠ .error .aborted := by
  split
  · exact hx
  · exact hy

/-! ## Tensors -/

theorem forM_checkShape_answers {context : String} {shape : List ℕ} (ts : List (Tensor α)) :
    ts.forM (fun t => Tensor.checkShape context shape t.shape) ≠ .error .aborted := by
  intro h
  obtain ⟨t, -, ht⟩ := exists_of_forM_error h
  unfold Tensor.checkShape at ht
  split at ht <;> cases ht

theorem make_answers (shape : List ℕ) (data : Array α) :
    Tensor.make shape data ≠ .error .aborted := by
  unfold Tensor.make
  intro h
  split at h <;> cases h

theorem linearCombination_answers [Zero α] [Add α] [Mul α] (cs : List α) (ts : List (Tensor α)) :
    Tensor.linearCombination cs ts ≠ .error .aborted := by
  unfold Tensor.linearCombination
  split
  · exact nofun
  · split
    · exact nofun
    · exact bind_ne_error (forM_checkShape_answers _) fun _ _ => nofun

section Tensors

variable [Zero α]

theorem stack_answers (ts : List (Tensor α)) : Tensor.stack ts ≠ .error .aborted := by
  unfold Tensor.stack
  split
  · exact nofun
  · exact bind_ne_error (forM_checkShape_answers _) fun _ _ => nofun

theorem stackTrailing_answers (ts : List (Tensor α)) :
    Tensor.stackTrailing ts ≠ .error .aborted := by
  unfold Tensor.stackTrailing
  split
  · exact nofun
  · exact bind_ne_error (forM_checkShape_answers _) fun _ _ => nofun

theorem joinTrailing_answers (slices : List (Tensor α)) (trailing : List ℕ) :
    Tensor.joinTrailing slices trailing ≠ .error .aborted :=
  bind_ne_error (stackTrailing_answers slices) fun _ _ => make_answers _ _

theorem unstack_answers (t : Tensor α) : t.unstack ≠ .error .aborted := by
  unfold Tensor.unstack
  split
  · exact nofun
  · refine mapM_ne_error fun i _ => ?_
    unfold Tensor.indexLeading
    split
    · exact nofun
    · split <;> exact nofun

theorem unpack_answers (p : Packing) (packed : Tensor α) : p.unpack packed ≠ .error .aborted := by
  have hcut (shapes : List (List ℕ)) (data : List α) :
      Packing.cut data shapes ≠ .error .aborted := by
    induction shapes generalizing data with
    | nil => exact nofun
    | cons shape rest ih =>
      exact bind_ne_error (make_answers _ _) fun _ _ => bind_ne_error (ih _) fun _ _ => nofun
  cases p with
  | single shape => exact nofun
  | stacked count shape => exact unstack_answers packed
  | flat shapes => exact hcut shapes packed.data.toList

end Tensors

/-! ## Traces -/

section Refusals

variable {e : Error}

theorem refusal_ne_error {β : Type} {r : Error} (he : ¬e.Refusal) (hr : r.Refusal) :
    (Except.error r : Except Error β) ≠ .error e :=
  fun h => he (Except.error.inj h ▸ hr)

theorem checkWires_ne_error (he : ¬e.Refusal) (register : ℕ) (wires : List ℕ) :
    Trace.checkWires register wires ≠ .error e := by
  unfold Trace.checkWires
  split
  · exact refusal_ne_error he trivial
  · exact nofun

theorem check_ne_error (he : ¬e.Refusal) (t : Trace α) : t.check ≠ .error e := by
  unfold Trace.check
  split
  · exact refusal_ne_error he trivial
  · exact bind_ne_error (checkWires_ne_error he _ _) fun _ _ =>
      bind_ne_error (checkWires_ne_error he _ _) fun _ _ => nofun

theorem packing_ne_error (he : ¬e.Refusal) (t : Trace α) (shots : Option ℕ) :
    t.packing shots ≠ .error e := by
  refine bind_ne_error (mapM_ne_error fun m _ => ?_) fun _ _ => nofun
  unfold Measurement.outputShape
  split
  · exact nofun
  · exact nofun
  · exact nofun
  · exact nofun
  · exact nofun
  · exact refusal_ne_error he trivial

theorem outputShape_ne_error (he : ¬e.Refusal) {t : Trace α}
    (h : t.shots.batches = [] → e ≠ .aborted) : t.outputShape ≠ .error e := by
  unfold Trace.outputShape
  split
  · next hnil => exact fun heq => h hnil (Except.error.inj heq).symm
  · exact bind_ne_error (packing_ne_error he t _) fun _ _ => nofun
  · refine bind_ne_error (packing_ne_error he t _) fun _ _ => bind_ne_error ?_ fun _ _ => nofun
    refine forIn_ne_error fun batch _ _ => bind_ne_error (packing_ne_error he t batch) fun _ _ => ?_
    split
    · exact bind_ne_error (refusal_ne_error he trivial) fun _ _ => nofun
    · exact nofun

theorem withParam_ne_error (he : ¬e.Refusal) (t : Trace α) (i : ℕ) (x : α) :
    t.withParam i x ≠ .error e := by
  unfold Trace.withParam
  split
  · exact refusal_ne_error he trivial
  · exact nofun

theorem selectTrainable_ne_error (he : ¬e.Refusal) (t : Trace α) (positions : Option (List ℕ)) :
    t.selectTrainable positions ≠ .error e := by
  unfold Trace.selectTrainable
  split
  · exact nofun
  · refine mapM_ne_error fun i _ => ?_
    split
    · exact nofun
    · exact refusal_ne_error he trivial

/-- Apart from refusals, the plan of first derivatives fails for what is measured and for the
    rules of the selected parameters. -/
theorem shifts_ne_error [Scalar α] {t : Trace α} {c : ShiftConfig α} (he : ¬e.Refusal)
    (hbatches : t.shots.batches = [] → e ≠ .aborted)
    (hmeasured : ∀ name cause, e = .gradientUndefined name cause → cause = .noRule)
    (hrules : ∀ selected, t.selectTrainable c.parameters = .ok selected →
      ∀ i ∈ selected, t.shiftRule i c.step ≠ .error e) :
    ParameterShift.plan t c ≠ .error e := by
  unfold ParameterShift.plan
  refine bind_ne_error ?_ fun _ _ => bind_ne_error (selectTrainable_ne_error he t _)
    fun selected hselected => bind_ne_error ?_ fun vs _ => ?_
  · unfold Trace.checkDifferentiable
    split
    · exact fun h => nomatch hmeasured _ _ (Except.error.inj h).symm
    · exact nofun
  · unfold Trace.variances
    dsimp only
    split
    · exact fun h => nomatch hmeasured _ _ (Except.error.inj h).symm
    · exact nofun
  · extract_lets rest
    have hrest : ∀ base, rest base ≠ .error e := by
      intro base
      refine bind_ne_error (mapM_ne_error (hrules selected hselected)) fun rules _ =>
        bind_ne_error (mapM_ne_error fun e _ => mapM_ne_error fun term _ => ?_) fun shifted _ =>
        bind_ne_error (outputShape_ne_error he hbatches) fun shape _ => nofun
      exact withParam_ne_error he base _ _
    split
    · exact hrest t
    · exact bind_ne_error (check_ne_error he _) fun base _ => hrest base

end Refusals

theorem check_answers (t : Trace α) : t.check ≠ .error .aborted := check_ne_error id t

theorem packing_answers (t : Trace α) (shots : Option ℕ) : t.packing shots ≠ .error .aborted :=
  packing_ne_error id t shots

theorem withParam_answers (t : Trace α) (i : ℕ) (x : α) : t.withParam i x ≠ .error .aborted :=
  withParam_ne_error id t i x

theorem dealt_answers (ops : List (Operation α)) (values : List α) :
    (Trace.deal Operation.withValues ops values).mapM id ≠ .error .aborted := by
  induction ops generalizing values with
  | nil => exact nofun
  | cons op rest ih =>
    rw [Trace.deal, List.mapM_cons]
    exact bind_ne_error (ite_answers nofun nofun) fun _ _ => bind_ne_error (ih _) fun _ _ => nofun

theorem withValues_answers (t : Trace α) (values : List α) :
    t.withValues values ≠ .error .aborted :=
  ite_answers nofun (bind_ne_error (dealt_answers _ _) fun _ _ => nofun)

theorem checkDifferentiable_answers (t : Trace α) : t.checkDifferentiable ≠ .error .aborted := by
  unfold Trace.checkDifferentiable
  split <;> exact nofun

theorem selectTrainable_answers (t : Trace α) (positions : Option (List ℕ)) :
    t.selectTrainable positions ≠ .error .aborted := selectTrainable_ne_error id t positions

theorem variances_answers (t : Trace α) : t.variances ≠ .error .aborted := by
  unfold Trace.variances
  dsimp only
  split <;> exact nofun

theorem commonBatchSize_answers (args : List (Argument α)) :
    Argument.commonBatchSize args ≠ .error .aborted := by
  unfold Argument.commonBatchSize
  dsimp only
  split
  · exact nofun
  · split <;> exact nofun

theorem groups_answers (ms : List (Measurement α)) (register : ℕ) :
    Measurement.groups ms register ≠ .error .aborted := by
  refine bind_ne_error (mapM_ne_error fun m _ => ?_) fun _ _ => nofun
  unfold Measurement.basis
  split
  · exact nofun
  · exact nofun
  · refine bind_ne_error ?_ fun _ _ => nofun
    unfold PauliWord.ofFactors
    split <;> exact nofun

theorem combine_identity_answers (t : Trace α) (results : List (Tensor α)) :
    (Plan.identity t).combine results ≠ .error .aborted := by
  refine bind_ne_error (ite_answers nofun nofun) fun _ harity => ?_
  cases results with
  | nil => cases harity
  | cons r rest => exact nofun

section Results

variable [Zero α]

/-- A batch is packed only if there is a result for each measurement. -/
theorem packBatch_answers (t : Trace α) (shots : Option ℕ) (results : List (Tensor α)) :
    t.packBatch shots results ≠ .error .aborted := by
  refine bind_ne_error (fun h => packing_answers t shots ?_) fun shapes _ =>
    bind_ne_error ?_ fun _ hcheck => ?_
  · unfold Trace.packing
    rw [h]
    rfl
  · unfold Trace.checkResults
    split
    · exact nofun
    · split <;> exact nofun
  · have hlength : results.length = shapes.length := by
      by_contra hne
      unfold Trace.checkResults at hcheck
      rw [if_pos hne] at hcheck
      cases hcheck
    unfold Packing.pack
    split
    · exact nofun
    · -- one shape, and so not without a result
      next hshape =>
      cases shapes with
      | nil => cases hshape
      | cons shape rest => cases hlength
    · exact stack_answers _
    · exact nofun

theorem packResults_answers (t : Trace α) (results : List (List (Tensor α))) :
    t.packResults results ≠ .error .aborted := by
  unfold Trace.packResults
  dsimp only
  split
  · exact nofun
  · refine bind_ne_error (mapM_ne_error fun e _ => packBatch_answers t e.2 e.1) fun packed _ => ?_
    split
    · exact nofun
    · exact stack_answers _

end Results

/-! ## Derivatives and splittings -/

theorem shiftColumns_answers {derivative : ShiftRule α → List (Tensor α) → Except Error (Tensor α)}
    (h : ∀ rule own, derivative rule own ≠ .error .aborted) (rules : List (ShiftRule α))
    (results : List (Tensor α)) :
    ParameterShift.columns derivative rules results ≠ .error .aborted := by
  induction rules generalizing results with
  | nil => exact nofun
  | cons rule rest ih =>
    exact bind_ne_error (h _ _) fun _ _ => bind_ne_error (ih _) fun _ _ => nofun

section Plans

variable [Scalar α]

theorem shiftRule_answers (t : Trace α) (i : ℕ) (step : α) :
    t.shiftRule i step ≠ .error .aborted := by
  unfold Trace.shiftRule
  split
  · exact nofun
  · split
    · exact nofun
    · split <;> exact nofun

theorem differenceTraces_answers (t : Trace α) (c : DifferenceConfig α) (selected : List ℕ) :
    FiniteDifference.traces t c selected ≠ .error .aborted :=
  bind_ne_error (mapM_ne_error fun _ _ => mapM_ne_error fun _ _ => withParam_answers t _ _)
    fun _ _ => nofun

theorem quotients_answers {scheme : DifferenceScheme} {results : List (Tensor α)}
    (h : scheme ≠ .central → results ≠ []) (step : α) :
    FiniteDifference.columns scheme step results ≠ .error .aborted := by
  have hpairs : ∀ results : List (Tensor α),
      FiniteDifference.pairs step results ≠ .error .aborted := by
    intro results
    fun_induction FiniteDifference.pairs step results with
    | case1 a b rest ih =>
      exact bind_ne_error (linearCombination_answers _ _) fun _ _ =>
        bind_ne_error ih fun _ _ => nofun
    | case2 a => exact bind_ne_error (linearCombination_answers _ _) fun _ _ => nofun
    | case3 => exact nofun
  have hquotient (upper lower : Tensor α) :
      FiniteDifference.quotient step upper lower ≠ .error .aborted :=
    bind_ne_error (bind_ne_error (ite_answers nofun nofun) fun _ _ => nofun) fun _ _ => nofun
  unfold FiniteDifference.columns
  split
  · exact hpairs results
  · exact mapM_ne_error fun _ _ => hquotient _ _
  · exact mapM_ne_error fun _ _ => hquotient _ _
  · next hscheme => exact absurd rfl (h hscheme)

theorem splittingPlan_answers (t : Trace α) (shares : List (Share α)) (groups : List (List ℕ)) :
    Splitting.plan t shares groups ≠ .error .aborted :=
  bind_ne_error (mapM_ne_error fun _ _ => bind_ne_error (check_answers _) fun _ _ => nofun)
    fun _ _ => nofun

end Plans

end Proofs

end CircuitGrad
