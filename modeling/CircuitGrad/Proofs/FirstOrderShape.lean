import CircuitGrad.Proofs.ShiftDerivative
import CircuitGrad.Proofs.ShotBatches

/-! # Shapes of first derivatives

    The plan of first derivatives folds results of one shape to a tensor with
    one more dimension, one entry for each selected parameter.  For results of
    the shape of the trace's output this is always so.  A shift rule without
    terms gives a column of zeros of the output's shape whatever the shape of
    the results, so for results of another shape it takes rules that all have
    terms (`shifts_fold_shape`, `of_shifts_fold`).  Difference quotients fold
    results of any shape (`differences_fold_shape`).
-/

namespace CircuitGrad

variable {α : Type}

/-- No variance is measured, so results are linear in the state. -/
def Trace.Linear (t : Trace α) : Prop := ∀ m ∈ t.measurements, m.readout ≠ .variance

/-- What a derivative of a trace looks like is the same for both traces: the shape
    of their outputs, their trainable parameters, and whether a variance is measured. -/
structure Trace.Resembles (t u : Trace α) : Prop where
  outputShape      : u.outputShape = t.outputShape
  trainableIndices : u.trainableIndices = t.trainableIndices
  linear           : t.Linear → u.Linear

/-- Every selected parameter has a shift rule with terms; difference quotients are
    never without. -/
def GradientMethod.HasTerms [Scalar α] (method : GradientMethod α) (t : Trace α) : Prop :=
  match method with
  | .parameterShift c => ∀ selected, t.selectTrainable c.parameters = .ok selected →
      ∀ i ∈ selected, ∀ rule, t.shiftRule i c.step = .ok rule → rule.terms ≠ []
  | .finiteDifference _ => True

namespace Proofs

/-! ## Traces that resemble each other -/

theorem resembles_refl (t : Trace α) : t.Resembles t := ⟨rfl, rfl, id⟩

theorem resembles_trans {t u v : Trace α} (htu : t.Resembles u) (huv : u.Resembles v) :
    t.Resembles v :=
  ⟨huv.outputShape.trans htu.outputShape, huv.trainableIndices.trans htu.trainableIndices,
    fun h => huv.linear (htu.linear h)⟩

theorem selectTrainable_of_resembles {t u : Trace α} (h : t.Resembles u)
    (positions : Option (List ℕ)) : u.selectTrainable positions = t.selectTrainable positions := by
  unfold Trace.selectTrainable
  rw [h.trainableIndices]

/-- Operations do not enter the shape of the output. -/
theorem outputShape_operations (t : Trace α) (operations : List (Operation α)) :
    ({ t with operations } : Trace α).outputShape = t.outputShape := rfl

theorem isTrainable_withParam (op : Operation α) (p : ℕ) (x : α) :
    (op.withParam p x).params.map (·.isTrainable) = op.params.map (·.isTrainable) := by
  refine List.ext_getElem? fun i => ?_
  unfold Operation.withParam
  rw [List.getElem?_map, List.getElem?_map, List.getElem?_modify]
  by_cases hi : p = i
  · simp [hi, Function.comp_def, Jet.withValue, Jet.isTrainable]
  · simp [hi]

/-- A parameter stays trainable or constant when it is bound to another value. -/
theorem isTrainable_modify (ops : List (Operation α)) (o p : ℕ) (x : α) :
    ((ops.modify o (·.withParam p x)).flatMap (·.params)).map (·.isTrainable) =
      (ops.flatMap (·.params)).map (·.isTrainable) := by
  induction ops generalizing o with
  | nil => cases o <;> rfl
  | cons op rest ih =>
    cases o with
    | zero =>
      rw [List.modify_zero_cons, List.flatMap_cons, List.flatMap_cons, List.map_append,
        List.map_append, isTrainable_withParam]
    | succ o =>
      rw [List.modify_succ_cons, List.flatMap_cons, List.flatMap_cons, List.map_append,
        List.map_append, ih]

theorem resembles_withParam {t u : Trace α} {i : ℕ} {x : α} (h : t.withParam i x = .ok u) :
    t.Resembles u := by
  unfold Trace.withParam at h
  split at h
  · cases h
  · next o p _ =>
    obtain rfl := Except.ok.inj h
    refine ⟨outputShape_operations t _, ?_, id⟩
    rw [trainableIndices_eq, trainableIndices_eq]
    exact congrArg (fun flags : List Bool => (flags.zipIdx.filter (·.1)).map (·.2))
      (isTrainable_modify t.operations o p x)

/-- Means and variances are single numbers. -/
theorem outputShape_meanOf (m : Measurement α) (n : ℕ) (shots : Option ℕ) :
    (meanOf m).outputShape n shots = m.outputShape n shots := by
  unfold meanOf
  by_cases hvariance : m.readout = .variance
  · rw [if_pos hvariance]
    unfold Measurement.outputShape Measurement.withReadout
    rw [hvariance]
  · rw [if_neg hvariance]

theorem measurementShapes_meansOf (t : Trace α) (shots : Option ℕ) :
    (meansOf t).measurementShapes shots = t.measurementShapes shots := by
  unfold Trace.measurementShapes meansOf
  rw [List.mapM_map]
  exact congrArg (List.mapM · t.measurements) (funext fun m => outputShape_meanOf m _ _)

theorem outputShape_meansOf (t : Trace α) : (meansOf t).outputShape = t.outputShape := by
  have hshots : (meansOf t).shots = t.shots := rfl
  unfold Trace.outputShape Trace.packing
  simp only [measurementShapes_meansOf, hshots]

theorem resembles_withMeans {t u : Trace α} (h : t.withMeans = .ok u) : t.Resembles u := by
  obtain ⟨rfl, -⟩ := check_eq_ok_iff.mp h
  refine ⟨outputShape_meansOf t, rfl, ?_⟩
  intro _ m hm
  obtain ⟨m', -, rfl⟩ := List.mem_map.mp hm
  by_cases hvariance : m'.readout = .variance
  · simp [hvariance, Measurement.withReadout]
  · simp [hvariance]

/-! ## Chained variances -/

section Chained

variable [Scalar α] {ds ms : List (Tensor α)}

/-- Chaining some of the derivatives keeps their shapes. -/
theorem chained_shapes (vs : List ℕ) (first : ℕ) (h : ds.map (·.shape) = ms.map (·.shape)) :
    ∃ cs, (((ds.zip ms).zipIdx first).mapM fun ((d, m), j) =>
        if vs.contains j then (do return (← d.mul m).scale (-2.0) : Except Error (Tensor α))
        else return d) = .ok cs ∧ cs.map (·.shape) = ds.map (·.shape) := by
  induction ds generalizing ms first with
  | nil => exact ⟨[], rfl, rfl⟩
  | cons d ds ih =>
    obtain ⟨m, ms, rfl, hm, hms⟩ := List.map_eq_cons_iff.mp h.symm
    obtain ⟨cs, hcs, hshapes⟩ := ih (first + 1) hms.symm
    have hcheck : Tensor.checkShape "mul" d.shape m.shape = .ok () := if_pos hm.symm
    have hone : ∃ c, (if vs.contains first then
        (do return (← d.mul m).scale (-2.0) : Except Error (Tensor α)) else return d) = .ok c ∧
          c.shape = d.shape := by
      by_cases hchained : vs.contains first = true
      · rw [if_pos hchained]
        unfold Tensor.mul
        rw [hcheck]
        exact ⟨_, rfl, rfl⟩
      · rw [if_neg hchained]
        exact ⟨d, rfl, rfl⟩
    obtain ⟨c, hc, hshape⟩ := hone
    refine ⟨c :: cs, ?_, by rw [List.map_cons, List.map_cons, hshape, hshapes]⟩
    rw [List.zip_cons_cons, List.zipIdx_cons, List.mapM_cons]
    simp only [hc, hcs]
    rfl

/-- The same in every batch of shots. -/
theorem chained_batches (vs : List ℕ) {dss mss : List (List (Tensor α))}
    (h : dss.map (fun ds => ds.map (·.shape)) = mss.map (fun ms => ms.map (·.shape))) :
    ∃ css, ((dss.zip mss).mapM fun ((ds, ms) : List (Tensor α) × List (Tensor α)) =>
        (ds.zip ms).zipIdx.mapM fun (((d, m), j) : (Tensor α × Tensor α) × ℕ) =>
          if vs.contains j then (do return (← d.mul m).scale (-2.0) : Except Error (Tensor α))
          else return d) = .ok css ∧
      css.map (fun cs => cs.map (·.shape)) = dss.map (fun ds => ds.map (·.shape)) := by
  induction dss generalizing mss with
  | nil => exact ⟨[], rfl, rfl⟩
  | cons ds dss ih =>
    obtain ⟨ms, mss, rfl, hms, hmss⟩ := List.map_eq_cons_iff.mp h.symm
    obtain ⟨cs, hcs, hshapes⟩ := chained_shapes vs 0 hms.symm
    obtain ⟨css, hcss, hothers⟩ := ih hmss.symm
    refine ⟨cs :: css, ?_, by rw [List.map_cons, List.map_cons, hshapes, hothers]⟩
    rw [List.zip_cons_cons, List.mapM_cons]
    simp only [hcs, hcss]
    rfl

/-- The chain rule of variances keeps the shape of the output. -/
theorem chainVariance_shape {base : Trace α} {vs : List ℕ} {shape : List ℕ} {mean d : Tensor α}
    (h : base.outputShape = .ok shape) (hmean : mean.shape = shape) (hd : d.shape = shape) :
    ∃ T, ParameterShift.chainVariance base vs mean d = .ok T ∧ T.shape = shape := by
  obtain ⟨shapes, own, hshapes, -⟩ := batchShapes_of_outputShape h
  obtain ⟨dss, hunpackD, hdss, -⟩ := unpackResult_shapes h hshapes hd
  obtain ⟨mss, hunpackM, hmss, -⟩ := unpackResult_shapes h hshapes hmean
  obtain ⟨css, hchained, hcss⟩ := chained_batches vs (hdss.trans hmss.symm)
  obtain ⟨T, hpack, hT, -⟩ := packResults_shape h hshapes (hcss.trans hdss)
  refine ⟨T, ?_, hT⟩
  unfold ParameterShift.chainVariance
  rw [hunpackD, ok_bind, hunpackM, ok_bind]
  simp only [hchained]
  exact hpack

end Chained

/-! ## Sums and stacks -/

section Sums

variable [Scalar α] {cs : List α} {ts : List (Tensor α)} {T : Tensor α}

theorem shapes_of_linearCombination (h : Tensor.linearCombination cs ts = .ok T) :
    ∀ t ∈ ts, t.shape = T.shape := by
  unfold Tensor.linearCombination at h
  split at h
  · cases h
  · cases ts with
    | nil => cases h
    | cons first rest =>
      obtain ⟨_, hcheck, h⟩ := bind_eq_ok h
      obtain rfl := Except.ok.inj h
      exact shapes_of_forM hcheck

theorem shapes_of_stackTrailing (h : Tensor.stackTrailing ts = .ok T) :
    ∀ t ∈ ts, T.shape = t.shape ++ [ts.length] := by
  unfold Tensor.stackTrailing at h
  cases ts with
  | nil => cases h
  | cons first rest =>
    obtain ⟨_, hcheck, h⟩ := bind_eq_ok h
    obtain rfl := Except.ok.inj h
    intro t ht
    rw [shapes_of_forM hcheck t ht]
    simp

end Sums

/-! ## The plan of the shift rule -/

section Columns

variable {shape : List ℕ} {rules : List (ShiftRule α)} {rs ds : List (Tensor α)}
  {derivative : ShiftRule α → List (Tensor α) → Except Error (Tensor α)}

/-- Columns of one shape, from results of one shape. -/
theorem columns_shapes (hrs : ∀ r ∈ rs, r.shape = shape)
    (hlength : (rules.map (·.terms.length)).sum ≤ rs.length)
    (hcolumn : ∀ rule ∈ rules, ∀ own, own.length = rule.terms.length →
      (∀ r ∈ own, r.shape = shape) → ∃ d, derivative rule own = .ok d ∧ d.shape = shape) :
    ∃ ds, ParameterShift.columns derivative rules rs = .ok ds ∧ ds.length = rules.length ∧
      ∀ d ∈ ds, d.shape = shape := by
  induction rules generalizing rs with
  | nil => exact ⟨[], rfl, rfl, by simp⟩
  | cons rule rules ih =>
    obtain ⟨hfirst, hrest⟩ := List.forall_mem_cons.mp hcolumn
    rw [List.map_cons, List.sum_cons] at hlength
    obtain ⟨d, hd, hshape⟩ := hfirst (rs.take rule.terms.length)
      (List.length_take_of_le (by omega)) fun r hr => hrs r (List.mem_of_mem_take hr)
    have hothers : ∀ r ∈ rs.drop rule.terms.length, r.shape = shape := fun r hr =>
      hrs r (List.mem_of_mem_drop hr)
    obtain ⟨ds, hds, hcount, hshapes⟩ := ih hothers (by rw [List.length_drop]; omega) hrest
    refine ⟨d :: ds, ?_, congrArg (· + 1) hcount, List.forall_mem_cons.mpr ⟨hshape, hshapes⟩⟩
    rw [ParameterShift.columns, hd, hds]
    rfl

/-- Where every column shows a rule with terms and results of the column's shape, all
    rules have terms and all results that shape. -/
theorem of_columns (h : ParameterShift.columns derivative rules rs = .ok ds)
    (hlength : (rules.map (·.terms.length)).sum = rs.length) (hds : ∀ d ∈ ds, d.shape = shape)
    (hcolumn : ∀ rule own d, derivative rule own = .ok d → d.shape = shape →
      rule.terms ≠ [] ∧ ∀ r ∈ own, r.shape = shape) :
    (∀ rule ∈ rules, rule.terms ≠ []) ∧ ∀ r ∈ rs, r.shape = shape := by
  induction rules generalizing rs ds with
  | nil =>
    obtain rfl := List.eq_nil_of_length_eq_zero hlength.symm
    simp
  | cons rule rules ih =>
    rw [List.map_cons, List.sum_cons] at hlength
    rw [ParameterShift.columns] at h
    obtain ⟨d, hd, h⟩ := bind_eq_ok h
    obtain ⟨ds', hds', h⟩ := bind_eq_ok h
    obtain rfl := Except.ok.inj h
    obtain ⟨hshape, hshapes⟩ := List.forall_mem_cons.mp hds
    obtain ⟨hterms, hown⟩ := hcolumn rule _ d hd hshape
    obtain ⟨hothers, hrest⟩ := ih hds' (by rw [List.length_drop]; omega) hshapes
    refine ⟨List.forall_mem_cons.mpr ⟨hterms, hothers⟩, fun r hr => ?_⟩
    rw [← List.take_append_drop rule.terms.length rs] at hr
    exact (List.mem_append.mp hr).elim (hown r) (hrest r)

end Columns

section Shifts

variable [Scalar α] {shape : List ℕ} {rules : List (ShiftRule α)} {rs : List (Tensor α)}

/-- A rule without terms gives a column of the output's shape, and any other keeps the
    shape of its results. -/
theorem weighted_shape {out : List ℕ} {rule : ShiftRule α} {own : List (Tensor α)}
    (hlength : own.length = rule.terms.length) (hown : ∀ r ∈ own, r.shape = shape)
    (h : shape = out ∨ rule.terms ≠ []) :
    ∃ d, ParameterShift.weighted out rule own = .ok d ∧ d.shape = shape := by
  unfold ParameterShift.weighted
  by_cases hempty : rule.terms = []
  · obtain rfl := h.resolve_right (not_not.mpr hempty)
    rw [if_pos (List.isEmpty_iff.mpr hempty)]
    exact ⟨_, rfl, rfl⟩
  · rw [if_neg (fun hnil => hempty (List.isEmpty_iff.mp hnil))]
    exact linearCombination_shape (by rw [List.length_map, hlength])
      (ne_nil_of_length_eq hlength hempty) hown

theorem of_weighted {out : List ℕ} {rule : ShiftRule α} {own : List (Tensor α)} {d : Tensor α}
    (h : ParameterShift.weighted out rule own = .ok d) (hd : d.shape = shape)
    (hne : shape ≠ out) : rule.terms ≠ [] ∧ ∀ r ∈ own, r.shape = shape := by
  unfold ParameterShift.weighted at h
  by_cases hempty : rule.terms = []
  · rw [if_pos (List.isEmpty_iff.mpr hempty)] at h
    obtain rfl := Except.ok.inj h
    exact absurd hd.symm hne
  · rw [if_neg (fun hnil => hempty (List.isEmpty_iff.mp hnil))] at h
    refine ⟨hempty, fun r hr => ?_⟩
    rw [shapes_of_linearCombination h r hr, hd]

/-- There is one shifted trace per term. -/
theorem lengths_shifted {base : Trace α} {selected : List ℕ} {shifted : List (List (Trace α))}
    (hrules : rules.length = selected.length)
    (h : (selected.zip rules).mapM (fun (i, rule) => base.shifted i rule) = .ok shifted) :
    shifted.map List.length = rules.map (·.terms.length) := by
  have hlengths : shifted.map List.length =
      (selected.zip rules).map fun e => e.2.terms.length :=
    map_of_mapM (fun e us hus => length_of_mapM hus) h
  rw [hlengths, ← Function.comp_def (fun rule : ShiftRule α => rule.terms.length) Prod.snd,
    ← List.map_map, List.map_snd_zip hrules.le]

theorem length_shifted {base : Trace α} {selected : List ℕ} {shifted : List (List (Trace α))}
    (hrules : rules.length = selected.length)
    (h : (selected.zip rules).mapM (fun (i, rule) => base.shifted i rule) = .ok shifted) :
    shifted.flatten.length = (rules.map (·.terms.length)).sum := by
  rw [List.length_flatten, lengths_shifted hrules h]

section Plans

variable {t : Trace α} {c : ShiftConfig α} {p : Plan α} {selected out : List ℕ}

/-- Without variances nothing is chained. -/
theorem linear_plan_eq_ok (hplan : ParameterShift.plan t c = .ok p) (hlinear : t.Linear)
    (hselected : t.selectTrainable c.parameters = .ok selected) (hne : selected ≠ [])
    (hout : t.outputShape = .ok out) :
    ∃ rules shifted, selected.mapM (fun i => t.shiftRule i c.step) = .ok rules ∧
      (selected.zip rules).mapM (fun (i, rule) => t.shifted i rule) = .ok shifted ∧
      p.traces = shifted.flatten ∧ ∀ results, results.length = p.traces.length →
        p.fold results = ParameterShift.columns (ParameterShift.weighted out) rules results >>=
          Tensor.stackTrailing := by
  obtain ⟨selected', vs, base, rules, shifted, out', hselected', hvs, hbase, hout', hrules,
    hshifted, htraces, hfold⟩ := plan_eq_ok hplan
  obtain rfl : selected = selected' := Except.ok.inj (hselected.symm.trans hselected')
  obtain rfl : out = out' := Except.ok.inj (hout.symm.trans hout')
  have hempty := (variances_isEmpty hvs).mpr hlinear
  rw [if_pos hempty] at hbase
  obtain rfl : t = base := Except.ok.inj hbase
  have hrulesNe : rules ≠ [] := ne_nil_of_length_eq (length_of_mapM hrules) hne
  have hcolumn : ∀ results, columnOf t vs (!vs.isEmpty && !rules.isEmpty) out results =
      ParameterShift.weighted out := by
    intro results
    funext rule own
    unfold columnOf
    rw [hempty]
    cases results.getLast? <;> exact bind_pure _
  refine ⟨rules, shifted, hrules, hshifted, ?_, fun results hlength => ?_⟩
  · rw [htraces, hempty]
    exact List.append_nil _
  · rw [hfold results hlength hrulesNe, hcolumn]

/-- The traces of the plan are what is shifted, at the values of the trace or at others. -/
theorem of_mem_shifts (hplan : ParameterShift.plan t c = .ok p) {u : Trace α}
    (hu : u ∈ p.traces) : ∃ vs base, t.variances = .ok vs ∧
      (if vs.isEmpty then .ok t else t.withMeans) = .ok base ∧
      (u = base ∨ ∃ i x, base.withParam i x = .ok u) := by
  obtain ⟨selected, vs, base, rules, shifted, shape, -, hvs, hbase, -, -, hshifted, htraces, -⟩ :=
    plan_eq_ok hplan
  refine ⟨vs, base, hvs, hbase, ?_⟩
  rw [htraces] at hu
  rcases List.mem_append.mp hu with hu | hu
  · obtain ⟨us, hus, hu⟩ := List.mem_flatten.mp hu
    obtain ⟨e, -, he⟩ := mem_of_mapM hshifted hus
    obtain ⟨term, -, hterm⟩ := mem_of_mapM he hu
    exact .inr ⟨_, _, hterm⟩
  · split at hu
    · exact .inl (List.mem_singleton.mp hu)
    · cases hu

/-- The traces of the plan resemble the trace. -/
theorem resembles_of_mem_shifts (hplan : ParameterShift.plan t c = .ok p) {u : Trace α}
    (hu : u ∈ p.traces) : t.Resembles u := by
  obtain ⟨vs, base, -, hbase, hu⟩ := of_mem_shifts hplan hu
  have hresembles : t.Resembles base := by
    split at hbase
    · obtain rfl := Except.ok.inj hbase
      exact resembles_refl t
    · exact resembles_withMeans hbase
  rcases hu with rfl | ⟨i, x, hx⟩
  · exact hresembles
  · exact resembles_trans hresembles (resembles_withParam hx)

/-- Results of one shape are folded to a tensor with one more dimension, if the shape
    is that of the output or every rule has terms. -/
theorem shifts_fold_shape (hplan : ParameterShift.plan t c = .ok p)
    (hselected : t.selectTrainable c.parameters = .ok selected) (hne : selected ≠ [])
    (hout : t.outputShape = .ok out) (hlength : rs.length = p.traces.length)
    (hrs : ∀ r ∈ rs, r.shape = shape)
    (h : shape = out ∨ t.Linear ∧ (GradientMethod.parameterShift c).HasTerms t) :
    ∃ T, p.fold rs = .ok T ∧ T.shape = shape ++ [selected.length] := by
  obtain ⟨selected', vs, base, rules, shifted, out', hselected', hvs, hbase, hout', hrules,
    hshifted, htraces, hfold⟩ := plan_eq_ok hplan
  obtain rfl : selected = selected' := Except.ok.inj (hselected.symm.trans hselected')
  obtain rfl : out = out' := Except.ok.inj (hout.symm.trans hout')
  have hcount := length_of_mapM hrules
  have hrulesNe : rules ≠ [] := ne_nil_of_length_eq hcount hne
  have hsum : (rules.map (·.terms.length)).sum ≤ rs.length := by
    rw [hlength, htraces, List.length_append, length_shifted hcount hshifted]
    omega
  have hcolumn : ∀ rule ∈ rules, ∀ own, own.length = rule.terms.length →
      (∀ r ∈ own, r.shape = shape) → ∃ d, columnOf base vs (!vs.isEmpty && !rules.isEmpty) out rs
        rule own = .ok d ∧ d.shape = shape := by
    intro rule hrule own hown hshapes
    have hterms : shape = out ∨ rule.terms ≠ [] := by
      refine h.imp_right fun hlinear => ?_
      obtain ⟨i, hi, hi'⟩ := mem_of_mapM hrules hrule
      exact hlinear.2 selected hselected i hi rule hi'
    obtain ⟨d, hd, hdshape⟩ := weighted_shape hown hshapes hterms
    unfold columnOf
    rw [hd, ok_bind]
    cases hlast : rs.getLast? with
    | none => exact ⟨d, rfl, hdshape⟩
    | some mean =>
      by_cases hempty : vs.isEmpty = true
      · simp only [hempty, Bool.not_true, Bool.false_and]
        exact ⟨d, rfl, hdshape⟩
      -- A variance is measured, so the results have the shape of the output.
      · have hshape : shape = out := by
          refine h.resolve_right fun hlinear => hempty ?_
          exact (variances_isEmpty hvs).mpr hlinear.1
        subst hshape
        rw [if_neg hempty] at hbase
        have hbaseShape := (resembles_withMeans hbase).outputShape.trans hout
        have hmean := hrs mean (List.mem_of_getLast? hlast)
        simp only [hempty, List.isEmpty_eq_false_iff.mpr hrulesNe, Bool.not_false, Bool.and_self,
          if_true]
        exact chainVariance_shape hbaseShape hmean hdshape
  obtain ⟨ds, hds, hdsLength, hdsShape⟩ := columns_shapes hrs hsum hcolumn
  have hdsNe : ds ≠ [] := ne_nil_of_length_eq hdsLength hrulesNe
  obtain ⟨T, hT, hTshape, -⟩ := stackTrailing_eq hdsNe hdsShape
  refine ⟨T, ?_, by rw [hTshape, hdsLength, hcount]⟩
  rw [hfold rs hlength hrulesNe, hds]
  exact hT

/-- What is folded to a tensor with one more dimension than results of another shape
    than the output, are results of one shape, by rules that have terms. -/
theorem of_shifts_fold (hplan : ParameterShift.plan t c = .ok p) (hlinear : t.Linear)
    (hselected : t.selectTrainable c.parameters = .ok selected) (hne : selected ≠ [])
    (hout : t.outputShape = .ok out) (hlength : rs.length = p.traces.length)
    {T : Tensor α} (hfold : p.fold rs = .ok T) (hT : T.shape = shape ++ [selected.length])
    (hshape : shape ≠ out) :
    (GradientMethod.parameterShift c).HasTerms t ∧ ∀ r ∈ rs, r.shape = shape := by
  obtain ⟨rules, shifted, hrules, hshifted, htraces, hfold'⟩ :=
    linear_plan_eq_ok hplan hlinear hselected hne hout
  have hsum : (rules.map (·.terms.length)).sum = rs.length := by
    rw [hlength, htraces, length_shifted (length_of_mapM hrules) hshifted]
  rw [hfold' rs hlength] at hfold
  obtain ⟨ds, hds, hstack⟩ := bind_eq_ok hfold
  have hdsShape : ∀ d ∈ ds, d.shape = shape := by
    intro d hd
    have hd := (shapes_of_stackTrailing hstack d hd).symm.trans hT
    exact (List.append_inj' hd rfl).1
  obtain ⟨hterms, hrs⟩ := of_columns hds hsum hdsShape fun rule own d hd hdshape =>
    of_weighted hd hdshape hshape
  refine ⟨?_, hrs⟩
  intro selected' hselected' i hi rule hrule
  obtain rfl : selected = selected' := Except.ok.inj (hselected.symm.trans hselected')
  exact hterms rule (mem_results_of_mapM hrules hi hrule)

end Plans

end Shifts

/-! ## The plan of difference quotients -/

/-- Quotients with the result at the point itself. -/
theorem quotients_shapes {shape : List ℕ} {rs : List (Tensor α)}
    {quotient : Tensor α → Except Error (Tensor α)}
    (hrs : ∀ r ∈ rs, r.shape = shape)
    (hquotient : ∀ r : Tensor α, r.shape = shape → ∃ d, quotient r = .ok d ∧ d.shape = shape) :
    ∃ ds, rs.mapM quotient = .ok ds ∧ ds.length = rs.length ∧ ∀ d ∈ ds, d.shape = shape := by
  obtain ⟨ds, hds⟩ := exists_mapM_eq_ok (f := quotient) fun r hr =>
    (hquotient r (hrs r hr)).imp fun _ => And.left
  refine ⟨ds, hds, length_of_mapM hds, ?_⟩
  intro d hd
  obtain ⟨r, hr, hrd⟩ := mem_of_mapM hds hd
  obtain ⟨d', hd', hshape⟩ := hquotient r (hrs r hr)
  obtain rfl := Except.ok.inj (hrd.symm.trans hd')
  exact hshape

section Differences

variable [Scalar α] {shape : List ℕ} {h : α} {rs : List (Tensor α)}

/-- Results in pairs give one quotient per pair. -/
theorem pairs_shapes (n : ℕ) (hlength : rs.length = n * 2) (hrs : ∀ r ∈ rs, r.shape = shape) :
    ∃ ds, FiniteDifference.pairs h rs = .ok ds ∧ ds.length = n ∧ ∀ d ∈ ds, d.shape = shape := by
  induction n generalizing rs with
  | zero =>
    obtain rfl := List.eq_nil_of_length_eq_zero (by simpa using hlength)
    exact ⟨[], rfl, rfl, by simp⟩
  | succ n ih =>
    match rs, hlength with
    | [], hnil => simp at hnil
    | [_], hone => simp at hone; omega
    | a :: b :: rest, hmany =>
      have hrest : rest.length = n * 2 := by
        simp only [List.length_cons] at hmany
        omega
      obtain ⟨hpair, hothers⟩ := List.forall_mem_append.mp
        (show ∀ r ∈ [a, b] ++ rest, r.shape = shape from hrs)
      have hcount : [0.5 / h, -(0.5 / h)].length = [a, b].length := rfl
      obtain ⟨d, hd, hshape⟩ := linearCombination_shape hcount (List.cons_ne_nil a [b]) hpair
      obtain ⟨ds, hds, hcount, hshapes⟩ := ih hrest hothers
      refine ⟨d :: ds, ?_, congrArg (· + 1) hcount, List.forall_mem_cons.mpr ⟨hshape, hshapes⟩⟩
      rw [FiniteDifference.pairs, hd, hds]
      rfl

theorem quotient_shape {a b : Tensor α} (ha : a.shape = shape) (hb : b.shape = shape) :
    ∃ d, FiniteDifference.quotient h a b = .ok d ∧ d.shape = shape := by
  have hcheck : Tensor.checkShape "add" a.shape (b.scale (-1)).shape = .ok () :=
    if_pos (ha.trans hb.symm)
  unfold FiniteDifference.quotient Tensor.add
  rw [hcheck]
  exact ⟨_, rfl, ha⟩

/-- How many neighbours a parameter is evaluated at. -/
def neighbourCount : DifferenceScheme → ℕ
  | .central => 2
  | _ => 1

theorem length_neighbours (scheme : DifferenceScheme) (x : α) :
    (FiniteDifference.neighbours scheme h x).length = neighbourCount scheme := by
  cases scheme <;> rfl

variable {t : Trace α} {c : DifferenceConfig α} {p : Plan α} {selected : List ℕ}

/-- The traces of difference quotients: the point itself, unless both sides are used, and
    the neighbours of each parameter. -/
theorem differences_eq_ok (hplan : FiniteDifference.plan t c = .ok p)
    (hselected : t.selectTrainable c.parameters = .ok selected) (hne : selected ≠ []) :
    ∃ moved, (selected.mapM fun i => (FiniteDifference.neighbours c.scheme c.step
        (t.paramValue i)).mapM (t.withParam i)) = .ok moved ∧
      p.traces = (if c.scheme = .central then [] else [t]) ++ moved.flatten ∧
      (∃ out, t.outputShape = .ok out) ∧
      ∀ results, results.length = p.traces.length → p.fold results =
        FiniteDifference.columns c.scheme c.step results >>= Tensor.stackTrailing := by
  unfold FiniteDifference.plan at hplan
  obtain ⟨_, -, hplan⟩ := bind_eq_ok hplan
  split at hplan
  · cases hplan
  · rw [hselected, ok_bind] at hplan
    obtain ⟨out, hout, hplan⟩ := bind_eq_ok hplan
    rw [if_neg (fun hnil => hne (List.isEmpty_iff.mp hnil))] at hplan
    obtain ⟨traces, htraces, hplan⟩ := bind_eq_ok hplan
    obtain rfl := Except.ok.inj hplan
    obtain ⟨moved, hmoved, htraces⟩ := bind_eq_ok htraces
    refine ⟨moved, hmoved, (Except.ok.inj htraces).symm, ⟨out, hout⟩, ?_⟩
    intro results hlength
    exact if_neg (not_not.mpr hlength)

theorem length_moved {moved : List (List (Trace α))}
    (h : (selected.mapM fun i => (FiniteDifference.neighbours c.scheme c.step
      (t.paramValue i)).mapM (t.withParam i)) = .ok moved) :
    moved.flatten.length = selected.length * neighbourCount c.scheme := by
  have hall : ∀ us ∈ moved, us.length = neighbourCount c.scheme := by
    intro us hus
    obtain ⟨i, -, hi⟩ := mem_of_mapM h hus
    rw [length_of_mapM hi, length_neighbours]
  rw [length_flatten_uniform hall, length_of_mapM h]

theorem resembles_of_mem_differences (hplan : FiniteDifference.plan t c = .ok p)
    (hselected : t.selectTrainable c.parameters = .ok selected) (hne : selected ≠ [])
    {u : Trace α} (hu : u ∈ p.traces) : t.Resembles u := by
  obtain ⟨moved, hmoved, htraces, -⟩ := differences_eq_ok hplan hselected hne
  rw [htraces] at hu
  rcases List.mem_append.mp hu with hu | hu
  · split at hu
    · cases hu
    · obtain rfl := List.mem_singleton.mp hu
      exact resembles_refl u
  · obtain ⟨us, hus, hu⟩ := List.mem_flatten.mp hu
    obtain ⟨i, -, hi⟩ := mem_of_mapM hmoved hus
    obtain ⟨x, -, hx⟩ := mem_of_mapM hi hu
    exact resembles_withParam hx

/-- Results of one shape are folded to a tensor with one more dimension. -/
theorem differences_fold_shape (hplan : FiniteDifference.plan t c = .ok p)
    (hselected : t.selectTrainable c.parameters = .ok selected) (hne : selected ≠ [])
    (hlength : rs.length = p.traces.length) (hrs : ∀ r ∈ rs, r.shape = shape) :
    ∃ T, p.fold rs = .ok T ∧ T.shape = shape ++ [selected.length] := by
  obtain ⟨moved, hmoved, htraces, -, hfold⟩ := differences_eq_ok hplan hselected hne
  rw [htraces, List.length_append, length_moved hmoved] at hlength
  have hcolumns : ∃ ds, FiniteDifference.columns c.scheme c.step rs = .ok ds ∧
      ds.length = selected.length ∧ ∀ d ∈ ds, d.shape = shape := by
    unfold FiniteDifference.columns
    cases hscheme : c.scheme with
    | central =>
      rw [hscheme] at hlength
      exact pairs_shapes selected.length (by simpa [neighbourCount] using hlength) hrs
    | forward =>
      rw [hscheme] at hlength
      obtain ⟨here, moved, rfl⟩ := List.exists_cons_of_length_eq_add_one
        (n := selected.length) (by simpa [neighbourCount, Nat.add_comm] using hlength)
      obtain ⟨hhere, hmoved⟩ := List.forall_mem_cons.mp hrs
      obtain ⟨ds, hds, hcount, hshapes⟩ := quotients_shapes hmoved fun r hr =>
        quotient_shape (h := c.step) hr hhere
      exact ⟨ds, hds, hcount.trans (by simpa [neighbourCount, Nat.add_comm] using hlength), hshapes⟩
    | backward =>
      rw [hscheme] at hlength
      obtain ⟨here, moved, rfl⟩ := List.exists_cons_of_length_eq_add_one
        (n := selected.length) (by simpa [neighbourCount, Nat.add_comm] using hlength)
      obtain ⟨hhere, hmoved⟩ := List.forall_mem_cons.mp hrs
      obtain ⟨ds, hds, hcount, hshapes⟩ := quotients_shapes hmoved fun r hr =>
        quotient_shape (h := c.step) hhere hr
      exact ⟨ds, hds, hcount.trans (by simpa [neighbourCount, Nat.add_comm] using hlength), hshapes⟩
  obtain ⟨ds, hds, hcount, hshapes⟩ := hcolumns
  have hdsNe : ds ≠ [] := ne_nil_of_length_eq hcount hne
  obtain ⟨T, hT, hTshape, -⟩ := stackTrailing_eq hdsNe hshapes
  refine ⟨T, ?_, by rw [hTshape, hcount]⟩
  rw [hfold rs (by rw [hlength, htraces, List.length_append, length_moved hmoved]), hds]
  exact hT

end Differences

end Proofs

end CircuitGrad
