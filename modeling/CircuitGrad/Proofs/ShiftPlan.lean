import Mathlib
import CircuitGrad.Gradient.Differentiator
import CircuitGrad.Proofs.ParameterDerivative
import CircuitGrad.Proofs.PlanAlgebra

/-! # What the plan of a shift rule computes

    The plan executes one shifted trace for each selected parameter and term
    of its rule, and folds the results into one column per parameter: the
    weighted sum of the results of the parameter's own traces (`plan_run`).
    When a variance is measured one more trace gives the means that the
    columns are multiplied with.
-/

namespace CircuitGrad

/-- Execute the traces of a plan and combine their results. -/
def Plan.run (p : Plan ℝ) (execute : Trace ℝ → Except Error (Tensor ℝ)) :
    Except Error (Tensor ℝ) := do
  p.combine (← p.traces.mapM execute)

namespace Proofs

/-! ## Sums and columns of tensors -/

/-- The tensors at the points of a rule, summed with its weights. -/
noncomputable def weightedSum (shape : List ℕ) (rule : ShiftRule ℝ) (x : ℝ) (R : ℝ → Tensor ℝ) :
    Tensor ℝ :=
  .ofFn shape fun o => rule.apply x fun y => (R y).entry o

theorem weighted_eq {shape own : List ℕ} {rule : ShiftRule ℝ} (hterms : rule.terms ≠ []) {x : ℝ}
    {R : ℝ → Tensor ℝ} (hR : ∀ term ∈ rule.terms, (R (term.point x)).shape = own) :
    ParameterShift.weighted shape rule (rule.terms.map fun term => R (term.point x)) =
      .ok (weightedSum own rule x R) := by
  have hempty : rule.terms.isEmpty = false := by simpa using hterms
  unfold ParameterShift.weighted
  rw [hempty, if_neg Bool.false_ne_true, linearCombination_eq hterms hR]
  refine congrArg Except.ok (congrArg (Tensor.ofFn own) (funext fun o => ?_))
  exact (rule_apply_eq rule x fun y => (R y).entry o).symm

/-- Every rule finds its own results, in a stretch as long as the rule. -/
theorem columns_eq {α : Type} [Scalar α]
    {derivative : ShiftRule α → List (Tensor α) → Except Error (Tensor α)}
    {selected : List (ℕ × ShiftRule α)} {own : ℕ × ShiftRule α → List (Tensor α)}
    {column : ℕ × ShiftRule α → Tensor α}
    (hlength : ∀ e ∈ selected, (own e).length = e.2.terms.length)
    (hcolumn : ∀ e ∈ selected, derivative e.2 (own e) = .ok (column e)) (more : List (Tensor α)) :
    ParameterShift.columns derivative (selected.map (·.2)) (selected.flatMap own ++ more) =
      .ok (selected.map column) := by
  induction selected with
  | nil => rfl
  | cons e rest ih =>
    obtain ⟨hfirst, hrest⟩ := List.forall_mem_cons.mp hlength
    obtain ⟨hcolumnFirst, hcolumnRest⟩ := List.forall_mem_cons.mp hcolumn
    -- The first rule takes as many results as it has terms, and leaves the others.
    rw [List.map_cons, ParameterShift.columns, List.flatMap_cons, List.append_assoc, ← hfirst,
      List.take_left, List.drop_left, hcolumnFirst, ih hrest hcolumnRest]
    rfl

/-! ## Variances and means -/

theorem variances_eq_ok {α : Type} {t : Trace α} {vs : List ℕ} (h : t.variances = .ok vs) :
    vs = (t.measurements.zipIdx.filter fun (m, _) => m.readout == .variance).map (·.2) := by
  unfold Trace.variances at h
  by_cases hany : ((t.measurements.zipIdx.filter fun (m, _) => m.readout == .variance).any
      fun (m, _) => m.ofHamiltonian) = true
  · rw [if_pos hany] at h
    cases h
  · rw [if_neg hany] at h
    exact (Except.ok.inj h).symm

theorem contains_variances {α : Type} {t : Trace α} {vs : List ℕ} (h : t.variances = .ok vs)
    {j : ℕ} {m : Measurement α} (hm : t.measurements[j]? = some m) :
    vs.contains j = (m.readout == .variance) := by
  rw [variances_eq_ok h, Bool.eq_iff_iff, List.contains_iff_mem, List.mem_map]
  constructor
  · rintro ⟨⟨m', j'⟩, hmem, rfl⟩
    obtain ⟨hzip, hvariance⟩ := List.mem_filter.mp hmem
    have hm' := List.mem_zipIdx_iff_getElem?.mp hzip
    rw [hm] at hm'
    exact Option.some.inj hm' ▸ hvariance
  · intro hvariance
    exact ⟨(m, j), List.mem_filter.mpr ⟨List.mem_zipIdx_iff_getElem?.mpr hm, hvariance⟩, rfl⟩

theorem variances_isEmpty {α : Type} {t : Trace α} {vs : List ℕ} (h : t.variances = .ok vs) :
    vs.isEmpty = true ↔ ∀ m ∈ t.measurements, m.readout ≠ .variance := by
  rw [List.isEmpty_iff]
  constructor
  · intro hnil m hm hvariance
    obtain ⟨j, hj, rfl⟩ := List.getElem_of_mem hm
    have hcontains := contains_variances h (List.getElem?_eq_getElem hj)
    rw [hnil, hvariance] at hcontains
    cases hcontains
  · intro hall
    rw [variances_eq_ok h, List.map_eq_nil_iff, List.filter_eq_nil_iff]
    rintro ⟨m, j⟩ hmem hvariance
    exact hall m (List.mem_of_getElem? (List.mem_zipIdx_iff_getElem?.mp hmem))
      (by simpa using hvariance)

theorem meansOf_eq_self {t : Trace ℝ} (h : ∀ m ∈ t.measurements, m.readout ≠ .variance) :
    meansOf t = t := by
  have hmap : t.measurements.map meanOf = t.measurements := by
    conv_rhs => rw [← List.map_id t.measurements]
    exact List.map_congr_left fun m hm => if_neg (h m hm)
  unfold meansOf
  rw [hmap]

/-- The trace whose parameters are shifted measures means, and is the trace itself if it does. -/
theorem base_eq_meansOf {t : Trace ℝ} (ht : t.Valid) {vs : List ℕ} (hvs : t.variances = .ok vs) :
    (if vs.isEmpty then .ok t else t.withMeans) = Except.ok (meansOf t) := by
  by_cases hempty : vs.isEmpty = true
  · rw [if_pos hempty, meansOf_eq_self ((variances_isEmpty hvs).mp hempty)]
  · rw [if_neg hempty]
    exact check_eq_ok_iff.mpr ⟨rfl, valid_meansOf ht⟩

theorem isVariance_eq_false {n : ℕ} {ms : List (Measurement ℝ)}
    (h : ∀ m ∈ ms, m.readout ≠ .variance) (o : ℕ) : isVariance n ms o = false := by
  induction ms generalizing o with
  | nil => rfl
  | cons m ms ih =>
    obtain ⟨hm, hrest⟩ := List.forall_mem_cons.mp h
    rw [isVariance]
    split
    · simpa using hm
    · exact ih hrest _

/-! ## The chain rule of variances -/

theorem entry_scale (t : Tensor ℝ) (x : ℝ) (o : ℕ) : (t.scale x).entry o = t.entry o * x := by
  unfold Tensor.scale Tensor.map Tensor.entry
  simp only [Array.getD_eq_getD_getElem?, Array.getElem?_map]
  cases t.data[o]? with
  | none => exact (zero_mul x).symm
  | some y => rfl

/-- The derivative of a variance from those of the mean. -/
theorem mul_scale_eq {a b : Tensor ℝ} (h : a.shape = b.shape) :
    ∃ T, (do return (← a.mul b).scale (-2.0) : Except Error (Tensor ℝ)) = .ok T ∧
      T.shape = a.shape ∧
      ∀ o < Tensor.volume a.shape, T.entry o = a.entry o * b.entry o * (-2) := by
  refine ⟨(Tensor.ofFn a.shape fun i => a.entry i * b.entry i).scale (-2.0), ?_, rfl, ?_⟩
  · have hcheck : Tensor.checkShape "mul" a.shape b.shape = .ok () := if_pos h
    unfold Tensor.mul
    rw [hcheck]
    rfl
  · intro o ho
    rw [entry_scale, Tensor.entry_ofFn ho, show (-2.0 : ℝ) = -2 by norm_num]

/-- One derivative, chained if it is the one of a variance. -/
theorem chainOne_eq {d mean : Tensor ℝ} {shape : List ℕ} (hd : d.shape = shape)
    (hmean : mean.shape = shape) (chained : Bool) : ∃ c, (if chained then
      (do return (← d.mul mean).scale (-2.0) : Except Error (Tensor ℝ)) else return d) = .ok c ∧
      c.shape = shape ∧ ∀ o < Tensor.volume shape,
        c.entry o = if chained then d.entry o * mean.entry o * (-2) else d.entry o := by
  cases chained with
  | false => exact ⟨d, rfl, hd, fun _ _ => rfl⟩
  | true =>
    obtain ⟨c, hc, hshape, hentry⟩ := mul_scale_eq (hd.trans hmean.symm)
    exact ⟨c, hc, hshape.trans hd, fun o ho => hentry o (hd ▸ ho)⟩

/-- The derivatives of variances among those of other results. -/
theorem chained_eq {n : ℕ} {vs : List ℕ} {ms : List (Measurement ℝ)} {ds means : List (Tensor ℝ)}
    (hds : ds.map (·.shape) = ms.map (shapeOf n))
    (hmeans : means.map (·.shape) = ms.map (shapeOf n)) (first : ℕ)
    (hvs : ∀ j m, ms[j]? = some m → vs.contains (first + j) = (m.readout == .variance)) :
    ∃ cs, (((ds.zip means).zipIdx first).mapM fun ((d, m), j) =>
        if vs.contains j then (do return (← d.mul m).scale (-2.0) : Except Error (Tensor ℝ))
        else return d) = .ok cs ∧
      cs.map (·.shape) = ms.map (shapeOf n) ∧
      ∀ o, (cs.flatMap (·.data.toList)).getD o 0 =
        if isVariance n ms o then (ds.flatMap (·.data.toList)).getD o 0 *
          (means.flatMap (·.data.toList)).getD o 0 * (-2)
        else (ds.flatMap (·.data.toList)).getD o 0 := by
  induction ms generalizing ds means first with
  | nil =>
    obtain rfl := List.map_eq_nil_iff.mp hds
    obtain rfl := List.map_eq_nil_iff.mp hmeans
    exact ⟨[], rfl, rfl, fun o => rfl⟩
  | cons m ms ih =>
    obtain ⟨d, ds, rfl, hd, hds⟩ := List.map_eq_cons_iff.mp hds
    obtain ⟨mean, means, rfl, hmean, hmeans⟩ := List.map_eq_cons_iff.mp hmeans
    obtain ⟨cs, hcs, hshapes, hentries⟩ := ih hds hmeans (first + 1) fun j m' hm' => by
      rw [show first + 1 + j = first + (j + 1) by omega]
      exact hvs (j + 1) m' hm'
    have hfirst : vs.contains first = (m.readout == .variance) := hvs 0 m rfl
    -- The first derivative is chained or kept, and the others follow by induction.
    obtain ⟨c, hc, hcshape, hcentry⟩ := chainOne_eq hd hmean (m.readout == .variance)
    rw [← hfirst] at hc
    refine ⟨c :: cs, ?_, by rw [List.map_cons, List.map_cons, hcshape, hshapes], fun o => ?_⟩
    · rw [List.zip_cons_cons, List.zipIdx_cons, List.mapM_cons]
      simp only [hc, hcs]
      rfl
    · rw [getD_data_cons, getD_data_cons, getD_data_cons, hcshape, hd, hmean, isVariance]
      by_cases ho : o < Tensor.volume (shapeOf n m)
      · simp only [if_pos ho]
        exact hcentry o ho
      · simp only [if_neg ho]
        exact hentries _

theorem chainVariance_eq {base : Trace ℝ} (hms : ∀ m ∈ base.measurements, m.Differentiable)
    (hshots : base.shots = .analytic) {vs : List ℕ} {ms : List (Measurement ℝ)}
    (hshapes : base.measurements.map (shapeOf base.register) = ms.map (shapeOf base.register))
    (hvs : ∀ j m, ms[j]? = some m → vs.contains j = (m.readout == .variance))
    {mean d : Tensor ℝ} (hmean : mean.shape = (layoutOf base).shape)
    (hd : d.shape = (layoutOf base).shape) :
    ∃ T, ParameterShift.chainVariance base vs mean d = .ok T ∧ T.shape = (layoutOf base).shape ∧
      ∀ o, T.entry o = if isVariance base.register ms o then d.entry o * mean.entry o * (-2)
        else d.entry o := by
  obtain ⟨ds, hunpackD, hshapesD, hdataD⟩ := unpackResult_eq hms hshots hd
  obtain ⟨means, hunpackM, hshapesM, hdataM⟩ := unpackResult_eq hms hshots hmean
  obtain ⟨cs, hchained, hshapesC, hentries⟩ := chained_eq (hshapesD.trans hshapes)
    (hshapesM.trans hshapes) 0 fun j m hm => by
      rw [Nat.zero_add]
      exact hvs j m hm
  obtain ⟨T, hpack, hshapeT, hdataT⟩ := packResults_eq hms hshots (hshapesC.trans hshapes.symm)
  refine ⟨T, ?_, hshapeT, fun o => ?_⟩
  · unfold ParameterShift.chainVariance
    rw [hunpackD, hunpackM]
    show (do
      let chained ← [(ds, means)].mapM fun (ds, ms) => (ds.zip ms).zipIdx.mapM fun ((d, m), j) =>
        if vs.contains j then return (← d.mul m).scale (-2.0) else return d
      base.packResults chained : Except Error (Tensor ℝ)) = _
    simp only [List.mapM_cons, List.mapM_nil, hchained]
    exact hpack
  · rw [entry_eq_getD, hdataT, hentries, hdataD, hdataM, ← entry_eq_getD, ← entry_eq_getD]

/-! ## The plan -/

/-- The column of a parameter, from the results of its own traces. -/
def columnOf {α : Type} [Scalar α] (base : Trace α) (vs : List ℕ) (chained : Bool)
    (shape : List ℕ) (results : List (Tensor α)) (rule : ShiftRule α) (own : List (Tensor α)) :
    Except Error (Tensor α) := do
  let d ← ParameterShift.weighted shape rule own
  match results.getLast? with
  | some mean => if chained then ParameterShift.chainVariance base vs mean d else return d
  | none => return d

/-- What the plan of first derivatives consists of. -/
theorem plan_eq_ok {α : Type} [Scalar α] {t : Trace α} {c : ShiftConfig α} {p : Plan α}
    (h : ParameterShift.plan t c = .ok p) :
    ∃ selected vs base rules shifted shape, t.selectTrainable c.parameters = .ok selected ∧
      t.variances = .ok vs ∧ (if vs.isEmpty then .ok t else t.withMeans) = .ok base ∧
      t.outputShape = .ok shape ∧ selected.mapM (fun i => t.shiftRule i c.step) = .ok rules ∧
      (selected.zip rules).mapM (fun (i, rule) => base.shifted i rule) = .ok shifted ∧
      p.traces = shifted.flatten ++ (if !vs.isEmpty && !rules.isEmpty then [base] else []) ∧
      ∀ results, results.length = p.traces.length → rules ≠ [] → p.fold results =
        ParameterShift.columns (columnOf base vs (!vs.isEmpty && !rules.isEmpty) shape results)
          rules results >>= Tensor.stackTrailing := by
  unfold ParameterShift.plan at h
  obtain ⟨_, _, h⟩ := bind_eq_ok h
  obtain ⟨selected, hselected, h⟩ := bind_eq_ok h
  obtain ⟨vs, hvs, h⟩ := bind_eq_ok h
  -- What is chosen by the variances is the base; the steps after it are the same.
  have hjoin : ∀ rest : Trace α → Except Error (Plan α),
      (if vs.isEmpty = true then (do let base ← pure t; rest base)
        else do let base ← t.withMeans; rest base) =
      (if vs.isEmpty then .ok t else t.withMeans) >>= rest := by
    intro rest
    split <;> rfl
  obtain ⟨base, hbase, h⟩ := bind_eq_ok ((hjoin _).symm.trans h)
  obtain ⟨rules, hrules, h⟩ := bind_eq_ok h
  obtain ⟨shifted, hshifted, h⟩ := bind_eq_ok h
  obtain ⟨shape, hshape, h⟩ := bind_eq_ok h
  obtain rfl := Except.ok.inj h
  refine ⟨selected, vs, base, rules, shifted, shape, hselected, hvs, hbase, hshape, hrules,
    hshifted, rfl, fun results hlength hne => ?_⟩
  have hempty : ¬rules.isEmpty = true := by simpa using hne
  refine (if_neg (not_not.mpr hlength)).trans ((if_neg hempty).trans ?_)
  refine congrArg (fun derivative => ParameterShift.columns derivative rules results >>=
    Tensor.stackTrailing) (funext fun rule => funext fun own => ?_)
  unfold columnOf
  cases ParameterShift.weighted shape rule own with
  | error e => rfl
  | ok d => cases results.getLast? <;> rfl

/-! ## Running the plan -/

/-- A plan folds the results of its traces. -/
theorem run_eq_fold {p : Plan ℝ} {execute : Trace ℝ → Except Error (Tensor ℝ)}
    {results : List (Tensor ℝ)} (h : p.traces.mapM execute = .ok results) :
    p.run execute = p.fold results := by
  unfold Plan.run
  rw [h]
  exact combine_of_length (length_of_mapM h)

/-- What a trace is executed to. -/
noncomputable def resultOf (execute : Trace ℝ → Except Error (Tensor ℝ)) (t : Trace ℝ) :
    Tensor ℝ :=
  match execute t with
  | .ok T => T
  | .error _ => .zeros []

theorem resultOf_eq {execute : Trace ℝ → Except Error (Tensor ℝ)} {t : Trace ℝ} {T : Tensor ℝ}
    (h : execute t = .ok T) : resultOf execute t = T := by
  unfold resultOf
  rw [h]

/-- Each shift rule is the one of its parameter. -/
theorem ruleAt_of_mem_zip {t : Trace ℝ} (ht : t.Exact) {selected : List ℕ}
    {rules : List (ShiftRule ℝ)} {step : ℝ}
    (hrules : selected.mapM (fun i => t.shiftRule i step) = .ok rules) :
    rules.length = selected.length ∧ ∀ e ∈ selected.zip rules, RuleAt t e.1 e.2 := by
  induction selected generalizing rules with
  | nil =>
    cases hrules
    exact ⟨rfl, by simp⟩
  | cons i selected ih =>
    obtain ⟨rule, rest, hrule, hrest, rfl⟩ := mapM_cons_eq_ok hrules
    obtain ⟨hlength, hall⟩ := ih hrest
    refine ⟨congrArg (· + 1) hlength, ?_⟩
    rw [List.zip_cons_cons, List.forall_mem_cons]
    exact ⟨ruleAt_of_shiftRule ht.standard hrule, hall⟩

/-- What the plan of an exact trace is made from: the selected parameters, of
    which there are some, their rules, and the measured variances. -/
structure Selects (t : Trace ℝ) (c : ShiftConfig ℝ) (selected : List ℕ)
    (rules : List (ShiftRule ℝ)) (vs : List ℕ) : Prop where
  exact      : t.Exact
  selection  : t.selectTrainable c.parameters = .ok selected
  shiftRules : selected.mapM (fun i => t.shiftRule i c.step) = .ok rules
  variances  : t.variances = .ok vs
  nonempty   : selected ≠ []

section Run

variable {t : Trace ℝ} {v : ℕ → ℝ} {c : ShiftConfig ℝ} {p : Plan ℝ} {selected : List ℕ}
  {rules : List (ShiftRule ℝ)} {vs : List ℕ}

theorem Selects.length_rules (h : Selects t c selected rules vs) :
    rules.length = selected.length := (ruleAt_of_mem_zip h.exact h.shiftRules).1

theorem Selects.length_zip (h : Selects t c selected rules vs) :
    (selected.zip rules).length = selected.length := by
  rw [List.length_zip, h.length_rules, Nat.min_self]

theorem Selects.ruleAt (h : Selects t c selected rules vs) :
    ∀ e ∈ selected.zip rules, RuleAt t e.1 e.2 := (ruleAt_of_mem_zip h.exact h.shiftRules).2

/-- The traces for one parameter. -/
noncomputable def ownTraces (t : Trace ℝ) (v : ℕ → ℝ) (e : ℕ × ShiftRule ℝ) : List (Trace ℝ) :=
  e.2.terms.map fun term => (meansOf t).assign (Function.update v e.1 (term.point (v e.1)))

/-- The traces and the fold of the plan at some parameter values. -/
theorem plan_assign (h : Selects t c selected rules vs)
    (hplan : ParameterShift.plan (t.assign v) c = .ok p) :
    p.traces = (selected.zip rules).flatMap (ownTraces t v) ++
        (if vs.isEmpty then [] else [(meansOf t).assign v]) ∧
      ∃ shape, ∀ results, results.length = p.traces.length → p.fold results =
        ParameterShift.columns (columnOf ((meansOf t).assign v) vs (!vs.isEmpty) shape results)
          rules results >>= Tensor.stackTrailing := by
  obtain ⟨selected', vs', base, rules', shifted, shape, hselected', hvs', hbase, -, hrules',
    hshifted, htraces, hfold⟩ := plan_eq_ok hplan
  -- The values do not enter the selection.
  rw [selectTrainable_assign, h.selection] at hselected'
  obtain rfl := Except.ok.inj hselected'
  rw [show (t.assign v).variances = t.variances from rfl, h.variances] at hvs'
  obtain rfl := Except.ok.inj hvs'
  simp only [shiftRule_assign h.exact.standard, h.shiftRules] at hrules'
  obtain rfl := Except.ok.inj hrules'
  have hrulesNe : rules ≠ [] := ne_nil_of_length_eq h.length_rules h.nonempty
  have hchained : (!vs.isEmpty && !rules.isEmpty) = !vs.isEmpty := by
    simp [hrulesNe]
  obtain rfl : base = (meansOf t).assign v :=
    Except.ok.inj (hbase.symm.trans (base_eq_meansOf (exact_assign h.exact v).valid h.variances))
  have hown : shifted = (selected.zip rules).map (ownTraces t v) := by
    have hall : ∀ e ∈ selected.zip rules, (match e with
        | (i, rule) => ((meansOf t).assign v).shifted i rule) = .ok (ownTraces t v e) := by
      intro e he
      obtain ⟨o, q, op, hlocation, -, -⟩ := h.ruleAt e he
      exact shifted_assign (t := meansOf t) hlocation v e.2
    rw [mapM_ok hall] at hshifted
    exact (Except.ok.inj hshifted).symm
  -- The trace of the means comes last, if there is one.
  rw [hchained] at htraces hfold
  refine ⟨?_, shape, fun results hresults => hfold results hresults hrulesNe⟩
  rw [htraces, hown, List.flatMap_def]
  cases vs.isEmpty <;> rfl

section Execution

variable {execute : Trace ℝ → Except Error (Tensor ℝ)} {shape : List ℕ}

/-- What the traces for one parameter are executed to. -/
noncomputable def ownResults (t : Trace ℝ) (v : ℕ → ℝ)
    (execute : Trace ℝ → Except Error (Tensor ℝ)) (e : ℕ × ShiftRule ℝ) : List (Tensor ℝ) :=
  e.2.terms.map fun term =>
    resultOf execute ((meansOf t).assign (Function.update v e.1 (term.point (v e.1))))

/-- The sum of what the traces for one parameter are executed to. -/
noncomputable def ownSum (t : Trace ℝ) (v : ℕ → ℝ)
    (execute : Trace ℝ → Except Error (Tensor ℝ)) (shape : List ℕ) (e : ℕ × ShiftRule ℝ) :
    Tensor ℝ :=
  weightedSum shape e.2 (v e.1) fun x =>
    resultOf execute ((meansOf t).assign (Function.update v e.1 x))

theorem entry_ownSum (t : Trace ℝ) (v : ℕ → ℝ) (e : ℕ × ShiftRule ℝ) {o : ℕ}
    (ho : o < Tensor.volume shape) : (ownSum t v execute shape e).entry o = shiftAt e.2 e.1
      (fun w => (resultOf execute ((meansOf t).assign w)).entry o) v :=
  Tensor.entry_ofFn ho

/-- Every trace is executed to its result, in order. -/
theorem mapM_execute {us : List (Trace ℝ)}
    (h : ∀ u ∈ us, ∃ T, execute u = .ok T ∧ T.shape = shape) :
    us.mapM execute = .ok (us.map (resultOf execute)) ∧
      ∀ u ∈ us, (resultOf execute u).shape = shape := by
  have hresult : ∀ u ∈ us, execute u = .ok (resultOf execute u) ∧
      (resultOf execute u).shape = shape := by
    intro u hu
    obtain ⟨T, hT, hshape⟩ := h u hu
    rw [resultOf_eq hT]
    exact ⟨hT, hshape⟩
  exact ⟨mapM_ok fun u hu => (hresult u hu).1, fun u hu => (hresult u hu).2⟩

/-- The column of a parameter is its own sum, chained where a variance is
    measured; the mean is then the last of all results. -/
theorem columnOf_ownResults {base : Trace ℝ} {e : ℕ × ShiftRule ℝ} (hterms : e.2.terms ≠ [])
    (hown : ∀ T ∈ ownResults t v execute e, T.shape = shape) {results own : List (Tensor ℝ)}
    {mean d : Tensor ℝ} (hresults : results = own ++ if vs.isEmpty then [] else [mean])
    (hd : (if vs.isEmpty then .ok (ownSum t v execute shape e) else
      ParameterShift.chainVariance base vs mean (ownSum t v execute shape e)) = .ok d)
    (shape' : List ℕ) : columnOf base vs (!vs.isEmpty) shape' results e.2
      (ownResults t v execute e) = .ok d := by
  have hsum : ParameterShift.weighted shape' e.2 (ownResults t v execute e) =
      .ok (ownSum t v execute shape e) :=
    weighted_eq (R := fun x => resultOf execute ((meansOf t).assign (Function.update v e.1 x)))
      hterms fun term hterm => hown _ (List.mem_map_of_mem hterm)
  unfold columnOf
  rw [hsum, hresults]
  by_cases hempty : vs.isEmpty = true
  · rw [if_pos hempty] at hd
    rw [hempty]
    cases (own ++ if true then [] else [mean]).getLast? <;> exact hd
  -- The last of the results is the mean that the chain rule reads.
  · have hlast : (own ++ [mean]).getLast? = some mean := by simp
    rw [if_neg hempty] at hd
    rw [if_neg hempty, hlast]
    rw [Bool.not_eq_true] at hempty
    rw [hempty]
    exact hd

theorem map_resultOf_traces (execute : Trace ℝ → Except Error (Tensor ℝ))
    (h : Selects t c selected rules vs) (hplan : ParameterShift.plan (t.assign v) c = .ok p) :
    p.traces.map (resultOf execute) =
      (selected.zip rules).flatMap (ownResults t v execute) ++
        (if vs.isEmpty then [] else [resultOf execute ((meansOf t).assign v)]) := by
  have hown : ∀ e, (ownTraces t v e).map (resultOf execute) = ownResults t v execute e :=
    fun e => List.map_map
  rw [(plan_assign h hplan).1, List.map_append, List.map_flatMap, funext hown]
  cases vs.isEmpty <;> rfl

/-- The plan executes to one column for each selected parameter: the weighted
    sum of the results of the shifted traces, chained where a variance is
    measured. -/
theorem plan_run (h : Selects t c selected rules vs)
    (hplan : ParameterShift.plan (t.assign v) c = .ok p)
    (hexecute : ∀ u ∈ p.traces, ∃ T, execute u = .ok T ∧ T.shape = shape)
    (chain : ℕ → ℝ → ℝ) (hchain : ∀ d : Tensor ℝ, d.shape = shape → ∃ d',
      (if vs.isEmpty then .ok d else ParameterShift.chainVariance ((meansOf t).assign v) vs
        (resultOf execute ((meansOf t).assign v)) d) = .ok d' ∧ d'.shape = shape ∧
      ∀ o < Tensor.volume shape, d'.entry o = chain o (d.entry o)) :
    ∃ T, p.run execute = .ok T ∧ T.shape = shape ++ [selected.length] ∧
      ∀ o < Tensor.volume shape, ∀ e ∈ (selected.zip rules).zipIdx,
        T.entry (o * selected.length + e.2) = chain o (shiftAt e.1.2 e.1.1
          (fun w => (resultOf execute ((meansOf t).assign w)).entry o) v) := by
  obtain ⟨htraces, shape', hfold⟩ := plan_assign h hplan
  obtain ⟨hmap, hshapes⟩ := mapM_execute hexecute
  have hresults := map_resultOf_traces execute h hplan
  have hownShape : ∀ e ∈ selected.zip rules, ∀ T ∈ ownResults t v execute e, T.shape = shape := by
    intro e he T hT
    obtain ⟨term, hterm, rfl⟩ := List.mem_map.mp hT
    refine hshapes _ ?_
    rw [htraces]
    exact List.mem_append_left _ (List.mem_flatMap.mpr ⟨e, he, List.mem_map_of_mem hterm⟩)
  -- Each rule finds its own results and turns them into a column.
  choose finish hfinish hfinishShape hfinishEntry using hchain
  let column (e : ℕ × ShiftRule ℝ) : Tensor ℝ := finish (ownSum t v execute shape e) rfl
  have hlength : ∀ e ∈ selected.zip rules,
      (ownResults t v execute e).length = e.2.terms.length := fun e _ => List.length_map _
  have hcolumn : ∀ e ∈ selected.zip rules, columnOf ((meansOf t).assign v) vs (!vs.isEmpty) shape'
      (p.traces.map (resultOf execute)) e.2 (ownResults t v execute e) = .ok (column e) :=
    fun e he => columnOf_ownResults (terms_ne_nil_of_ruleAt h.exact.standard
      h.exact.valid.operations (h.ruleAt e he))
      (hownShape e he) hresults (hfinish _ rfl) shape'
  have hcolumns := columns_eq hlength hcolumn
    (if vs.isEmpty then [] else [resultOf execute ((meansOf t).assign v)])
  rw [← hresults, List.map_snd_zip h.length_rules.le] at hcolumns
  -- The columns stand side by side in the last dimension.
  have hcount : ((selected.zip rules).map column).length = selected.length := by
    rw [List.length_map, h.length_zip]
  have hcolumnsNe : (selected.zip rules).map column ≠ [] :=
    ne_nil_of_length_eq hcount h.nonempty
  have hcolumnsShape : ∀ d ∈ (selected.zip rules).map column, d.shape = shape := by
    intro d hd
    obtain ⟨e, -, rfl⟩ := List.mem_map.mp hd
    exact hfinishShape _ _
  obtain ⟨T, hstack, hshapeT, hentry⟩ := stackTrailing_eq hcolumnsNe hcolumnsShape
  rw [hcount] at hshapeT hentry
  refine ⟨T, ?_, hshapeT, fun o ho e he => ?_⟩
  · rw [run_eq_fold hmap, hfold _ (List.length_map _), hcolumns]
    exact hstack
  · have hget : ((selected.zip rules).map column)[e.2]? = some (column e.1) := by
      rw [List.getElem?_map, List.mem_zipIdx_iff_getElem?.mp he]
      rfl
    refine (hentry o ho e.2 _ hget).trans ((hfinishEntry _ rfl o ho).trans ?_)
    rw [entry_ownSum t v e.1 ho]

end Execution

end Run

end Proofs

end CircuitGrad
