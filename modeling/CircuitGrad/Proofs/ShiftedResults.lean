import CircuitGrad.Proofs.DifferentiableTrace
import CircuitGrad.Proofs.MissingBatches
import CircuitGrad.Proofs.ResultPlaces
import CircuitGrad.Proofs.TrailingDimensions
import CircuitGrad.Proofs.TurningGates

/-! # Derivatives result by result

    The plan of first derivatives computes with packed results: it sums whole
    outputs with the weights of a shift rule, and one more output, of the
    trace that measures the means, turns the derivatives of means into those
    of variances.  The results may be any tensors of the right shapes here.
    In the output that they are folded to, every entry for a selected
    parameter, a batch of shots and a measurement is computed from what the
    shifted traces of this parameter give for this measurement under this
    batch, and for a variance from the mean of the same measurement under the
    same batch (`shifts_derive`).

    Each measurement has its place in an output, so what a plan does with
    entries it does with results (`resultAt?_weighted`,
    `columnOf_derivedFrom`), and each rule finds the results of its own traces
    behind those of the rules before it (`columns_stretch`).
-/

namespace CircuitGrad

/-- Shifts differentiate means, probabilities, and variances of what is no Hamiltonian. -/
def Measurement.Shiftable {α : Type} (m : Measurement α) : Prop :=
  m.readout = .expectation ∨ m.readout = .probability ∨
    m.readout = .variance ∧ m.ofHamiltonian = false

/-- Values summed with the weights of a rule. -/
noncomputable def ShiftRule.weigh (rule : ShiftRule ℝ) (values : List ℝ) : ℝ :=
  ((rule.terms.zip values).map fun (term, x) => term.coefficient * x).sum

/-- The items of one rule in a list with one item for each term of each rule. -/
def ParameterShift.stretch {α β : Type} (rules : List (ShiftRule α)) (items : List β) (k : ℕ) :
    List β :=
  (items.drop ((rules.take k).map (·.terms.length)).sum).take
    (rules[k]?.elim 0 (·.terms.length))

/-- What a derivative has for a measurement under a batch of shots is the weighted sum of
    what the shifted results have there, and for a variance minus twice the mean
    times this sum. -/
def Trace.DerivedFrom (t : Trace ℝ) (rule : ShiftRule ℝ) (shifted : List (Tensor ℝ))
    (mean : Option (Tensor ℝ)) (d : Tensor ℝ) : Prop :=
  ∀ batch shots j m, t.shots.batches[batch]? = some shots → t.measurements[j]? = some m →
    ∃ x xs, t.resultAt? d batch j = some x ∧ m.outputShape t.register shots = .ok x.shape ∧
      shifted.mapM (t.resultAt? · batch j) = some xs ∧
      (m.readout ≠ .variance → ∀ o < Tensor.volume x.shape,
        x.entry o = rule.weigh (xs.map (·.entry o))) ∧
      (m.readout = .variance → ∃ y, mean.bind (t.resultAt? · batch j) = some y ∧
        ∀ o < Tensor.volume x.shape,
          x.entry o = -2 * y.entry o * rule.weigh (xs.map (·.entry o)))

namespace Proofs

open ParameterShift (stretch)

/-! ## Stretches -/

section Stretches

variable {α β : Type} {rule : ShiftRule α} {rules : List (ShiftRule α)} {items : List β} {k : ℕ}

theorem stretch_zero : stretch (rule :: rules) items 0 = items.take rule.terms.length := rfl

/-- The stretches of the other rules lie behind that of the first. -/
theorem stretch_succ :
    stretch (rule :: rules) items (k + 1) = stretch rules (items.drop rule.terms.length) k := by
  unfold ParameterShift.stretch
  rw [List.take_succ_cons, List.map_cons, List.sum_cons, List.drop_drop, List.getElem?_cons_succ]

theorem mem_of_mem_stretch {x : β} (h : x ∈ stretch rules items k) : x ∈ items :=
  List.mem_of_mem_drop (List.mem_of_mem_take h)

/-- Lists with one item for each term, one after the other, are the stretches. -/
theorem stretch_flatten {xss : List (List β)} (h : xss.map List.length = rules.map (·.terms.length))
    {xs : List β} (hxs : xss[k]? = some xs) (more : List β) :
    stretch rules (xss.flatten ++ more) k = xs := by
  induction rules generalizing xss k with
  | nil =>
    obtain rfl := List.map_eq_nil_iff.mp h
    cases hxs
  | cons rule rules ih =>
    obtain ⟨first, rest, rfl, hfirst, hrest⟩ := List.map_eq_cons_iff.mp h
    rw [List.flatten_cons, List.append_assoc]
    cases k with
    | zero =>
      obtain rfl : first = xs := Option.some.inj hxs
      exact List.take_left' hfirst
    | succ k =>
      rw [stretch_succ, List.drop_left' hfirst]
      exact ih hrest hxs

/-- A stretch is as long as its rule. -/
theorem length_stretch (hlength : (rules.map (·.terms.length)).sum ≤ items.length)
    (hrule : rules[k]? = some rule) : (stretch rules items k).length = rule.terms.length := by
  induction rules generalizing items k with
  | nil => cases hrule
  | cons first rest ih =>
    rw [List.map_cons, List.sum_cons] at hlength
    cases k with
    | zero =>
      obtain rfl : first = rule := Option.some.inj hrule
      rw [stretch_zero, List.length_take]
      omega
    | succ k =>
      rw [stretch_succ]
      refine ih ?_ hrule
      rw [List.length_drop]
      omega

/-- The derivative of each parameter is that of its own stretch of the results. -/
theorem columns_stretch {rs ds : List (Tensor α)}
    {derivative : ShiftRule α → List (Tensor α) → Except Error (Tensor α)}
    (h : ParameterShift.columns derivative rules rs = .ok ds) (hrule : rules[k]? = some rule) :
    ∃ d, ds[k]? = some d ∧ derivative rule (stretch rules rs k) = .ok d := by
  -- The first rule takes its results from the front, and the others see what is left.
  induction rules generalizing rs ds k with
  | nil => cases hrule
  | cons first rest ih =>
    rw [ParameterShift.columns] at h
    obtain ⟨d, hd, h⟩ := bind_eq_ok h
    obtain ⟨ds', hds', h⟩ := bind_eq_ok h
    obtain rfl := Except.ok.inj h
    cases k with
    | zero =>
      obtain rfl : first = rule := Option.some.inj hrule
      exact ⟨d, rfl, hd⟩
    | succ k =>
      rw [stretch_succ]
      exact ih hds' hrule

end Stretches

/-! ## Derivatives in their places -/

section Places

variable {t : Trace ℝ} {shape : List ℕ} {rule : ShiftRule ℝ} {own : List (Tensor ℝ)}

/-- The weighted sum of results, entry by entry. -/
theorem entry_weighted (hlength : own.length = rule.terms.length)
    (hown : ∀ r ∈ own, r.shape = shape) :
    ∃ d, ParameterShift.weighted shape rule own = .ok d ∧ d.shape = shape ∧
      ∀ o < Tensor.volume shape, d.entry o = rule.weigh (own.map (·.entry o)) := by
  unfold ParameterShift.weighted
  by_cases hempty : rule.terms = []
  · rw [if_pos (List.isEmpty_iff.mpr hempty)]
    refine ⟨.zeros shape, rfl, rfl, fun o ho => ?_⟩
    unfold ShiftRule.weigh
    rw [hempty, List.zip_nil_left]
    exact Tensor.entry_ofFn ho
  · rw [if_neg (fun hnil => hempty (List.isEmpty_iff.mp hnil))]
    -- What is summed are the pairs of a term and its result.
    have hterms : (rule.terms.zip own).map (fun e => e.1.coefficient) =
        rule.terms.map (·.coefficient) := by
      conv_rhs => rw [← List.map_fst_zip hlength.ge, List.map_map]
      rfl
    have hresults : (rule.terms.zip own).map (·.2) = own := List.map_snd_zip hlength.le
    have hpairs : rule.terms.zip own ≠ [] :=
      ne_nil_of_length_eq (by rw [List.length_zip, hlength, Nat.min_self]) hempty
    have hshapes : ∀ e ∈ rule.terms.zip own, e.2.shape = shape := by
      intro e he
      exact hown e.2 (List.of_mem_zip he).2
    have hsum : Tensor.linearCombination ((rule.terms.zip own).map fun e => e.1.coefficient)
        ((rule.terms.zip own).map (·.2)) = _ := linearCombination_eq hpairs hshapes
    rw [hterms, hresults] at hsum
    refine ⟨_, hsum, rfl, fun o ho => ?_⟩
    rw [Tensor.entry_ofFn ho]
    unfold ShiftRule.weigh
    rw [List.zip_map_right, List.map_map]
    rfl

/-- The result of a measurement in a weighted sum is the weighted sum of its results. -/
theorem resultAt?_weighted (hout : t.outputShape = .ok shape) (hown : ∀ r ∈ own, r.shape = shape)
    {d : Tensor ℝ} (hd : d.shape = shape)
    (hentry : ∀ o < Tensor.volume shape, d.entry o = rule.weigh (own.map (·.entry o)))
    {b j : ℕ} {shots : Option ℕ} (hshots : t.shots.batches[b]? = some shots)
    {m : Measurement ℝ} (hm : t.measurements[j]? = some m) :
    ∃ x xs, t.resultAt? d b j = some x ∧ m.outputShape t.register shots = .ok x.shape ∧
      own.mapM (t.resultAt? · b j) = some xs ∧
      ∀ o < Tensor.volume x.shape, x.entry o = rule.weigh (xs.map (·.entry o)) := by
  obtain ⟨_, offset, hshape, hbound, hplace⟩ := exists_place hout hshots hm
  obtain ⟨x, hx, rfl, hxentry⟩ := hplace d hd
  have hresults : ∀ r ∈ own, ∃ y, t.resultAt? r b j = some y ∧
      ∀ o < Tensor.volume x.shape, y.entry o = r.entry (offset + o) := by
    intro r hr
    obtain ⟨y, hy, -, hyentry⟩ := hplace r (hown r hr)
    exact ⟨y, hy, hyentry⟩
  obtain ⟨xs, hxs, hall⟩ := exists_mapM_eq_some hresults
  refine ⟨x, xs, hx, hshape, hxs, fun o ho => ?_⟩
  -- Sum and results are read at one position, so the sum may be taken before or after.
  have hsame : xs.map (·.entry o) = own.map (·.entry (offset + o)) :=
    map_of_forall₂ (fun r y h => h o ho) hall
  rw [hxentry o ho, hentry (offset + o) (by omega), hsame]

/-- The column of a parameter is derived from its own results, and from the last result where
    a variance is measured. -/
theorem columnOf_derivedFrom (hout : t.outputShape = .ok shape) {vs : List ℕ}
    (hvs : t.variances = .ok vs) {results : List (Tensor ℝ)}
    (hlast : ¬vs.isEmpty = true → ∃ mean, results.getLast? = some mean ∧ mean.shape = shape)
    (hlength : own.length = rule.terms.length) (hown : ∀ r ∈ own, r.shape = shape) :
    ∃ d, columnOf (meansOf t) vs (!vs.isEmpty) shape results rule own = .ok d ∧
      d.shape = shape ∧ t.DerivedFrom rule own results.getLast? d := by
  obtain ⟨d, hd, hdshape, hentry⟩ := entry_weighted hlength hown
  unfold columnOf
  rw [hd, ok_bind]
  by_cases hempty : vs.isEmpty = true
  · refine ⟨d, ?_, hdshape, ?_⟩
    · rw [hempty]
      cases results.getLast? <;> rfl
    · intro b shots j m hshots hm
      obtain ⟨x, xs, hx, hshape, hxs, hsum⟩ := resultAt?_weighted hout hown hdshape hentry hshots hm
      have hnone := (variances_isEmpty hvs).mp hempty m (List.mem_of_getElem? hm)
      exact ⟨x, xs, hx, hshape, hxs, fun _ => hsum, fun hvariance => absurd hvariance hnone⟩
  · obtain ⟨mean, hmean, hmeanShape⟩ := hlast hempty
    obtain ⟨T, hT, hTshape, hchained⟩ := chainVariance_results vs
      ((outputShape_meansOf t).trans hout) hmeanShape hdshape
    rw [resultAt?_meansOf] at hchained
    rw [Bool.not_eq_true] at hempty
    rw [hmean, hempty]
    refine ⟨T, hT, hTshape, ?_⟩
    intro b shots j m hshots hm
    obtain ⟨x, xs, hx, hshape, hxs, hsum⟩ := resultAt?_weighted hout hown hdshape hentry hshots hm
    obtain ⟨_, _, hshape', -, hplace⟩ := exists_place hout hshots hm
    obtain rfl := Except.ok.inj (hshape.symm.trans hshape')
    obtain ⟨y, hy, hyshape, -⟩ := hplace mean hmeanShape
    -- At this place there is the chained sum if the measurement is a variance, or the sum.
    obtain ⟨z, hz, hone⟩ := hchained b j x y hx hy
    rw [contains_variances hvs hm] at hone
    obtain ⟨z', hz', hzshape, hzentry⟩ := chainOne_eq rfl hyshape (m.readout == .variance)
    obtain rfl : z = z' := Except.ok.inj (hone.symm.trans hz')
    refine ⟨z, xs, hz, by rw [hshape, hzshape], hxs, ?_, ?_⟩
    · intro hlinear o ho
      rw [hzshape] at ho
      rw [hzentry o ho, if_neg (by simpa using hlinear), hsum o ho]
    · intro hvariance
      refine ⟨y, hy, fun o ho => ?_⟩
      rw [hzshape] at ho
      rw [hzentry o ho, if_pos (by simpa using hvariance), hsum o ho]
      ring

end Places

/-! ## The plan -/

section Plans

variable {t : Trace ℝ} {c : ShiftConfig ℝ} {p : Plan ℝ} {selected : List ℕ}
  {rules : List (ShiftRule ℝ)} {shape : List ℕ}

/-- Shots do not enter the shape of a result, so all batches are packed to one shape. -/
theorem exists_outputShape (hms : ∀ m ∈ t.measurements, m.Shiftable)
    (hbatches : t.shots.batches ≠ []) : ∃ shape, t.outputShape = .ok shape := by
  have hone : ∀ m ∈ t.measurements, ∃ s, ∀ shots, m.outputShape t.register shots = .ok s := by
    intro m hm
    unfold Measurement.outputShape
    rcases hms m hm with h | h | ⟨h, -⟩ <;> rw [h] <;> exact ⟨_, fun _ => rfl⟩
  obtain ⟨own, hown⟩ : ∃ own, t.measurementShapes none = .ok own :=
    exists_mapM_eq_ok fun m hm => (hone m hm).imp fun s hs => hs none
  have hall : ∀ shots, t.measurementShapes shots = .ok own := by
    intro shots
    rw [← hown]
    refine mapM_congr fun m hm => ?_
    obtain ⟨s, hs⟩ := hone m hm
    rw [hs, hs]
  have hshapes : t.batchShapes = .ok (t.shots.batches.map fun _ => own) :=
    mapM_ok fun shots _ => hall shots
  have hsame : ∀ s ∈ t.shots.batches.map fun _ => own,
      (Packing.ofShapes s).shape = (Packing.ofShapes own).shape := by simp
  exact ⟨_, outputShape_of_batchShapes hshapes (by simpa using hbatches) hsame⟩

theorem checkDifferentiable_of_shiftable (hms : ∀ m ∈ t.measurements, m.Shiftable) :
    t.checkDifferentiable = .ok () := by
  have hnone : (t.measurements.find? fun m => m.readout == .state || m.readout == .sample) =
      none := by
    rw [List.find?_eq_none]
    intro m hm
    rcases hms m hm with h | h | ⟨h, -⟩ <;> simp [h]
  unfold Trace.checkDifferentiable
  rw [hnone]

theorem exists_variances (hms : ∀ m ∈ t.measurements, m.Shiftable) :
    ∃ vs, t.variances = .ok vs := by
  have hwords : ¬((t.measurements.zipIdx.filter fun (m, _) => m.readout == .variance).any
      fun (m, _) => m.ofHamiltonian) = true := by
    rw [List.any_eq_true]
    rintro ⟨⟨m, j⟩, hm, hhamiltonian⟩
    obtain ⟨hm, hvariance⟩ := List.mem_filter.mp hm
    have hm := List.mem_of_getElem? (List.mem_zipIdx_iff_getElem?.mp hm)
    have hvariance : m.readout = .variance := by simpa using hvariance
    rcases hms m hm with h | h | ⟨-, h⟩
    · cases hvariance.symm.trans h
    · cases hvariance.symm.trans h
    · cases hhamiltonian.symm.trans h
  unfold Trace.variances
  dsimp only
  rw [if_neg hwords]
  exact ⟨_, rfl⟩

/-- There is a plan for every selection of parameters with rules. -/
theorem exists_shiftPlan (ht : t.Valid) (hms : ∀ m ∈ t.measurements, m.Shiftable)
    (hselected : t.selectTrainable c.parameters = .ok selected)
    (hrules : selected.mapM (fun i => t.shiftRule i c.step) = .ok rules)
    (hout : t.outputShape = .ok shape) : ∃ p, ParameterShift.plan t c = .ok p := by
  obtain ⟨vs, hvs⟩ := exists_variances hms
  obtain ⟨shifted, hshifted⟩ : ∃ shifted, (selected.zip rules).mapM (fun (i, rule) =>
      (meansOf t).shifted i rule) = .ok shifted := by
    refine exists_mapM_eq_ok fun e he => exists_mapM_eq_ok fun term _ => ?_
    exact exists_withParam (t := meansOf t)
      (mem_selectTrainable hselected e.1 (List.of_mem_zip he).1) _
  have hbase := base_eq_meansOf ht hvs
  unfold ParameterShift.plan
  rw [checkDifferentiable_of_shiftable hms, ok_bind, hselected, ok_bind, hvs, ok_bind]
  extract_lets rest
  have hrest : ∃ p, rest (meansOf t) = .ok p := by
    simp only [rest, hrules, hshifted, hout, ok_bind]
    exact ⟨_, rfl⟩
  obtain ⟨p, hp⟩ := hrest
  by_cases hempty : vs.isEmpty = true
  · rw [if_pos hempty] at hbase ⊢
    exact ⟨p, (congrArg rest (Except.ok.inj hbase)).trans hp⟩
  · rw [if_neg hempty] at hbase ⊢
    rw [hbase, ok_bind]
    exact ⟨p, hp⟩

/-- The traces of the plan lay their results out as the trace does. -/
theorem unpackResult_of_mem_shifts (ht : t.Valid) (hplan : ParameterShift.plan t c = .ok p)
    {u : Trace ℝ} (hu : u ∈ p.traces) : u.unpackResult = t.unpackResult := by
  obtain ⟨vs, base, hvs, hbase, hu⟩ := of_mem_shifts hplan hu
  obtain rfl : base = meansOf t := Except.ok.inj (hbase.symm.trans (base_eq_meansOf ht hvs))
  rcases hu with rfl | ⟨i, x, hx⟩
  · exact unpackResult_meansOf t
  · rw [unpackResult_withParam hx, unpackResult_meansOf]

/-- Where nothing is selected, the derivative is without entries. -/
theorem fold_of_nothing (hplan : ParameterShift.plan t c = .ok p)
    (hselected : t.selectTrainable c.parameters = .ok []) (hout : t.outputShape = .ok shape)
    {rs : List (Tensor ℝ)} (hlength : rs.length = p.traces.length) :
    p.fold rs = .ok (.zeros (shape ++ [0])) := by
  unfold ParameterShift.plan at hplan
  obtain ⟨_, -, hplan⟩ := bind_eq_ok hplan
  rw [hselected, ok_bind] at hplan
  obtain ⟨vs, -, hplan⟩ := bind_eq_ok hplan
  extract_lets rest at hplan
  have hrest : ∀ base, rest base = .ok p → p.fold rs = .ok (.zeros (shape ++ [0])) := by
    intro base hp
    obtain ⟨rules, hrules, hp⟩ := bind_eq_ok hp
    obtain rfl := Except.ok.inj hrules
    obtain ⟨shifted, -, hp⟩ := bind_eq_ok hp
    rw [hout, ok_bind] at hp
    obtain rfl := Except.ok.inj hp
    exact if_neg (not_not.mpr hlength)
  split at hplan
  · exact hrest t hplan
  · obtain ⟨base, -, hplan⟩ := bind_eq_ok hplan
    exact hrest base hplan

/-- The columns of a plan, each derived from the results of its own traces. -/
theorem fold_derivedFrom (ht : t.Valid) (hplan : ParameterShift.plan t c = .ok p)
    (hselected : t.selectTrainable c.parameters = .ok selected) (hne : selected ≠ [])
    (hrules : selected.mapM (fun i => t.shiftRule i c.step) = .ok rules)
    (hout : t.outputShape = .ok shape) {rs : List (Tensor ℝ)}
    (hlength : rs.length = p.traces.length) (hrs : ∀ r ∈ rs, r.shape = shape) :
    ∃ D, p.fold rs = .ok D ∧ D.shape = shape ++ [selected.length] ∧
      ∀ k rule, rules[k]? = some rule →
        t.DerivedFrom rule (stretch rules rs k) rs.getLast? (D.slice [selected.length] k) := by
  obtain ⟨selected', vs, base, rules', shifted, shape', hselected', hvs, hbase, hout', hrules',
    hshifted, htraces, hfold⟩ := plan_eq_ok hplan
  obtain rfl : selected = selected' := Except.ok.inj (hselected.symm.trans hselected')
  obtain rfl : rules = rules' := Except.ok.inj (hrules.symm.trans hrules')
  obtain rfl : shape = shape' := Except.ok.inj (hout.symm.trans hout')
  obtain rfl : base = meansOf t := Except.ok.inj (hbase.symm.trans (base_eq_meansOf ht hvs))
  have hcount : rules.length = selected.length := length_of_mapM hrules
  have hrulesNe : rules ≠ [] := ne_nil_of_length_eq hcount hne
  rw [List.isEmpty_eq_false_iff.mpr hrulesNe, Bool.not_false, Bool.and_true] at htraces hfold
  have hsum : (rules.map (·.terms.length)).sum ≤ rs.length := by
    rw [hlength, htraces, List.length_append, length_shifted hcount hshifted]
    omega
  -- With a variance there is a result of the unshifted trace, and it is the last.
  have hlast : ¬vs.isEmpty = true → ∃ mean, rs.getLast? = some mean ∧ mean.shape = shape := by
    intro hvariance
    have hrsNe : rs ≠ [] := by
      intro hnil
      rw [hnil, htraces, if_pos (by simpa using hvariance)] at hlength
      simp at hlength
    exact ⟨_, List.getLast?_eq_some_getLast hrsNe, hrs _ (List.getLast_mem hrsNe)⟩
  have hcolumn : ∀ rule ∈ rules, ∀ own : List (Tensor ℝ), own.length = rule.terms.length →
      (∀ r ∈ own, r.shape = shape) → ∃ d, columnOf (meansOf t) vs (!vs.isEmpty) shape rs rule own =
        .ok d ∧ d.shape = shape := by
    intro rule _ own hown hshapes
    obtain ⟨d, hd, hdshape, -⟩ := columnOf_derivedFrom hout hvs hlast hown hshapes
    exact ⟨d, hd, hdshape⟩
  obtain ⟨ds, hds, hdsLength, hdsShape⟩ := columns_shapes hrs hsum hcolumn
  have hdsNe : ds ≠ [] := ne_nil_of_length_eq hdsLength hrulesNe
  obtain ⟨D, hD, hDshape, hslice⟩ := slice_stackTrailing hdsNe hdsShape
  rw [hdsLength, hcount] at hDshape hslice
  refine ⟨D, by rw [hfold rs hlength hrulesNe, hds, ok_bind, hD], hDshape, ?_⟩
  intro k rule hrule
  obtain ⟨d, hd, hown⟩ := columns_stretch hds hrule
  obtain ⟨d', hd', -, hderived⟩ := columnOf_derivedFrom hout hvs hlast
    (length_stretch hsum hrule) fun r hr => hrs r (mem_of_mem_stretch hr)
  obtain rfl : d = d' := Except.ok.inj (hown.symm.trans hd')
  rw [hslice k d hd]
  exact hderived

/-- The traces of each parameter are a stretch of the plan, and the trace that measures the
    means comes last. -/
theorem traces_of_shifts (ht : t.Valid) (hplan : ParameterShift.plan t c = .ok p)
    (hselected : t.selectTrainable c.parameters = .ok selected)
    (hrules : selected.mapM (fun i => t.shiftRule i c.step) = .ok rules) :
    (∀ k i rule, selected[k]? = some i → rules[k]? = some rule →
      (meansOf t).shifted i rule = .ok (stretch rules p.traces k)) ∧
    (selected ≠ [] → (∃ m ∈ t.measurements, m.readout = .variance) →
      p.traces.getLast? = some (meansOf t)) := by
  obtain ⟨selected', vs, base, rules', shifted, shape, hselected', hvs, hbase, -, hrules',
    hshifted, htraces, -⟩ := plan_eq_ok hplan
  obtain rfl : selected = selected' := Except.ok.inj (hselected.symm.trans hselected')
  obtain rfl : rules = rules' := Except.ok.inj (hrules.symm.trans hrules')
  obtain rfl : base = meansOf t := Except.ok.inj (hbase.symm.trans (base_eq_meansOf ht hvs))
  have hcount : rules.length = selected.length := length_of_mapM hrules
  constructor
  · intro k i rule hi hrule
    obtain ⟨us, hus, hown⟩ := getElem?_of_forall₂ (forall₂_of_mapM (fun _ _ _ => id) hshifted)
      (List.getElem?_zip_eq_some (z := (i, rule)) |>.mpr ⟨hi, hrule⟩)
    rw [htraces, stretch_flatten (lengths_shifted hcount hshifted) hus]
    exact hown
  · rintro hne ⟨m, hm, hvariance⟩
    have hvsNe : vs.isEmpty = false := by
      rw [← Bool.not_eq_true]
      exact fun hempty => (variances_isEmpty hvs).mp hempty m hm hvariance
    have hrulesNe : rules.isEmpty = false :=
      List.isEmpty_eq_false_iff.mpr (ne_nil_of_length_eq hcount hne)
    rw [htraces, hvsNe, hrulesNe]
    exact List.getLast?_concat

/-- Derivatives by shifts, result by result.  A plan shifts each selected parameter as its
    rule says, and measures the means unshifted at the end if there is a variance.  Whatever
    tensors of the right shapes its traces are answered with, it folds them to a tensor with
    one slice for each selected parameter, in which every result is derived from the results
    of the same measurement under the same batch of shots: those of the parameter's own
    traces, and for a variance that of the last trace. -/
theorem shifts_derive (ht : t.Valid) (hms : ∀ m ∈ t.measurements, m.Shiftable)
    (hbatches : t.shots.batches ≠ []) (hselected : t.selectTrainable c.parameters = .ok selected)
    (hrules : selected.mapM (fun i => t.shiftRule i c.step) = .ok rules) :
    ∃ p shape, ParameterShift.plan t c = .ok p ∧ t.outputShape = .ok shape ∧
      (∀ u ∈ p.traces, u.unpackResult = t.unpackResult) ∧
      (∀ k i rule, selected[k]? = some i → rules[k]? = some rule →
        (meansOf t).shifted i rule = .ok (stretch rules p.traces k)) ∧
      (selected ≠ [] → (∃ m ∈ t.measurements, m.readout = .variance) →
        p.traces.getLast? = some (meansOf t)) ∧
      ∀ rs, List.Forall₂ (fun u r => u.outputShape = .ok r.shape) p.traces rs →
        ∃ D, p.combine rs = .ok D ∧ D.shape = shape ++ [selected.length] ∧
          ∀ k rule, rules[k]? = some rule →
            t.DerivedFrom rule (stretch rules rs k) rs.getLast? (D.slice [selected.length] k) := by
  obtain ⟨shape, hout⟩ := exists_outputShape hms hbatches
  obtain ⟨p, hplan⟩ := exists_shiftPlan ht hms hselected hrules hout
  obtain ⟨hown, hlast⟩ := traces_of_shifts ht hplan hselected hrules
  refine ⟨p, shape, hplan, hout, fun u => unpackResult_of_mem_shifts ht hplan, hown, hlast, ?_⟩
  intro rs hfits
  have hlength : rs.length = p.traces.length := hfits.length_eq.symm
  have hrs : ∀ r ∈ rs, r.shape = shape := by
    intro r hr
    obtain ⟨u, hu, hshape⟩ := exists_of_forall₂ hfits.flip hr
    have hsame := (resembles_of_mem_shifts hplan hu).outputShape
    exact Except.ok.inj (hshape.symm.trans (hsame.trans hout))
  rw [combine_of_length hlength]
  by_cases hne : selected = []
  · subst hne
    obtain rfl := Except.ok.inj hrules
    exact ⟨_, fold_of_nothing hplan hselected hout hlength, rfl, fun k rule hrule => nomatch hrule⟩
  · exact fold_derivedFrom ht hplan hselected hne hrules hout hlength hrs

end Plans

/-- A variance, probabilities and a mean under two batches of shots, with a parameter whose
    rule has two terms and one whose rule has four. -/
noncomputable def mixedReadouts : Trace ℝ :=
  ⟨[⟨StandardGate.rx.spec, [.trainable 0.5], [0]⟩,
      ⟨StandardGate.crx.spec, [.trainable 0.25], [0, 1]⟩],
    [.ofObservable .variance (.word (.single 0 .Z)), .probs [0, 1],
      .ofObservable .expectation (.word (.single 1 .X))], 2, .vector [⟨5, 2⟩], .empty⟩

/-- Tensors of two batches of six numbers can be the results.  The first two results are those
    of the first parameter, and the next four those of the second. -/
theorem shifts_derive_mixedReadouts :
    mixedReadouts.shots.batches ≠ [] ∧
    mixedReadouts.selectTrainable none = .ok [0, 1] ∧
    ∃ p, ParameterShift.plan mixedReadouts .standard = .ok p ∧
      p.traces.getLast? = some (meansOf mixedReadouts) ∧
      (∀ f : ℕ → ℝ, List.Forall₂ (fun u (r : Tensor ℝ) => u.outputShape = .ok r.shape) p.traces
        (p.traces.map fun _ => .ofFn [2, 6] f)) ∧
      ∀ rs, List.Forall₂ (fun u r => u.outputShape = .ok r.shape) p.traces rs →
        ∃ D, p.combine rs = .ok D ∧ D.shape = [2, 6, 2] ∧
          mixedReadouts.DerivedFrom (.twoTerm (1 / 2)) (rs.take 2) rs.getLast? (D.slice [2] 0) ∧
          mixedReadouts.DerivedFrom .fourTerm ((rs.drop 2).take 4) rs.getLast?
            (D.slice [2] 1) := by
  have ht : mixedReadouts.Valid := by
    refine ⟨List.cons_ne_nil _ _, by simp [mixedReadouts], ?_⟩
    have hword : ∀ w ∈ (PauliWord.single 0 .Z).wires ++ [0, 1] ++ (PauliWord.single 1 .X).wires,
        w < 2 := by decide
    simpa [mixedReadouts, Measurement.ofObservable, Measurement.probs, Observable.wires,
      or_imp, forall_and] using hword
  have hms : ∀ m ∈ mixedReadouts.measurements, m.Shiftable := by
    simp [mixedReadouts, Measurement.Shiftable, Measurement.ofObservable, Measurement.probs,
      Measurement.ofHamiltonian, Observable.isHamiltonian]
  have hbatches : mixedReadouts.shots.batches ≠ [] := by decide
  have hselected : mixedReadouts.selectTrainable none = .ok [0, 1] := by rfl
  have hfirst : (⟨StandardGate.rx.spec, [.trainable 0.5], [0]⟩ : Operation ℝ).shiftRule? 0 =
      some (.twoTerm (1 / 2)) := by
    show (Generator.halfGap? ⟨[-0.5, 0.5], true⟩).map ShiftRule.twoTerm = _
    rw [halfGap_rotation]
    rfl
  have hrules : [0, 1].mapM (fun i => mixedReadouts.shiftRule i 1e-7) =
      .ok [.twoTerm (1 / 2), .fourTerm] := by
    have hzero : mixedReadouts.shiftRule 0 1e-7 = .ok (.twoTerm (1 / 2)) :=
      shiftRule_of_ruleAt ⟨0, 0, _, rfl, rfl, hfirst⟩ 1e-7
    have hone : mixedReadouts.shiftRule 1 1e-7 = .ok .fourTerm := rfl
    rw [List.mapM_cons, hzero, ok_bind, List.mapM_cons, hone]
    rfl
  obtain ⟨p, shape, hplan, hout, -, -, hlast, hfold⟩ :=
    shifts_derive (c := .standard) ht hms hbatches hselected hrules
  obtain rfl : shape = [2, 6] := Except.ok.inj (hout.symm.trans rfl)
  refine ⟨hbatches, hselected, p, hplan, hlast (by simp) ⟨_, List.mem_cons_self, rfl⟩, ?_, ?_⟩
  · intro f
    rw [List.forall₂_map_right_iff, List.forall₂_same]
    intro u hu
    exact (resembles_of_mem_shifts hplan hu).outputShape.trans hout
  · intro rs hfits
    obtain ⟨D, hD, hshape, hderived⟩ := hfold rs hfits
    exact ⟨D, hD, hshape, hderived 0 _ rfl, hderived 1 _ rfl⟩

end Proofs

end CircuitGrad
