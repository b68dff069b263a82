import CircuitGrad.Proofs.DerivativeShape

/-! # Derivatives as iterated differences

    To differentiate a function of traces in a parameter is to take weighted
    sums of its values at traces that are shifted in the parameter.  A plan of
    first derivatives folds what a function of traces gives to these sums
    (`firstOrder_entry`), so nested plans apply the operators one after the
    other, the innermost plan first.  Operators with rules that do not depend
    on parameter values commute, whatever function they are applied to.
-/

namespace CircuitGrad

/-- The trace with one parameter bound to another value, itself where it has no such
    parameter. -/
noncomputable def Trace.rebound (t : Trace ℝ) (i : ℕ) (x : ℝ) : Trace ℝ :=
  match t.withParam i x with
  | .ok u => u
  | .error _ => t

/-- The operator by which a method differentiates functions of traces in a parameter:
    the sum weighted by the shift rule of the parameter at the values of the trace, or the
    difference quotient. -/
noncomputable def GradientMethod.difference (method : GradientMethod ℝ) (i : ℕ)
    (g : Trace ℝ → ℝ) (t : Trace ℝ) : ℝ :=
  match method with
  | .parameterShift c => match t.shiftRule i c.step with
    | .ok rule => rule.apply (t.paramValue i) fun x => g (t.rebound i x)
    | .error _ => 0
  | .finiteDifference c => match c.scheme with
    | .forward => (g (t.rebound i (t.paramValue i + c.step)) - g t) / c.step
    | .backward => (g t - g (t.rebound i (t.paramValue i - c.step))) / c.step
    | .central => (g (t.rebound i (t.paramValue i + c.step)) -
        g (t.rebound i (t.paramValue i - c.step))) / (2 * c.step)

/-- Differences in several parameters, one after the other. -/
noncomputable def GradientMethod.differences (method : GradientMethod ℝ) (is : List ℕ)
    (g : Trace ℝ → ℝ) : Trace ℝ → ℝ :=
  is.foldl (fun g i => method.difference i g) g

namespace Proofs

/-! ## The shift rule -/

section Shifts

variable {t : Trace ℝ} {c : ShiftConfig ℝ} {p : Plan ℝ} {selected out shape : List ℕ}
  {R : Trace ℝ → Tensor ℝ}

theorem withParam_eq_rebound {i : ℕ} {x : ℝ} {u : Trace ℝ} (h : t.withParam i x = .ok u) :
    u = t.rebound i x := by
  unfold Trace.rebound
  rw [h]

/-- A rule without terms sums to zero. -/
theorem weighted_eq_weightedSum {rule : ShiftRule ℝ} {x : ℝ} {S : ℝ → Tensor ℝ}
    (hS : ∀ term ∈ rule.terms, (S (term.point x)).shape = shape)
    (h : shape = out ∨ rule.terms ≠ []) :
    ParameterShift.weighted out rule (rule.terms.map fun term => S (term.point x)) =
      .ok (weightedSum shape rule x S) := by
  by_cases hempty : rule.terms = []
  · obtain rfl := h.resolve_right (not_not.mpr hempty)
    unfold ParameterShift.weighted
    rw [if_pos (List.isEmpty_iff.mpr hempty)]
    refine congrArg Except.ok (congrArg (Tensor.ofFn shape) (funext fun o => ?_))
    rw [rule_apply_eq, hempty]
    rfl
  · exact weighted_eq hempty hS

/-- The traces that are shifted for one parameter. -/
noncomputable def shiftedTraces (t : Trace ℝ) (e : ℕ × ShiftRule ℝ) : List (Trace ℝ) :=
  e.2.terms.map fun term => t.rebound e.1 (term.point (t.paramValue e.1))

/-- The plan of the shift rule folds results to the weighted sums of each parameter. -/
theorem shifts_entry (hplan : ParameterShift.plan t c = .ok p) (hlinear : t.Linear)
    (hselected : t.selectTrainable c.parameters = .ok selected) (hne : selected ≠ [])
    (hout : t.outputShape = .ok out) (hR : ∀ u ∈ p.traces, (R u).shape = shape)
    (h : shape = out ∨ (GradientMethod.parameterShift c).HasTerms t) :
    ∃ T, p.fold (p.traces.map R) = .ok T ∧ T.shape = shape ++ [selected.length] ∧
      ∀ o < Tensor.volume shape, ∀ i : Fin selected.length, ∀ g : Trace ℝ → ℝ,
        (∀ u ∈ p.traces, (R u).entry o = g u) → T.entry (o * selected.length + i) =
          (GradientMethod.parameterShift c).difference (selected.get i) g t := by
  obtain ⟨rules, shifted, hrules, hshifted, htraces, hfold⟩ :=
    linear_plan_eq_ok hplan hlinear hselected hne hout
  have hcount := length_of_mapM hrules
  -- No shift fails, so the shifted traces are those of a function.
  have hown : shifted = (selected.zip rules).map (shiftedTraces t) :=
    eq_map_of_mapM hshifted fun e _ us hus =>
      eq_map_of_mapM hus fun term _ u hu => withParam_eq_rebound hu
  rw [hown, ← List.flatMap_def] at htraces
  -- The column of a parameter sums the results at the points of its rule.
  let column (e : ℕ × ShiftRule ℝ) : Tensor ℝ :=
    weightedSum shape e.2 (t.paramValue e.1) fun x => R (t.rebound e.1 x)
  have hmem : ∀ e ∈ selected.zip rules, ∀ term ∈ e.2.terms,
      t.rebound e.1 (term.point (t.paramValue e.1)) ∈ p.traces := by
    intro e he term hterm
    rw [htraces]
    exact List.mem_flatMap.mpr ⟨e, he, List.mem_map_of_mem hterm⟩
  have hcolumn : ∀ e ∈ selected.zip rules,
      ParameterShift.weighted out e.2 ((shiftedTraces t e).map R) = .ok (column e) := by
    intro e he
    have hterms : shape = out ∨ e.2.terms ≠ [] := by
      refine h.imp_right fun hterms => ?_
      obtain ⟨hi, hrule⟩ := mem_zip_of_mapM hrules he
      exact hterms selected hselected e.1 hi e.2 hrule
    unfold shiftedTraces
    rw [List.map_map]
    exact weighted_eq_weightedSum (S := fun x => R (t.rebound e.1 x))
      (fun term hterm => hR _ (hmem e he term hterm)) hterms
  have hcolumns := columns_eq (fun e _ => by unfold shiftedTraces; simp) hcolumn []
  rw [List.map_snd_zip hcount.le, List.append_nil, ← List.map_flatMap, ← htraces] at hcolumns
  have hcolumnsNe : (selected.zip rules).map column ≠ [] :=
    ne_nil_of_length_eq (by rw [List.length_map, List.length_zip, hcount, Nat.min_self]) hne
  have hcolumnsShape : ∀ d ∈ (selected.zip rules).map column, d.shape = shape := by
    intro d hd
    obtain ⟨e, -, rfl⟩ := List.mem_map.mp hd
    rfl
  obtain ⟨T, hT, hTshape, hentry⟩ := stackTrailing_eq hcolumnsNe hcolumnsShape
  have hlength : ((selected.zip rules).map column).length = selected.length := by
    rw [List.length_map, List.length_zip, hcount, Nat.min_self]
  rw [hlength] at hTshape hentry
  refine ⟨T, ?_, hTshape, ?_⟩
  · rw [hfold _ (List.length_map _), hcolumns]
    exact hT
  · intro o ho i g hg
    have hi : i.val < rules.length := hcount.symm ▸ i.isLt
    have hpair : (selected.zip rules)[i.val]? = some (selected.get i, rules[i.val]) := by
      rw [List.getElem?_zip_eq_some]
      exact ⟨List.getElem?_eq_getElem i.isLt, List.getElem?_eq_getElem hi⟩
    have he := List.mem_of_getElem? hpair
    have hrule := (mem_zip_of_mapM hrules he).2
    rw [hentry o ho i _ (by rw [List.getElem?_map, hpair]; rfl)]
    unfold GradientMethod.difference
    simp only [hrule]
    refine (Tensor.entry_ofFn ho).trans ?_
    exact rule_apply_congr fun term hterm => hg _ (hmem _ he term hterm)

end Shifts

/-! ## Difference quotients -/

section Quotients

variable {shape : List ℕ} {h : ℝ}

/-- The difference of two results over the step. -/
theorem quotient_eq {a b : Tensor ℝ} (ha : a.shape = shape) (hb : b.shape = shape) :
    ∃ d, FiniteDifference.quotient h a b = .ok d ∧ d.shape = shape ∧
      ∀ o < Tensor.volume shape, d.entry o = (a.entry o - b.entry o) / h := by
  have hcheck : Tensor.checkShape "add" a.shape (b.scale (-1)).shape = .ok () :=
    if_pos (ha.trans hb.symm)
  refine ⟨(Tensor.ofFn a.shape fun i => a.entry i + (b.scale (-1)).entry i).scale (1 / h), ?_,
    ha, ?_⟩
  · unfold FiniteDifference.quotient Tensor.add
    rw [hcheck]
    rfl
  · intro o ho
    rw [entry_scale, Tensor.entry_ofFn (ha ▸ ho), entry_scale]
    ring

/-- Half the difference of two results over the step. -/
theorem pair_eq {a b : Tensor ℝ} (ha : a.shape = shape) (hb : b.shape = shape) :
    ∃ d, Tensor.linearCombination [0.5 / h, -(0.5 / h)] [a, b] = .ok d ∧ d.shape = shape ∧
      ∀ o < Tensor.volume shape, d.entry o = (a.entry o - b.entry o) / (2 * h) := by
  let items : List (ℝ × Tensor ℝ) := [(0.5 / h, a), (-(0.5 / h), b)]
  have hitems : ∀ e ∈ items, (Prod.snd e).shape = shape := by simp [items, ha, hb]
  have hsum : Tensor.linearCombination (items.map Prod.fst) (items.map Prod.snd) = _ :=
    linearCombination_eq (List.cons_ne_nil _ _) hitems
  refine ⟨_, hsum, rfl, ?_⟩
  intro o ho
  rw [Tensor.entry_ofFn ho]
  simp only [List.map_cons, List.map_nil, List.sum_cons, List.sum_nil]
  rw [mul_comm 2 h, ← div_div]
  ring

/-- One column for each item, from what a step gives for it. -/
theorem exists_columns {ι : Type} {items : List ι} {P : ι → Tensor ℝ → Prop}
    {step : ι → Except Error (Tensor ℝ)} (hstep : ∀ e ∈ items, ∃ d, step e = .ok d ∧ P e d) :
    ∃ column : ι → Tensor ℝ, items.mapM step = .ok (items.map column) ∧
      ∀ e ∈ items, P e (column e) := by
  have : Nonempty (Tensor ℝ) := ⟨.zeros []⟩
  choose! column hcolumn using hstep
  exact ⟨column, mapM_ok fun e he => (hcolumn e he).1, fun e he => (hcolumn e he).2⟩

/-- Pairs are folded one by one. -/
theorem pairs_eq_mapM {ι : Type} (items : List ι) (a b : ι → Tensor ℝ) :
    FiniteDifference.pairs h (items.flatMap fun e => [a e, b e]) =
      items.mapM fun e => Tensor.linearCombination [0.5 / h, -(0.5 / h)] [a e, b e] := by
  induction items with
  | nil => rfl
  | cons e items ih =>
    rw [List.flatMap_cons, List.cons_append, List.cons_append, List.nil_append,
      FiniteDifference.pairs, List.mapM_cons, ih]

end Quotients

section Differences

variable {t : Trace ℝ} {c : DifferenceConfig ℝ} {p : Plan ℝ} {selected shape : List ℕ}
  {R : Trace ℝ → Tensor ℝ}

theorem difference_forward (h : c.scheme = .forward) (i : ℕ) (g : Trace ℝ → ℝ) :
    (GradientMethod.finiteDifference c).difference i g t =
      (g (t.rebound i (t.paramValue i + c.step)) - g t) / c.step := by
  unfold GradientMethod.difference
  simp only [h]

theorem difference_backward (h : c.scheme = .backward) (i : ℕ) (g : Trace ℝ → ℝ) :
    (GradientMethod.finiteDifference c).difference i g t =
      (g t - g (t.rebound i (t.paramValue i - c.step))) / c.step := by
  unfold GradientMethod.difference
  simp only [h]

theorem difference_central (h : c.scheme = .central) (i : ℕ) (g : Trace ℝ → ℝ) :
    (GradientMethod.finiteDifference c).difference i g t =
      (g (t.rebound i (t.paramValue i + c.step)) -
        g (t.rebound i (t.paramValue i - c.step))) / (2 * c.step) := by
  unfold GradientMethod.difference
  simp only [h]

/-- The column is the difference of a function in the parameter, at every output where
    the results are those of the function. -/
def Quotes (t : Trace ℝ) (c : DifferenceConfig ℝ) (p : Plan ℝ) (shape : List ℕ)
    (R : Trace ℝ → Tensor ℝ) (i : ℕ) (d : Tensor ℝ) : Prop :=
  d.shape = shape ∧ ∀ o < Tensor.volume shape, ∀ g : Trace ℝ → ℝ,
    (∀ u ∈ p.traces, (R u).entry o = g u) →
      d.entry o = (GradientMethod.finiteDifference c).difference i g t

/-- The point itself comes first, and one neighbour of each parameter follows. -/
theorem results_of_one_side {neighbour : ℕ → Trace ℝ}
    (h : p.traces = t :: selected.flatMap fun i => [neighbour i]) :
    t ∈ p.traces ∧ (∀ i ∈ selected, neighbour i ∈ p.traces) ∧
      p.traces.map R = R t :: selected.map fun i => R (neighbour i) := by
  rw [h]
  refine ⟨List.mem_cons_self, fun i hi => ?_, ?_⟩
  · exact List.mem_cons_of_mem _ (List.mem_flatMap.mpr ⟨i, hi, List.mem_singleton.mpr rfl⟩)
  · rw [← List.map_eq_flatMap, List.map_cons, List.map_map]
    rfl

/-- Every selected parameter has its difference quotient as a column. -/
theorem differences_columns (hplan : FiniteDifference.plan t c = .ok p)
    (hselected : t.selectTrainable c.parameters = .ok selected) (hne : selected ≠ [])
    (hR : ∀ u ∈ p.traces, (R u).shape = shape) :
    ∃ column : ℕ → Tensor ℝ, FiniteDifference.columns c.scheme c.step (p.traces.map R) =
        .ok (selected.map column) ∧ ∀ i ∈ selected, Quotes t c p shape R i (column i) := by
  obtain ⟨moved, hmoved, htraces, -, -⟩ := differences_eq_ok hplan hselected hne
  have hown : moved = selected.map fun i =>
      (FiniteDifference.neighbours c.scheme c.step (t.paramValue i)).map (t.rebound i) :=
    eq_map_of_mapM hmoved fun i _ us hus =>
      eq_map_of_mapM hus fun x _ u hu => withParam_eq_rebound hu
  rw [hown, ← List.flatMap_def] at htraces
  cases hscheme : c.scheme with
  | central =>
    simp only [hscheme, FiniteDifference.neighbours, if_true, List.nil_append, List.map_cons,
      List.map_nil] at htraces
    have hmem : ∀ i ∈ selected,
        t.rebound i (t.paramValue i + c.step) ∈ p.traces ∧
          t.rebound i (t.paramValue i - c.step) ∈ p.traces := by
      intro i hi
      rw [htraces]
      exact ⟨List.mem_flatMap.mpr ⟨i, hi, by simp⟩, List.mem_flatMap.mpr ⟨i, hi, by simp⟩⟩
    have hcolumns : FiniteDifference.columns .central c.step (p.traces.map R) =
        selected.mapM fun i => Tensor.linearCombination [0.5 / c.step, -(0.5 / c.step)]
          [R (t.rebound i (t.paramValue i + c.step)),
            R (t.rebound i (t.paramValue i - c.step))] := by
      rw [htraces, List.map_flatMap]
      exact pairs_eq_mapM selected _ _
    rw [hcolumns]
    refine exists_columns (P := Quotes t c p shape R) fun i hi => ?_
    obtain ⟨hupper, hlower⟩ := hmem i hi
    obtain ⟨d, hd, hshape, hentry⟩ := pair_eq (h := c.step) (hR _ hupper) (hR _ hlower)
    refine ⟨d, hd, hshape, fun o ho g hg => ?_⟩
    rw [hentry o ho, hg _ hupper, hg _ hlower, difference_central hscheme]
  | forward =>
    simp only [hscheme, FiniteDifference.neighbours, reduceCtorEq, if_false, List.map_cons,
      List.map_nil] at htraces
    obtain ⟨hhere, hmoved, hresults⟩ := results_of_one_side (R := R) htraces
    have hcolumns : FiniteDifference.columns .forward c.step (p.traces.map R) =
        selected.mapM fun i => FiniteDifference.quotient c.step
          (R (t.rebound i (t.paramValue i + c.step))) (R t) := by
      rw [hresults]
      exact List.mapM_map
    rw [hcolumns]
    refine exists_columns (P := Quotes t c p shape R) fun i hi => ?_
    obtain ⟨d, hd, hshape, hentry⟩ :=
      quotient_eq (h := c.step) (hR _ (hmoved i hi)) (hR _ hhere)
    refine ⟨d, hd, hshape, fun o ho g hg => ?_⟩
    rw [hentry o ho, hg _ (hmoved i hi), hg _ hhere, difference_forward hscheme]
  | backward =>
    simp only [hscheme, FiniteDifference.neighbours, reduceCtorEq, if_false, List.map_cons,
      List.map_nil] at htraces
    obtain ⟨hhere, hmoved, hresults⟩ := results_of_one_side (R := R) htraces
    have hcolumns : FiniteDifference.columns .backward c.step (p.traces.map R) =
        selected.mapM fun i => FiniteDifference.quotient c.step (R t)
          (R (t.rebound i (t.paramValue i + -c.step))) := by
      rw [hresults]
      exact List.mapM_map
    rw [hcolumns]
    refine exists_columns (P := Quotes t c p shape R) fun i hi => ?_
    obtain ⟨d, hd, hshape, hentry⟩ :=
      quotient_eq (h := c.step) (hR _ hhere) (hR _ (hmoved i hi))
    refine ⟨d, hd, hshape, fun o ho g hg => ?_⟩
    rw [hentry o ho, hg _ (hmoved i hi), hg _ hhere, difference_backward hscheme,
      sub_eq_add_neg (t.paramValue i)]

/-- The plan of difference quotients folds results to the quotients of each parameter. -/
theorem differences_entry (hplan : FiniteDifference.plan t c = .ok p)
    (hselected : t.selectTrainable c.parameters = .ok selected) (hne : selected ≠ [])
    (hR : ∀ u ∈ p.traces, (R u).shape = shape) :
    ∃ T, p.fold (p.traces.map R) = .ok T ∧ T.shape = shape ++ [selected.length] ∧
      ∀ o < Tensor.volume shape, ∀ i : Fin selected.length, ∀ g : Trace ℝ → ℝ,
        (∀ u ∈ p.traces, (R u).entry o = g u) → T.entry (o * selected.length + i) =
          (GradientMethod.finiteDifference c).difference (selected.get i) g t := by
  obtain ⟨_, -, -, -, hfold⟩ := differences_eq_ok hplan hselected hne
  obtain ⟨column, hcolumns, hquotes⟩ := differences_columns hplan hselected hne hR
  have hcolumnsNe : selected.map column ≠ [] := by simpa using hne
  have hcolumnsShape : ∀ d ∈ selected.map column, d.shape = shape :=
    List.forall_mem_map.mpr fun i hi => (hquotes i hi).1
  obtain ⟨T, hT, hTshape, hentry⟩ := stackTrailing_eq hcolumnsNe hcolumnsShape
  rw [List.length_map] at hTshape hentry
  refine ⟨T, ?_, hTshape, ?_⟩
  · rw [hfold _ (List.length_map _), hcolumns]
    exact hT
  · intro o ho i g hg
    rw [hentry o ho i (column (selected.get i)) (by simp)]
    exact (hquotes _ (List.get_mem _ i)).2 o ho g hg

end Differences

/-! ## Either method -/

section Nested

variable {d : Differentiator ℝ} {t : Trace ℝ} {p : Plan ℝ} {selected out shape : List ℕ}
  {R E : Trace ℝ → Tensor ℝ}

/-- A plan of first derivatives folds what a function of traces gives to its differences in
    each selected parameter. -/
theorem firstOrder_entry (hplan : d.firstOrder t = .ok p) (hlinear : t.Linear)
    (hselected : t.selectTrainable d.method.parameters = .ok selected) (hne : selected ≠ [])
    (hout : t.outputShape = .ok out) (hR : ∀ u ∈ p.traces, (R u).shape = shape)
    (h : shape = out ∨ d.method.HasTerms t) :
    ∃ T, p.fold (p.traces.map R) = .ok T ∧ T.shape = shape ++ [selected.length] ∧
      ∀ o < Tensor.volume shape, ∀ i : Fin selected.length, ∀ g : Trace ℝ → ℝ,
        (∀ u ∈ p.traces, (R u).entry o = g u) → T.entry (o * selected.length + i) =
          d.method.difference (selected.get i) g t := by
  unfold Differentiator.firstOrder GradientMethod.plan at hplan
  cases hmethod : d.method with
  | parameterShift c =>
    rw [hmethod] at hplan hselected h
    exact shifts_entry hplan hlinear hselected hne hout hR h
  | finiteDifference c =>
    rw [hmethod] at hplan hselected
    exact differences_entry hplan hselected hne hR

/-- The tensor holds what a function of traces gives for the trace, differenced in `k`
    selected parameters, in every way to select them. -/
structure Differenced (method : GradientMethod ℝ) (E : Trace ℝ → Tensor ℝ)
    (selected out : List ℕ) (k : ℕ) (t : Trace ℝ) (T : Tensor ℝ) : Prop where
  shape : T.shape = out ++ List.replicate k selected.length
  entry : ∀ o < Tensor.volume out, ∀ indices : List (Fin selected.length), indices.length = k →
    T.entry (position selected.length o (indices.map (·.val))) =
      method.differences (indices.map selected.get) (fun v => (E v).entry o) t

/-- A function of traces is not differenced at order zero. -/
theorem differenced_zero (method : GradientMethod ℝ) (h : (E t).shape = out) :
    Differenced method E selected out 0 t (E t) := by
  refine ⟨h.trans (List.append_nil _).symm, fun o _ indices hlength => ?_⟩
  obtain rfl := List.length_eq_zero_iff.mp hlength
  rfl

/-- A plan of first derivatives differences once more what is given for its traces. -/
theorem differenced_succ {k : ℕ} (hplan : d.firstOrder t = .ok p) (hlinear : t.Linear)
    (hselected : t.selectTrainable d.method.parameters = .ok selected) (hne : selected ≠ [])
    (hout : t.outputShape = .ok out) (hterms : k = 0 ∨ d.method.HasTerms t)
    (hR : ∀ u ∈ p.traces, Differenced d.method E selected out k u (R u)) :
    ∃ T, p.fold (p.traces.map R) = .ok T ∧
      Differenced d.method E selected out (k + 1) t T := by
  have hshape : out ++ List.replicate k selected.length = out ∨ d.method.HasTerms t := by
    refine hterms.imp_left fun hk => ?_
    rw [hk]
    exact List.append_nil _
  obtain ⟨T, hT, hTshape, hentry⟩ := firstOrder_entry hplan hlinear hselected hne hout
    (fun u hu => (hR u hu).shape) hshape
  refine ⟨T, hT, ?_, ?_⟩
  · rw [hTshape, List.append_assoc, ← List.replicate_succ']
  · intro o ho indices hlength
    obtain ⟨inner, i, rfl⟩ : ∃ inner i, indices = inner ++ [i] := by
      have hnonempty := List.ne_nil_of_length_eq_add_one hlength
      exact ⟨_, _, (List.dropLast_append_getLast hnonempty).symm⟩
    have hinner : inner.length = k := by simpa using hlength
    have hbound : position selected.length o (inner.map (·.val)) <
        Tensor.volume (out ++ List.replicate k selected.length) := by
      rw [volume_append_replicate, ← hinner, ← List.length_map (f := Fin.val)]
      refine position_lt ho fun j hj => ?_
      obtain ⟨j, -, rfl⟩ := List.mem_map.mp hj
      exact j.isLt
    -- The outermost difference is that of the inner ones.
    unfold GradientMethod.differences
    rw [List.map_append, List.map_append, List.map_singleton, List.map_singleton,
      position_concat, List.foldl_append]
    exact hentry _ hbound i _ fun u hu => (hR u hu).entry o ho inner hinner

/-- Nested plans difference a function of traces as often as they nest. -/
theorem nested_differenced {more : ℕ} (hplan : d.nested more t = .ok p) (hlinear : t.Linear)
    (hselected : t.selectTrainable d.method.parameters = .ok selected) (hne : selected ≠ [])
    (hout : t.outputShape = .ok out) (hterms : d.NestsTerms more t)
    (hE : ∀ v shape, v.outputShape = .ok shape → (E v).shape = shape) :
    ∃ T, p.run (fun u => .ok (E u)) = .ok T ∧
      Differenced d.method E selected out (more + 1) t T := by
  induction more generalizing t p with
  | zero =>
    have hown : ∀ u ∈ p.traces, Differenced d.method E selected out 0 u (E u) := by
      intro u hu
      have hresembles := resembles_of_mem_firstOrder hplan hselected hne hu
      exact differenced_zero d.method (hE u out (hresembles.outputShape.trans hout))
    obtain ⟨T, hT, hdifferenced⟩ :=
      differenced_succ hplan hlinear hselected hne hout (.inl rfl) hown
    refine ⟨T, ?_, hdifferenced⟩
    rw [run_eq_fold (mapM_ok fun _ _ => rfl)]
    exact hT
  | succ more ih =>
    obtain ⟨q, hq, hnest⟩ := bind_eq_ok hplan
    obtain ⟨inner, hinner, -⟩ := bind_eq_ok hnest
    obtain ⟨hfirst, hothers⟩ := hterms
    let execute (u : Trace ℝ) : Except Error (Tensor ℝ) := do
      (← d.nested more u).run fun v => .ok (E v)
    have hrun : ∀ u ∈ q.traces, ∀ r, d.nested more u = .ok r → ∃ T,
        r.run (fun v => .ok (E v)) = .ok T ∧
          Differenced d.method E selected out (more + 1) u T := by
      intro u hu r hr
      have hresembles := resembles_of_mem_firstOrder hq hselected hne hu
      exact ih hr (hresembles.linear hlinear)
        ((selectTrainable_of_resembles hresembles _).trans hselected)
        (hresembles.outputShape.trans hout) (hothers q hq u hu)
    -- The traces of the outer plan are executed by their own plans.
    have hexecute : ∀ u ∈ q.traces, execute u = .ok (resultOf execute u) ∧
        Differenced d.method E selected out (more + 1) u (resultOf execute u) := by
      intro u hu
      obtain ⟨r, hr⟩ := ok_of_mapM hinner hu
      obtain ⟨T, hT, hdifferenced⟩ := hrun u hu r hr
      have hu' : execute u = .ok T := by
        show (do (← d.nested more u).run fun v => .ok (E v)) = _
        rw [hr]
        exact hT
      rw [resultOf_eq hu']
      exact ⟨hu', hdifferenced⟩
    obtain ⟨T, hT, hdifferenced⟩ := differenced_succ hq hlinear hselected hne hout
      (.inr hfirst) fun u hu => (hexecute u hu).2
    refine ⟨T, ?_, hdifferenced⟩
    rw [run_andThen hnest fun u hu r hr => (hrun u hu r hr).imp fun _ => And.left,
      run_eq_fold (mapM_ok fun u hu => (hexecute u hu).1)]
    exact hT

end Nested

/-! ## Fixed rules commute -/

section Commuting

variable {u : Trace ℝ} {i : ℕ}

theorem rebound_assign {o p : ℕ} (h : u.paramLocation? i = some (o, p)) (v : ℕ → ℝ) (x : ℝ) :
    (u.assign v).rebound i x = u.assign (Function.update v i x) :=
  (withParam_eq_rebound (withParam_assign h v x)).symm

theorem rebound_of_none (h : u.paramLocation? i = none) (v : ℕ → ℝ) (x : ℝ) :
    (u.assign v).rebound i x = u.assign v := by
  have hlocation : (u.assign v).paramLocation? i = none := (locate_assignAll _ v i).trans h
  unfold Trace.rebound Trace.withParam
  rw [hlocation]
  rfl

/-- A rule without terms gives zero. -/
theorem shiftAt_nil (i : ℕ) (f : (ℕ → ℝ) → ℝ) (v : ℕ → ℝ) : shiftAt ⟨[]⟩ i f v = 0 := by
  unfold shiftAt
  rw [rule_apply_eq]
  rfl

/-- A weighted difference of the values at two shifts. -/
theorem shiftAt_pair (a b s s' : ℝ) (i : ℕ) (f : (ℕ → ℝ) → ℝ) (v : ℕ → ℝ) :
    shiftAt ⟨[⟨a, 1, s⟩, ⟨b, 1, s'⟩]⟩ i f v =
      a * f (Function.update v i (v i + s)) + b * f (Function.update v i (v i + s')) := by
  unfold shiftAt
  rw [rule_apply_eq]
  simp [ShiftTerm.point]

/-- At assigned values, differences by fixed rules are shifts by one rule. -/
theorem exists_rule_of_fixed (method : GradientMethod ℝ) (h : FixedAt u i) :
    ∃ rule : ShiftRule ℝ, ∀ (g : Trace ℝ → ℝ) (v : ℕ → ℝ),
      method.difference i g (u.assign v) = shiftAt rule i (fun w => g (u.assign w)) v := by
  cases hfound : u.paramLocation? i with
  | none =>
    refine ⟨⟨[]⟩, fun g v => ?_⟩
    rw [shiftAt_nil]
    cases method with
    | parameterShift c =>
      have hlocation : (u.assign v).paramLocation? i = none := (locate_assignAll _ v i).trans hfound
      unfold GradientMethod.difference Trace.shiftRule
      rw [hlocation]
      rfl
    | finiteDifference c =>
      unfold GradientMethod.difference
      simp only [rebound_of_none hfound, sub_self, zero_div]
      cases c.scheme <;> rfl
  | some location =>
    obtain ⟨o, p⟩ := location
    cases method with
    | parameterShift c =>
      cases hrule : u.shiftRule i c.step with
      | ok rule =>
        refine ⟨rule, fun g v => ?_⟩
        unfold GradientMethod.difference shiftAt
        simp only [shiftRule_assign_of_fixed h, hrule, paramValue_assign hfound,
          rebound_assign hfound]
      | error e =>
        refine ⟨⟨[]⟩, fun g v => ?_⟩
        rw [shiftAt_nil]
        unfold GradientMethod.difference
        simp only [shiftRule_assign_of_fixed h, hrule]
    | finiteDifference c =>
      cases hscheme : c.scheme with
      | forward =>
        refine ⟨⟨[⟨1 / c.step, 1, c.step⟩, ⟨-(1 / c.step), 1, 0⟩]⟩, fun g v => ?_⟩
        rw [difference_forward hscheme, paramValue_assign hfound, rebound_assign hfound,
          shiftAt_pair, add_zero, Function.update_eq_self]
        ring
      | backward =>
        refine ⟨⟨[⟨1 / c.step, 1, 0⟩, ⟨-(1 / c.step), 1, -c.step⟩]⟩, fun g v => ?_⟩
        rw [difference_backward hscheme, paramValue_assign hfound, rebound_assign hfound,
          shiftAt_pair, add_zero, Function.update_eq_self, sub_eq_add_neg (v i)]
        ring
      | central =>
        refine ⟨⟨[⟨1 / (2 * c.step), 1, c.step⟩, ⟨-(1 / (2 * c.step)), 1, -c.step⟩]⟩,
          fun g v => ?_⟩
        rw [difference_central hscheme, paramValue_assign hfound, rebound_assign hfound,
          rebound_assign hfound, shiftAt_pair, sub_eq_add_neg (v i)]
        ring

/-- Differences by fixed rules may be taken in any order, of any function. -/
theorem differences_perm (method : GradientMethod ℝ) {is js : List ℕ} (hperm : is.Perm js)
    (h : ∀ i ∈ is, FixedAt u i) (g : Trace ℝ → ℝ) :
    method.differences is g u = method.differences js g u := by
  have hrules : ∀ i, ∃ rule : ShiftRule ℝ, FixedAt u i → ∀ (g : Trace ℝ → ℝ) (v : ℕ → ℝ),
      method.difference i g (u.assign v) = shiftAt rule i (fun w => g (u.assign w)) v := by
    intro i
    by_cases hi : FixedAt u i
    · exact (exists_rule_of_fixed method hi).imp fun _ hrule _ => hrule
    · exact ⟨⟨[]⟩, fun hi' => absurd hi' hi⟩
  choose rule hrule using hrules
  -- Read at assigned values, the differences are shifts.
  have hshifts : ∀ ks : List ℕ, (∀ k ∈ ks, FixedAt u k) → ∀ (g : Trace ℝ → ℝ) (v : ℕ → ℝ),
      method.differences ks g (u.assign v) =
        ks.foldl (fun f k => shiftAt (rule k) k f) (fun w => g (u.assign w)) v := by
    intro ks hks
    induction ks with
    | nil => exact fun _ _ => rfl
    | cons k ks ih =>
      intro g v
      obtain ⟨hk, hks⟩ := List.forall_mem_cons.mp hks
      rw [List.foldl_cons, ← funext (hrule k hk g)]
      exact ih hks (method.difference k g) v
  have hcomm : is.foldl (fun f k => shiftAt (rule k) k f) (fun w => g (u.assign w)) =
      js.foldl (fun f k => shiftAt (rule k) k f) (fun w => g (u.assign w)) := by
    refine hperm.foldl_eq' (fun i _ j _ f => ?_) _
    -- In one parameter both shifts are by the same rule.
    by_cases hij : i = j
    · rw [hij]
    · exact shiftAt_comm_of_ne _ _ (Ne.symm hij) f
  have hself := assign_point u
  rw [← hself, hshifts is h, hshifts js fun j hj => h j (hperm.mem_iff.mpr hj), hcomm]

end Commuting

/-! ## Derivatives -/

/-- What a function of traces gives for the traces of a derivative is combined to its
    iterated differences at the expanded trace, and to what it gives for the trace itself
    at order zero.  Where no rule depends on the values of parameters, the parameter
    dimensions may be exchanged. -/
theorem derivative_iterated (d : Differentiator ℝ) (t : Trace ℝ) (hlinear : t.Linear)
    (E : Trace ℝ → Tensor ℝ)
    (hE : ∀ v shape, v.outputShape = .ok shape → (E v).shape = shape) {k : ℕ} {plan : Plan ℝ}
    (hplan : d.derivative t k = .ok plan)
    (hterms : ∀ u, d.expand t = .ok u → d.NestsTerms (k - 1) u) :
    (k = 0 → plan.combine (plan.traces.map E) = .ok (E t)) ∧
    (0 < k → ∃ u selected out T, d.expand t = .ok u ∧
      u.selectTrainable d.method.parameters = .ok selected ∧ u.outputShape = .ok out ∧
      plan.combine (plan.traces.map E) = .ok T ∧
      T.shape = out ++ List.replicate k selected.length ∧
      (∀ o < Tensor.volume out, ∀ indices : List (Fin selected.length), indices.length = k →
        T.entry (position selected.length o (indices.map (·.val))) =
          d.method.differences (indices.map selected.get) (fun v => (E v).entry o) u) ∧
      ((∀ i ∈ selected, FixedAt u i) → ∀ o < Tensor.volume out,
        ∀ indices indices' : List (Fin selected.length), indices.length = k →
          indices.Perm indices' →
          T.entry (position selected.length o (indices.map (·.val))) =
            T.entry (position selected.length o (indices'.map (·.val))))) := by
  cases k with
  | zero =>
    refine ⟨fun _ => ?_, fun hk => absurd hk (lt_irrefl 0)⟩
    unfold Differentiator.derivative at hplan
    rw [if_neg (Nat.not_lt_zero _), if_pos rfl] at hplan
    obtain rfl := Except.ok.inj hplan
    rfl
  | succ more =>
    refine ⟨fun hk => absurd hk (Nat.succ_ne_zero more), fun _ => ?_⟩
    obtain ⟨u, selected, hexpand, hselected, -, hplan⟩ := derivative_succ_eq_ok hplan
    have hcomputes : ∃ out T, u.outputShape = .ok out ∧
        plan.combine (plan.traces.map E) = .ok T ∧
          Differenced d.method E selected out (more + 1) u T := by
      by_cases hempty : selected = []
      · subst hempty
        obtain ⟨out, hout, hplan⟩ := bind_eq_ok hplan
        obtain rfl := Except.ok.inj hplan
        -- There is no way to select a parameter.
        refine ⟨out, _, hout, rfl, rfl, fun o _ indices hlength => ?_⟩
        cases indices with
        | nil => cases hlength
        | cons i _ => exact i.elim0
      · rw [if_neg (fun hnil => hempty (List.isEmpty_iff.mp hnil))] at hplan
        obtain ⟨p, hp⟩ := firstOrder_of_nested hplan
        obtain ⟨out, hout⟩ := outputShape_of_firstOrder hp hselected hempty
        -- The expansion keeps the measurements, and so it measures no variance.
        have hlinear' : u.Linear := fun m hm => hlinear m (measurements_of_expand hexpand ▸ hm)
        obtain ⟨T, hrun, hdifferenced⟩ := nested_differenced hplan hlinear' hselected hempty hout
          (hterms u hexpand) hE
        refine ⟨out, T, hout, ?_, hdifferenced⟩
        unfold Plan.run at hrun
        rwa [mapM_ok fun _ _ => rfl] at hrun
    obtain ⟨out, T, hout, hT, hdifferenced⟩ := hcomputes
    refine ⟨u, selected, out, T, hexpand, hselected, hout, hT, hdifferenced.shape,
      hdifferenced.entry, fun hfixed o ho indices indices' hlength hperm => ?_⟩
    rw [hdifferenced.entry o ho indices hlength,
      hdifferenced.entry o ho indices' (hperm.length_eq ▸ hlength)]
    refine differences_perm d.method (hperm.map _) (fun i hi => ?_) _
    obtain ⟨j, -, rfl⟩ := List.mem_map.mp hi
    exact hfixed _ (List.get_mem selected j)

/-- The product of the parameter values for each operation, in the shape of the output. -/
noncomputable def valueProduct (t : Trace ℝ) : Tensor ℝ :=
  match t.outputShape with
  | .ok shape => .ofFn shape fun _ => t.operations.length * t.values.prod
  | .error _ => .zeros []

theorem valueProduct_shape (v : Trace ℝ) (shape : List ℕ) (h : v.outputShape = .ok shape) :
    (valueProduct v).shape = shape := by
  unfold valueProduct
  rw [h]
  rfl

/-- A gate that is decomposed to two controlled rotations by the same angle. -/
noncomputable def twofoldGate : GateSpec ℝ :=
  { name := "D"
    wireCount := 2
    decompositions := [fun params wires =>
      .ok [StandardGate.crx.call params wires, StandardGate.cry.call params wires]] }

/-- All probabilities of two wires after some operations. -/
noncomputable def probabilitiesOf (operations : List (Operation ℝ)) : Trace ℝ :=
  { operations
    measurements := [.probs []]
    register := 2
    shots := .analytic
    layout := .empty }

/-- Order zero is what a function gives for the trace itself, and not for the expanded trace,
    which has two operations in the place of one. -/
theorem derivative_iterated_unexpanded :
    let t := probabilitiesOf [⟨twofoldGate, [.trainable 1], [0, 1]⟩]
    let u := probabilitiesOf [⟨StandardGate.crx.spec, [.trainable 1], [0, 1]⟩,
      ⟨StandardGate.cry.spec, [.trainable 1], [0, 1]⟩]
    byShifts.expand t = .ok u ∧ byShifts.method.HasTerms u ∧
    (∀ v shape, v.outputShape = .ok shape → (valueProduct v).shape = shape) ∧
    ∃ plan T, byShifts.derivative t 0 = .ok plan ∧
      plan.combine (plan.traces.map valueProduct) = .ok T ∧
      T.entry 0 ≠ byShifts.method.differences [] (fun v => (valueProduct v).entry 0) u := by
  intro t u
  refine ⟨rfl, ?_, valueProduct_shape, .identity t, valueProduct t, rfl, rfl, ?_⟩
  · intro selected hselected i hi rule hrule
    obtain rfl : [0, 1] = selected := Except.ok.inj hselected
    simp only [List.mem_cons, List.not_mem_nil, or_false] at hi
    rcases hi with rfl | rfl
    all_goals
      obtain rfl := Except.ok.inj hrule
      exact List.cons_ne_nil _ _
  · have hone : (valueProduct t).entry 0 = (1 : ℕ) * (1 * 1) := rfl
    have htwo : (valueProduct u).entry 0 = (2 : ℕ) * (1 * (1 * 1)) := rfl
    show (valueProduct t).entry 0 ≠ (valueProduct u).entry 0
    rw [hone, htwo]
    norm_num

/-- All second differences of the product of two parameters, in both orders. -/
theorem derivative_iterated_opposed : ∃ plan T, byShifts.derivative opposed 2 = .ok plan ∧
    plan.combine (plan.traces.map valueProduct) = .ok T ∧ T.shape = [4, 2, 2] ∧
    ∀ o < 4, ∀ i j : Fin 2,
      T.entry ((o * 2 + i) * 2 + j) = byShifts.method.differences [[0, 1].get i, [0, 1].get j]
        (fun v => (valueProduct v).entry o) opposed ∧
      T.entry ((o * 2 + i) * 2 + j) = T.entry ((o * 2 + j) * 2 + i) := by
  obtain ⟨plan, hplan⟩ : ∃ plan, byShifts.derivative opposed 2 = .ok plan := ⟨_, rfl⟩
  have hterms : ∀ u, byShifts.expand opposed = .ok u → byShifts.NestsTerms 1 u := by
    intro u hu
    obtain rfl : opposed = u := Except.ok.inj hu
    refine ⟨?_, fun _ _ _ _ => trivial⟩
    intro selected hselected i hi rule hrule
    obtain rfl : [0, 1] = selected := Except.ok.inj hselected
    simp only [List.mem_cons, List.not_mem_nil, or_false] at hi
    rcases hi with rfl | rfl
    all_goals
      obtain rfl := Except.ok.inj hrule
      exact List.cons_ne_nil _ _
  have hlinear : opposed.Linear := by
    intro m hm
    obtain rfl := List.mem_singleton.mp hm
    exact Readout.noConfusion
  obtain ⟨u, selected, out, T, hexpand, hselected, hout, hT, hshape, hentry, hperm⟩ :=
    (derivative_iterated byShifts opposed hlinear valueProduct valueProduct_shape hplan
      hterms).2 Nat.two_pos
  obtain rfl : opposed = u := Except.ok.inj hexpand
  obtain rfl : [0, 1] = selected := Except.ok.inj hselected
  obtain rfl : [4] = out := Except.ok.inj hout
  have hfixed : ∀ i ∈ [0, 1], FixedAt opposed i := fun _ _ _ _ op _ hop =>
    fixedRule_of_standard (exact_opposed.standard op (List.mem_of_getElem? hop))
  refine ⟨plan, T, hplan, hT, hshape, fun o ho i j => ⟨hentry o ho [i, j] rfl, ?_⟩⟩
  exact hperm hfixed o ho [i, j] [j, i] rfl (.swap j i [])

end Proofs

end CircuitGrad
