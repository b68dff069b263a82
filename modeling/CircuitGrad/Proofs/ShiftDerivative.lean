import CircuitGrad.Proofs.ShiftPlan

/-! # Derivatives by the shift rule

    Executing the plan of a derivative of order `k` gives the tensor of all
    `k`-th partial derivatives of the executed result in the selected
    parameters.  Plans nest, so the induction is on the order: the columns of
    the outer plan shift what the inner plans compute (`nested_run`), and what
    shift operators compute one after the other are iterated partial
    derivatives.
-/

namespace CircuitGrad

/-- The result of a trace with its parameters bound to the values of `v`, at a
    row-major position. -/
noncomputable def Trace.resultAt {ρ : Type} (t : Trace ℝ) (sampler : Sampler ℝ ρ) (o : ℕ)
    (v : ℕ → ℝ) : ℝ :=
  match do (← t.withValues ((List.range t.paramCount).map v)).simulate sampler with
  | .ok T => T.entry o
  | .error _ => 0

/-- Row-major position of an output and trailing indices below `m`. -/
def position (m o : ℕ) (indices : List ℕ) : ℕ := indices.foldl (fun p i => p * m + i) o

namespace Proofs

variable {ρ : Type}

/-! ## Positions -/

theorem position_concat (m o : ℕ) (indices : List ℕ) (i : ℕ) :
    position m o (indices ++ [i]) = position m o indices * m + i := by
  unfold position
  rw [List.foldl_append]
  rfl

theorem position_lt {m o V : ℕ} {indices : List ℕ} (ho : o < V) (h : ∀ i ∈ indices, i < m) :
    position m o indices < V * m ^ indices.length := by
  induction indices generalizing o V with
  | nil => simpa [position] using ho
  | cons i indices ih =>
    obtain ⟨hi, hrest⟩ := List.forall_mem_cons.mp h
    have hnext : o * m + i < V * m := by
      have hstep : (o + 1) * m ≤ V * m := Nat.mul_le_mul_right m ho
      rw [Nat.succ_mul] at hstep
      omega
    have hbound := ih hnext hrest
    rw [List.length_cons, Nat.pow_succ', ← Nat.mul_assoc]
    exact hbound

theorem volume_append_replicate (shape : List ℕ) (k m : ℕ) :
    Tensor.volume (shape ++ List.replicate k m) = Tensor.volume shape * m ^ k := by
  rw [Tensor.volume_append]
  congr 1
  induction k with
  | zero => rfl
  | succ k ih => rw [List.replicate_succ, Tensor.volume_cons, ih, Nat.pow_succ']

/-! ## Nested plans -/

/-- Plans that all can be run are run one after the other. -/
theorem foldEach_eq {execute : Trace ℝ → Except Error (Tensor ℝ)} {plans : List (Plan ℝ)}
    {Ts : List (Tensor ℝ)} (h : plans.mapM (·.run execute) = .ok Ts) :
    ∃ results, (plans.flatMap (·.traces)).mapM execute = .ok results ∧
      Plan.foldEach plans results = .ok Ts := by
  induction plans generalizing Ts with
  | nil =>
    cases h
    exact ⟨[], rfl, rfl⟩
  | cons p plans ih =>
    obtain ⟨T, Ts', hrun, hTs', rfl⟩ := mapM_cons_eq_ok h
    obtain ⟨rest, hrest, hfold⟩ := ih hTs'
    obtain ⟨own, hown, hcombine⟩ := bind_eq_ok hrun
    refine ⟨own ++ rest, ?_, foldEach_cons_eq_ok hcombine hfold⟩
    rw [List.flatMap_cons, List.mapM_append, hown, hrest]
    rfl

/-- The stages of the traces of a plan, run one by one, are the runs of the
    traces' own plans. -/
theorem mapM_stage {stage : Trace ℝ → Except Error (Plan ℝ)}
    {execute : Trace ℝ → Except Error (Tensor ℝ)} {us : List (Trace ℝ)}
    (hrun : ∀ u ∈ us, ∀ r, stage u = .ok r → ∃ T, r.run execute = .ok T) {rs : List (Plan ℝ)}
    (hrs : us.mapM stage = .ok rs) : ∃ Ts, rs.mapM (·.run execute) = .ok Ts ∧
      (us.mapM fun u => do (← stage u).run execute) = .ok Ts := by
  induction us generalizing rs with
  | nil =>
    cases hrs
    exact ⟨[], rfl, rfl⟩
  | cons u us ih =>
    obtain ⟨hfirst, hothers⟩ := List.forall_mem_cons.mp hrun
    obtain ⟨r, rest, hr, hrest, rfl⟩ := mapM_cons_eq_ok hrs
    obtain ⟨T, hT⟩ := hfirst r hr
    obtain ⟨Ts, hTs, hTs'⟩ := ih hothers hrest
    have hu : (do (← stage u).run execute) = Except.ok T := by
      rw [hr]
      exact hT
    refine ⟨T :: Ts, ?_, ?_⟩
    · rw [List.mapM_cons, hT, hTs]
      rfl
    · rw [List.mapM_cons, hu, hTs']
      rfl

/-- A composite plan folds what its inner plans are executed to. -/
theorem run_andThen {p q : Plan ℝ} {stage : Trace ℝ → Except Error (Plan ℝ)}
    (h : p.andThen stage = .ok q) {execute : Trace ℝ → Except Error (Tensor ℝ)}
    (hrun : ∀ u ∈ p.traces, ∀ r, stage u = .ok r → ∃ T, r.run execute = .ok T) :
    q.run execute = p.run (fun u => do (← stage u).run execute) := by
  obtain ⟨inner, hinner, h⟩ := bind_eq_ok h
  obtain rfl := Except.ok.inj h
  obtain ⟨Ts, hTs, hTs'⟩ := mapM_stage hrun hinner
  obtain ⟨results, hresults, hfold⟩ := foldEach_eq hTs
  rw [run_eq_fold hTs', run_eq_fold hresults]
  show (do p.fold (← Plan.foldEach inner results)) = _
  rw [hfold]
  rfl

/-! ## First order -/

/-- An assigned trace is executed to its outputs. -/
theorem simulate_assign {t : Trace ℝ} (ht : t.Exact) (sampler : Sampler ℝ ρ) (w : ℕ → ℝ) :
    ∃ T, (t.assign w).simulate sampler = .ok T ∧ T.shape = (layoutOf t).shape ∧
      ∀ o, T.entry o = output t o w :=
  simulate_exact sampler (exact_assign ht w) (finalState_assign ht w)

theorem shapes_meansOf {t : Trace ℝ} (ht : t.Exact) :
    (meansOf t).measurements.map (shapeOf t.register) =
      t.measurements.map (shapeOf t.register) := by
  show (t.measurements.map meanOf).map (shapeOf t.register) = _
  rw [List.map_map]
  exact List.map_congr_left fun m hm => shapeOf_meanOf _ (ht.measurements m hm)

theorem layoutOf_meansOf {t : Trace ℝ} (ht : t.Exact) : layoutOf (meansOf t) = layoutOf t :=
  congrArg Packing.ofShapes (shapes_meansOf ht)

/-- What a derivative of the means becomes where a variance is measured. -/
noncomputable def chainAt (t : Trace ℝ) (v : ℕ → ℝ) (o : ℕ) (x : ℝ) : ℝ :=
  if isVariance t.register t.measurements o then x * output (meansOf t) o v * (-2) else x

theorem shiftAt_congr {rule : ShiftRule ℝ} {i : ℕ} {f g : (ℕ → ℝ) → ℝ} {v : ℕ → ℝ}
    (h : ∀ term ∈ rule.terms, f (Function.update v i (term.point (v i))) =
      g (Function.update v i (term.point (v i)))) : shiftAt rule i f v = shiftAt rule i g v :=
  rule_apply_congr h

section Plans

variable {t : Trace ℝ} {v : ℕ → ℝ} {c : ShiftConfig ℝ} {p : Plan ℝ} {selected : List ℕ}
  {rules : List (ShiftRule ℝ)} {vs : List ℕ}

/-- A plan of an exact trace is made from the parameters that it selects. -/
theorem selects_of_plan (ht : t.Exact) (hselected : t.selectTrainable c.parameters = .ok selected)
    (hne : selected ≠ []) (hplan : ParameterShift.plan t c = .ok p) :
    ∃ rules vs, Selects t c selected rules vs := by
  obtain ⟨selected', vs, base, rules, shifted, shape, hselected', hvs, -, -, hrules, -⟩ :=
    plan_eq_ok hplan
  rw [hselected] at hselected'
  obtain rfl := Except.ok.inj hselected'
  exact ⟨rules, vs, ht, hselected, hrules, hvs, hne⟩

theorem exists_assign_of_mem (h : Selects t c selected rules vs)
    (hplan : ParameterShift.plan (t.assign v) c = .ok p) {u : Trace ℝ} (hu : u ∈ p.traces) :
    ∃ w, u = (meansOf t).assign w := by
  rw [(plan_assign h hplan).1] at hu
  rcases List.mem_append.mp hu with hu | hu
  · obtain ⟨e, -, hu⟩ := List.mem_flatMap.mp hu
    obtain ⟨term, -, rfl⟩ := List.mem_map.mp hu
    exact ⟨_, rfl⟩
  · by_cases hempty : vs.isEmpty = true
    · rw [if_pos hempty] at hu
      cases hu
    · rw [if_neg hempty] at hu
      exact ⟨v, List.mem_singleton.mp hu⟩

/-- The trace for a term of a rule of the plan is one of the plan's. -/
theorem shifted_mem_traces (h : Selects t c selected rules vs)
    (hplan : ParameterShift.plan (t.assign v) c = .ok p) {e : ℕ × ShiftRule ℝ}
    (he : e ∈ selected.zip rules) {term : ShiftTerm ℝ} (hterm : term ∈ e.2.terms) :
    (meansOf t).assign (Function.update v e.1 (term.point (v e.1))) ∈ p.traces := by
  rw [(plan_assign h hplan).1]
  exact List.mem_append_left _ (List.mem_flatMap.mpr ⟨e, he, List.mem_map_of_mem hterm⟩)

/-- The means are executed to tensors of the trace's own layout. -/
theorem simulate_meansOf (ht : t.Exact) (sampler : Sampler ℝ ρ) (w : ℕ → ℝ) :
    ∃ T, ((meansOf t).assign w).simulate sampler = .ok T ∧ T.shape = (layoutOf t).shape ∧
      ∀ o, T.entry o = output (meansOf t) o w :=
  layoutOf_meansOf ht ▸ simulate_assign (exact_meansOf ht) sampler w

/-- What the plan of first derivatives does to a sum of shifted means. -/
theorem chain_eq (ht : t.Exact) (hvs : t.variances = .ok vs) {mean d : Tensor ℝ}
    (hmean : mean.shape = (layoutOf t).shape) (hentry : ∀ o, mean.entry o = output (meansOf t) o v)
    (hd : d.shape = (layoutOf t).shape) : ∃ d',
      (if vs.isEmpty then .ok d
        else ParameterShift.chainVariance ((meansOf t).assign v) vs mean d) = .ok d' ∧
      d'.shape = (layoutOf t).shape ∧
      ∀ o < Tensor.volume (layoutOf t).shape, d'.entry o = chainAt t v o (d.entry o) := by
  have hlayout : (layoutOf (meansOf t)).shape = (layoutOf t).shape :=
    congrArg Packing.shape (layoutOf_meansOf ht)
  have hmeans := exact_meansOf ht
  by_cases hempty : vs.isEmpty = true
  · have hnone := (variances_isEmpty hvs).mp hempty
    refine ⟨d, if_pos hempty, hd, fun o _ => ?_⟩
    rw [chainAt, isVariance_eq_false hnone]
    rfl
  · have hshapes : ((meansOf t).assign v).measurements.map
        (shapeOf ((meansOf t).assign v).register) = t.measurements.map (shapeOf t.register) :=
      shapes_meansOf ht
    obtain ⟨d', hd', hshape, hchained⟩ := chainVariance_eq hmeans.measurements hmeans.analytic
      hshapes (fun j m hm => contains_variances hvs hm) (hmean.trans hlayout.symm)
      (hd.trans hlayout.symm)
    refine ⟨d', (if_neg hempty).trans hd', hshape.trans hlayout, fun o _ => ?_⟩
    rw [hchained, hentry]
    rfl

/-- The plan of first derivatives gives the shifted sums of the means, chained
    where a variance is measured. -/
theorem firstOrder_run (h : Selects t c selected rules vs) (sampler : Sampler ℝ ρ)
    (hplan : ParameterShift.plan (t.assign v) c = .ok p) :
    ∃ T, p.run (·.simulate sampler) = .ok T ∧
      T.shape = (layoutOf t).shape ++ [selected.length] ∧
      ∀ o < Tensor.volume (layoutOf t).shape, ∀ e ∈ (selected.zip rules).zipIdx,
        T.entry (o * selected.length + e.2) =
          chainAt t v o (shiftAt e.1.2 e.1.1 (output (meansOf t) o) v) := by
  have hexecute : ∀ u ∈ p.traces, ∃ T, u.simulate sampler = .ok T ∧
      T.shape = (layoutOf t).shape := by
    intro u hu
    obtain ⟨w, rfl⟩ := exists_assign_of_mem h hplan hu
    obtain ⟨T, hT, hshape, -⟩ := simulate_meansOf h.exact sampler w
    exact ⟨T, hT, hshape⟩
  -- Every trace of the plan is a trace of the means at some values.
  have hresult : ∀ w, (resultOf (·.simulate sampler) ((meansOf t).assign w)).shape =
      (layoutOf t).shape ∧ ∀ o, (resultOf (·.simulate sampler) ((meansOf t).assign w)).entry o =
        output (meansOf t) o w := by
    intro w
    obtain ⟨T, hT, hshape, hentry⟩ := simulate_meansOf h.exact sampler w
    rw [resultOf_eq hT]
    exact ⟨hshape, hentry⟩
  obtain ⟨T, hrun, hshape, hentry⟩ := plan_run h hplan hexecute (chainAt t v) fun d hd =>
    chain_eq h.exact h.variances (hresult v).1 (hresult v).2 hd
  refine ⟨T, hrun, hshape, fun o ho e he => ?_⟩
  rw [hentry o ho e he]
  exact congrArg (chainAt t v o) (shiftAt_congr fun _ _ => (hresult _).2 o)

/-! ## Higher orders -/

/-- A tensor of the outputs at `w`, shifted in `k` selected parameters one
    after the other, in every way to select them. -/
structure ShiftedIn (t : Trace ℝ) (selected : List ℕ) (rules : List (ShiftRule ℝ)) (k : ℕ)
    (w : ℕ → ℝ) (T : Tensor ℝ) : Prop where
  shape : T.shape = (layoutOf t).shape ++ List.replicate k selected.length
  entry : ∀ o < Tensor.volume (layoutOf t).shape, ∀ es : List ((ℕ × ShiftRule ℝ) × ℕ),
    es.length = k → (∀ e ∈ es, e ∈ (selected.zip rules).zipIdx) →
    T.entry (position selected.length o (es.map (·.2))) =
      (es.map (·.1)).foldl (fun g e => shiftAt e.2 e.1 g) (output t o) w

/-- The columns of selected parameters are positions in the tensor. -/
theorem position_columns_lt (h : Selects t c selected rules vs)
    {es : List ((ℕ × ShiftRule ℝ) × ℕ)} (hes : ∀ e ∈ es, e ∈ (selected.zip rules).zipIdx)
    {shape : List ℕ} {o : ℕ} (ho : o < Tensor.volume shape) :
    position selected.length o (es.map (·.2)) <
      Tensor.volume (shape ++ List.replicate es.length selected.length) := by
  have hcount : (es.map (·.2)).length = es.length := List.length_map _
  rw [volume_append_replicate, ← hcount]
  refine position_lt ho fun i hi => ?_
  obtain ⟨e, he, rfl⟩ := List.mem_map.mp hi
  have hlt := (List.getElem?_eq_some_iff.mp (List.mem_zipIdx_iff_getElem?.mp (hes e he))).1
  rwa [h.length_zip] at hlt

/-- A plan of first derivatives shifts once more what its traces are executed
    to. -/
theorem shiftedIn_succ (h : Selects t c selected rules vs)
    (hnone : ∀ m ∈ t.measurements, m.readout ≠ .variance)
    (hplan : ParameterShift.plan (t.assign v) c = .ok p) {k : ℕ}
    (execute : Trace ℝ → Except Error (Tensor ℝ))
    (hexecute : ∀ w, t.assign w ∈ p.traces →
      ∃ T, execute (t.assign w) = .ok T ∧ ShiftedIn t selected rules k w T) :
    ∃ T, p.run execute = .ok T ∧ ShiftedIn t selected rules (k + 1) v T := by
  have hself := meansOf_eq_self hnone
  have hshapes : ∀ u ∈ p.traces, ∃ T, execute u = .ok T ∧
      T.shape = (layoutOf t).shape ++ List.replicate k selected.length := by
    intro u hu
    obtain ⟨w, rfl⟩ := exists_assign_of_mem h hplan hu
    rw [hself] at hu ⊢
    obtain ⟨T, hT, hshifted⟩ := hexecute w hu
    exact ⟨T, hT, hshifted.shape⟩
  have hempty : vs.isEmpty = true := (variances_isEmpty h.variances).mpr hnone
  obtain ⟨T, hrun, hshape, hentry⟩ := plan_run h hplan hshapes (fun _ x => x) fun d hd =>
    ⟨d, if_pos hempty, hd, fun _ _ => rfl⟩
  refine ⟨T, hrun, ?_, ?_⟩
  · rw [hshape, List.append_assoc, ← List.replicate_succ']
  · intro o ho es hlength hes
    have hne : es ≠ [] := List.ne_nil_of_length_eq_add_one hlength
    obtain ⟨es, e, rfl⟩ : ∃ es' e, es = es' ++ [e] :=
      ⟨es.dropLast, es.getLast hne, (List.dropLast_append_getLast hne).symm⟩
    rw [List.length_append, List.length_singleton, Nat.add_right_cancel_iff] at hlength
    have hes' : ∀ e' ∈ es, e' ∈ (selected.zip rules).zipIdx := fun e' he' =>
      hes e' (List.mem_append_left _ he')
    have he := hes e (List.mem_append_right _ List.mem_cons_self)
    have hbound := position_columns_lt h hes' ho
    rw [hlength] at hbound
    rw [List.map_append, List.map_append, List.map_singleton, List.map_singleton, position_concat,
      List.foldl_append, hentry _ hbound e he]
    -- The outermost shift reads the inner results at the points of its own rule.
    refine shiftAt_congr fun term hterm => ?_
    have hmem := shifted_mem_traces h hplan
      (List.mem_of_getElem? (List.mem_zipIdx_iff_getElem?.mp he)) hterm
    rw [hself] at hmem ⊢
    obtain ⟨T', hT', hshifted⟩ := hexecute _ hmem
    rw [resultOf_eq hT']
    exact hshifted.entry o ho es hlength hes'

/-- An assigned trace is executed to its outputs, which are not shifted. -/
theorem shiftedIn_zero (ht : t.Exact) (sampler : Sampler ℝ ρ) (w : ℕ → ℝ) :
    ∃ T, (t.assign w).simulate sampler = .ok T ∧ ShiftedIn t selected rules 0 w T := by
  obtain ⟨T, hT, hshape, hentry⟩ := simulate_assign ht sampler w
  refine ⟨T, hT, hshape.trans (List.append_nil _).symm, fun o ho es hlength hes => ?_⟩
  obtain rfl := List.length_eq_zero_iff.mp hlength
  exact hentry o

/-- Plans of first derivatives, one inside the other, give the function that is
    shifted in one parameter after the other. -/
theorem nested_run {d : Differentiator ℝ} (hmethod : d.method = .parameterShift c)
    (h : Selects t c selected rules vs) (sampler : Sampler ℝ ρ)
    (hnone : ∀ m ∈ t.measurements, m.readout ≠ .variance) {more : ℕ}
    (hplan : d.nested more (t.assign v) = .ok p) :
    ∃ T, p.run (·.simulate sampler) = .ok T ∧ ShiftedIn t selected rules (more + 1) v T := by
  have hfirst : ∀ u, d.firstOrder u = ParameterShift.plan u c := by
    intro u
    unfold Differentiator.firstOrder
    rw [hmethod]
    rfl
  induction more generalizing v p with
  | zero =>
    rw [Differentiator.nested, hfirst] at hplan
    exact shiftedIn_succ h hnone hplan _ fun w _ => shiftedIn_zero h.exact sampler w
  | succ more ih =>
    obtain ⟨outer, houter, hnest⟩ := bind_eq_ok hplan
    obtain ⟨plans, hplans, -⟩ := bind_eq_ok hnest
    rw [hfirst] at houter
    -- The inner plans of the outer traces can all be run, by induction.
    have hinner : ∀ w, t.assign w ∈ outer.traces → ∃ T,
        (do (← d.nested more (t.assign w)).run (·.simulate sampler)) = .ok T ∧
          ShiftedIn t selected rules (more + 1) w T := by
      intro w hw
      obtain ⟨r, hr⟩ := ok_of_mapM hplans hw
      rw [hr]
      exact ih hr
    obtain ⟨T, hrun, hshifted⟩ := shiftedIn_succ h hnone houter
      (fun u => do (← d.nested more u).run (·.simulate sampler)) hinner
    refine ⟨T, ?_, hshifted⟩
    rw [run_andThen hnest fun u hu r hr => ?_]
    · exact hrun
    · obtain ⟨w, rfl⟩ := exists_assign_of_mem h houter hu
      rw [meansOf_eq_self hnone] at hr
      obtain ⟨T, hT, -⟩ := ih hr
      exact ⟨T, hT⟩

end Plans

/-! ## The derivative -/

theorem exact_of_expandDifferentiable {table : GateTable ℝ} {depth : ℕ}
    {cost : DecompositionCost ℝ} {t u : Trace ℝ} (ht : t.Exact)
    (hexpand : t.expandDifferentiable table depth cost = .ok u) : u.Exact := by
  obtain ⟨hu, hstands⟩ := expandDifferentiable_standsIn ht.valid ht.standard hexpand
  rw [hu]
  exact ⟨⟨ht.valid.measured, hstands.inRegister, ht.valid.measurements⟩, hstands.standard,
    ht.measurements, ht.analytic, ht.nonempty, ht.fits⟩

/-- Binding the values of an assignment executes to its outputs. -/
theorem simulate_withValues {u : Trace ℝ} (hu : u.Exact) (sampler : Sampler ℝ ρ) (v : ℕ → ℝ) :
    ∃ R, (do (← u.withValues ((List.range u.paramCount).map v)).simulate sampler) = .ok R ∧
      R.shape = (layoutOf u).shape ∧ ∀ o, R.entry o = output u o v := by
  have hvalues := withValues_eq_assign u ((List.range u.paramCount).map v) (by simp)
  have hassign : u.assign (fun i => ((List.range u.paramCount).map v).getD i 0) = u.assign v := by
    refine congrArg (fun ops => ({ u with operations := ops } : Trace ℝ)) (assignAll_congr ?_)
    intro i hi
    have hi' : i < u.paramCount := hi
    simp [List.getD_eq_getElem?_getD, hi']
  rw [hvalues, hassign]
  exact simulate_assign hu sampler v

theorem resultAt_eq_output {u : Trace ℝ} (hu : u.Exact) (sampler : Sampler ℝ ρ) (o : ℕ) :
    u.resultAt sampler o = output u o := by
  funext v
  obtain ⟨R, hR, -, hentry⟩ := simulate_withValues hu sampler v
  unfold Trace.resultAt
  rw [hR]
  exact hentry o

theorem run_identity (t : Trace ℝ) (execute : Trace ℝ → Except Error (Tensor ℝ)) :
    (Plan.identity t).run execute = execute t := by
  have hmap : [t].mapM execute = (execute t).map fun T => [T] := by
    rw [List.mapM_cons]
    cases execute t <;> rfl
  unfold Plan.run
  rw [show (Plan.identity t).traces = [t] from rfl, hmap]
  cases execute t <;> rfl

/-- Nested plans start with a plan of first derivatives. -/
theorem firstOrder_of_nested {α : Type} [Scalar α] {d : Differentiator α} {more : ℕ}
    {t : Trace α} {p : Plan α} (h : d.nested more t = .ok p) : ∃ q, d.firstOrder t = .ok q := by
  cases more with
  | zero => exact ⟨p, h⟩
  | succ more =>
    obtain ⟨q, hq, -⟩ := bind_eq_ok h
    exact ⟨q, hq⟩

/-- Entries that are no variances are their own means. -/
theorem output_meansOf {u : Trace ℝ} (hu : u.Exact) {o : ℕ}
    (ho : isVariance u.register u.measurements o = false) :
    output (meansOf u) o = output u o := by
  obtain ⟨L, hmean, hplain, -⟩ := reading_cases (n := u.register) hu.measurements o
  funext v
  exact (hmean (waveAt u v)).trans (hplain ho (waveAt u v)).symm

section Orders

variable {d : Differentiator ℝ} {c : ShiftConfig ℝ} {u : Trace ℝ} {selected : List ℕ}
  {rules : List (ShiftRule ℝ)} {vs : List ℕ} {plan : Plan ℝ}

/-- What a derivative of order `k` computes: at each output and indices, the
    iterated partial derivative in the parameters that the indices select. -/
def ComputesDerivative (u : Trace ℝ) (sampler : Sampler ℝ ρ) (selected : List ℕ) (k : ℕ)
    (plan : Plan ℝ) : Prop :=
  ∃ T, plan.run (·.simulate sampler) = .ok T ∧
    T.shape = (layoutOf u).shape ++ List.replicate k selected.length ∧
    ∀ o < Tensor.volume (layoutOf u).shape, ∀ indices : List (Fin selected.length),
      indices.length = k → ∃ g, IsIteratedPartial (output u o) (indices.map selected.get) g ∧
        T.entry (position selected.length o (indices.map (·.val))) = g u.point

/-- The parameter, the rule and the column that an index selects. -/
theorem exists_column (hlength : rules.length = selected.length) (i : Fin selected.length) :
    ∃ e ∈ (selected.zip rules).zipIdx, e.1.1 = selected.get i ∧ e.2 = i.val := by
  have hi : i.val < (selected.zip rules).length := by
    rw [List.length_zip, hlength, Nat.min_self]
    exact i.isLt
  refine ⟨((selected.zip rules)[i.val], i.val), ?_, ?_, rfl⟩
  · exact List.mem_zipIdx_iff_getElem?.mpr (List.getElem?_eq_getElem hi)
  · rw [List.getElem_zip]
    rfl

theorem computes_firstOrder (h : Selects u c selected rules vs) (sampler : Sampler ℝ ρ)
    (hplan : ParameterShift.plan u c = .ok plan) :
    ComputesDerivative u sampler selected 1 plan := by
  have hu := h.exact
  obtain ⟨T, hrun, hshape, hentry⟩ := firstOrder_run (v := u.point) h sampler
    (by rwa [assign_point])
  refine ⟨T, hrun, hshape, fun o ho indices hcount => ?_⟩
  obtain ⟨i, rfl⟩ := List.length_eq_one_iff.mp hcount
  obtain ⟨e, he, hparam, hcolumn⟩ := exists_column h.length_rules i
  have hrule := h.ruleAt e.1 (List.mem_of_getElem? (List.mem_zipIdx_iff_getElem?.mp he))
  have hvalue := hentry o ho e he
  rw [hcolumn] at hvalue
  rw [List.map_singleton, ← hparam]
  -- A variance is differentiated through its mean, all else directly.
  cases hkind : isVariance u.register u.measurements o with
  | false =>
    refine ⟨_, ⟨_, shiftExact_output hu hrule hkind, rfl⟩, hvalue.trans ?_⟩
    rw [chainAt, hkind, output_meansOf hu hkind]
    rfl
  | true =>
    refine ⟨_, ⟨_, isPartial_variance hu hrule hkind, rfl⟩, hvalue.trans ?_⟩
    rw [chainAt, hkind]
    rfl

theorem computes_nested (hmethod : d.method = .parameterShift c)
    (h : Selects u c selected rules vs) (sampler : Sampler ℝ ρ)
    (hnone : ∀ m ∈ u.measurements, m.readout ≠ .variance) {more : ℕ}
    (hplan : d.nested more u = .ok plan) :
    ComputesDerivative u sampler selected (more + 1) plan := by
  have hu := h.exact
  obtain ⟨T, hrun, hshifted⟩ := nested_run (v := u.point) hmethod h sampler hnone
    (by rwa [assign_point])
  refine ⟨T, hrun, hshifted.shape, fun o ho indices hcount => ?_⟩
  choose column hmem hparam hindex using exists_column h.length_rules
  have hvalue := hshifted.entry o ho (indices.map column) ((List.length_map _).trans hcount) (by
    intro e he
    obtain ⟨i, -, rfl⟩ := List.mem_map.mp he
    exact hmem i)
  have hrule : ∀ e ∈ (indices.map column).map (·.1), RuleAt u e.1 e.2 := by
    intro e he
    obtain ⟨e', he', rfl⟩ := List.mem_map.mp he
    obtain ⟨i, -, rfl⟩ := List.mem_map.mp he'
    exact h.ruleAt _ (List.mem_of_getElem? (List.mem_zipIdx_iff_getElem?.mp (hmem i)))
  -- Shifting in one parameter after the other is differentiating in them.
  have hpartial := isIteratedPartial_shifts (f := output u o)
    (fun e he => unscaled_of_ruleAt hu (hrule e he))
    (fun e he => shiftExact_output hu (hrule e he) (isVariance_eq_false hnone o))
  have hparams : ((indices.map column).map (·.1)).map (·.1) = indices.map selected.get := by
    rw [List.map_map, List.map_map]
    exact List.map_congr_left fun i _ => hparam i
  have hcolumns : (indices.map column).map (·.2) = indices.map (·.val) := by
    rw [List.map_map]
    exact List.map_congr_left fun i _ => hindex i
  rw [hparams] at hpartial
  rw [hcolumns] at hvalue
  exact ⟨_, hpartial, hvalue⟩

/-- Order zero is the result itself, which the expansion leaves as it was. -/
theorem computes_identity {t : Trace ℝ} (ht : t.Exact) (sampler : Sampler ℝ ρ)
    (hexpand : d.expand t = .ok u) :
    ComputesDerivative u sampler selected 0 (.identity t) := by
  have hu := exact_of_expandDifferentiable ht hexpand
  obtain ⟨heq, hstands⟩ := expandDifferentiable_standsIn ht.valid ht.standard hexpand
  have hsame : u.simulate sampler = t.simulate sampler := by
    rw [heq]
    exact simulate_of_standsIn sampler ht.analytic
      (fun m hm => statistical_of_differentiable (ht.measurements m hm)) hstands
  obtain ⟨T, hT, hshape, hentry⟩ := simulate_assign hu sampler u.point
  rw [assign_point, hsame] at hT
  refine ⟨T, (run_identity t _).trans hT, hshape.trans (List.append_nil _).symm, ?_⟩
  intro o _ indices hcount
  obtain rfl := List.length_eq_zero_iff.mp hcount
  exact ⟨_, rfl, hentry o⟩

/-- Without a selected parameter the derivative of a positive order is empty. -/
theorem computes_empty (sampler : Sampler ℝ ρ) (more : ℕ) :
    ComputesDerivative u sampler [] (more + 1)
      (.known (.zeros ((layoutOf u).shape ++ List.replicate (more + 1) 0))) := by
  refine ⟨_, rfl, rfl, fun o _ indices hcount => ?_⟩
  cases indices with
  | nil => cases hcount
  | cons i _ => exact i.elim0

/-- A derivative of a positive order nests plans of first derivatives of the
    expanded trace, and only once where a variance is measured. -/
theorem derivative_succ_eq_ok {α : Type} [Scalar α] {d : Differentiator α} {t : Trace α}
    {plan : Plan α} {more : ℕ} (hplan : d.derivative t (more + 1) = .ok plan) :
    ∃ u selected, d.expand t = .ok u ∧ u.selectTrainable d.method.parameters = .ok selected ∧
      (more = 0 ∨ ∀ m ∈ t.measurements, m.readout ≠ .variance) ∧
      (if selected.isEmpty then (do
        return .known (.zeros ((← u.outputShape) ++ List.replicate (more + 1) 0)))
      else d.nested more u) = .ok plan := by
  unfold Differentiator.derivative at hplan
  by_cases horder : more + 1 > d.maxOrder
  · rw [if_pos horder] at hplan
    cases hplan
  rw [if_neg horder, if_neg (Nat.succ_ne_zero more)] at hplan
  by_cases hvar : (decide (more + 1 > 1) && t.measurements.any (·.readout == .variance)) = true
  · rw [if_pos hvar] at hplan
    cases hplan
  rw [if_neg hvar] at hplan
  obtain ⟨u, hexpand, hplan⟩ := bind_eq_ok hplan
  obtain ⟨selected, hselected, hplan⟩ := bind_eq_ok hplan
  refine ⟨u, selected, hexpand, hselected, ?_, hplan⟩
  rw [or_iff_not_imp_left]
  intro hmore m hm hvariance
  apply hvar
  have hany : t.measurements.any (·.readout == .variance) = true :=
    List.any_eq_true.mpr ⟨m, hm, by rw [hvariance]; rfl⟩
  rw [hany, Bool.and_true, decide_eq_true_eq]
  omega

/-- The first derivative of what is expanded already, when something is selected. -/
theorem derivative_one_eq {α : Type} [Scalar α] {d : Differentiator α} {t : Trace α}
    {selected : List ℕ} (horder : d.maxOrder ≠ 0) (hexpand : d.expand t = .ok t)
    (hselected : t.selectTrainable d.method.parameters = .ok selected) (hne : selected ≠ []) :
    d.derivative t 1 = d.firstOrder t := by
  unfold Differentiator.derivative
  rw [if_neg (by omega), if_neg one_ne_zero, if_neg (by simp), hexpand, ok_bind, hselected,
    ok_bind, if_neg (by simpa using hne)]
  rfl

/-- The plan of a derivative of any order. -/
theorem computes_derivative (hmethod : d.method = .parameterShift c) {t : Trace ℝ} (ht : t.Exact)
    (sampler : Sampler ℝ ρ) (hexpand : d.expand t = .ok u)
    (hselected : u.selectTrainable c.parameters = .ok selected) {k : ℕ}
    (hplan : d.derivative t k = .ok plan) : ComputesDerivative u sampler selected k plan := by
  have hu := exact_of_expandDifferentiable ht hexpand
  have hparameters : d.method.parameters = c.parameters := by
    rw [hmethod]
    rfl
  cases k with
  | zero =>
    unfold Differentiator.derivative at hplan
    rw [if_neg (Nat.not_lt_zero _), if_pos rfl] at hplan
    obtain rfl := Except.ok.inj hplan
    exact computes_identity ht sampler hexpand
  | succ more =>
    obtain ⟨u', selected', hexpand', hselected', hvariances, hplan⟩ := derivative_succ_eq_ok hplan
    obtain rfl := Except.ok.inj (hexpand.symm.trans hexpand')
    obtain rfl := Except.ok.inj (hselected.symm.trans (hparameters ▸ hselected'))
    by_cases hempty : selected.isEmpty = true
    · rw [if_pos hempty, traceOutputShape_eq hu.measurements hu.analytic] at hplan
      obtain rfl := Except.ok.inj hplan
      obtain rfl := List.isEmpty_iff.mp hempty
      exact computes_empty sampler more
    · rw [if_neg hempty] at hplan
      have hfirst : ∀ {r}, d.firstOrder u = .ok r → ParameterShift.plan u c = .ok r := by
        intro r hr
        unfold Differentiator.firstOrder at hr
        rwa [hmethod] at hr
      obtain ⟨q, hq⟩ := firstOrder_of_nested hplan
      obtain ⟨rules, vs, h⟩ := selects_of_plan hu hselected
        (fun hnil => hempty (List.isEmpty_iff.mpr hnil)) (hfirst hq)
      -- A variance is differentiated once only, anything else to any order.
      rcases hvariances with rfl | hnone
      · exact computes_firstOrder h sampler (hfirst hplan)
      · have hmeasurements : u.measurements = t.measurements := by
          obtain ⟨heq, -⟩ := expandDifferentiable_standsIn ht.valid ht.standard hexpand
          rw [heq]
        exact computes_nested hmethod h sampler (hmeasurements ▸ hnone) hplan

end Orders

/-- Executing the derivative of order `k` by the shift rule gives the tensor of
    the `k`-th partial derivatives of the executed result of the expanded trace
    in the selected parameters, at the values that they are bound to. -/
theorem derivative_correct (sampler : Sampler ℝ ρ) {d : Differentiator ℝ} {c : ShiftConfig ℝ}
    (hmethod : d.method = .parameterShift c) {t u : Trace ℝ} (ht : t.Exact)
    (hexpand : d.expand t = .ok u) {selected : List ℕ}
    (hselected : u.selectTrainable c.parameters = .ok selected) {k : ℕ} {plan : Plan ℝ}
    (hplan : d.derivative t k = .ok plan) :
    (∀ v, ∃ R, (do (← u.withValues ((List.range u.paramCount).map v)).simulate sampler) = .ok R ∧
      ∀ o, R.entry o = u.resultAt sampler o v) ∧
    ∃ shape T, u.outputShape = .ok shape ∧ plan.run (·.simulate sampler) = .ok T ∧
      T.shape = shape ++ List.replicate k selected.length ∧
      ∀ o < Tensor.volume shape, ∀ indices : List (Fin selected.length), indices.length = k →
        ∃ g, IsIteratedPartial (u.resultAt sampler o) (indices.map selected.get) g ∧
          T.entry (position selected.length o (indices.map (·.val))) = g u.point := by
  have hu := exact_of_expandDifferentiable ht hexpand
  constructor
  · intro v
    obtain ⟨R, hR, -, hentry⟩ := simulate_withValues hu sampler v
    refine ⟨R, hR, fun o => ?_⟩
    rw [resultAt_eq_output hu, hentry]
  · obtain ⟨T, hrun, hshape, hentry⟩ :=
      computes_derivative hmethod ht sampler hexpand hselected hplan
    refine ⟨_, T, traceOutputShape_eq hu.measurements hu.analytic, hrun, hshape, ?_⟩
    simp only [resultAt_eq_output hu]
    exact hentry

/-- Two controlled rotations in opposite directions, both trainable, and all
    probabilities. -/
noncomputable def opposed : Trace ℝ :=
  { operations := [⟨StandardGate.hadamard.spec, [], [0]⟩,
      ⟨StandardGate.cry.spec, [.trainable 1], [0, 1]⟩,
      ⟨StandardGate.crz.spec, [.trainable 2], [1, 0]⟩,
      ⟨StandardGate.hadamard.spec, [], [0]⟩]
    measurements := [.probs []]
    register := 2
    shots := .analytic
    layout := .empty }

/-- The differentiator by the shift rule with its default settings. -/
noncomputable def byShifts : Differentiator ℝ := .ofMethod (.parameterShift .standard) ⟨#[]⟩

theorem exact_opposed : opposed.Exact := by
  refine ⟨⟨List.cons_ne_nil _ _, ?_, ?_⟩, ?_, ?_, rfl, by decide, by decide⟩
  · simp [opposed]
  · simp [opposed, Measurement.probs]
  · intro op hop
    simp only [opposed, List.mem_cons, List.not_mem_nil, or_false] at hop
    rcases hop with rfl | rfl | rfl | rfl
    · exact ⟨.hadamard, rfl⟩
    · exact ⟨.cry, rfl⟩
    · exact ⟨.crz, rfl⟩
    · exact ⟨.hadamard, rfl⟩
  · intro m hm
    obtain rfl := List.mem_singleton.mp hm
    exact .inr (.inr ⟨[], rfl⟩)

/-- All second derivatives of the four probabilities, from sixty-four traces. -/
theorem derivative_correct_opposed : opposed.Exact ∧ byShifts.expand opposed = .ok opposed ∧
    opposed.selectTrainable none = .ok [0, 1] ∧
    ∃ plan, byShifts.derivative opposed 2 = .ok plan ∧ plan.traces.length = 64 ∧
      ∀ sampler : Sampler ℝ Unit, ∃ T, plan.run (·.simulate sampler) = .ok T ∧
        T.shape = [4, 2, 2] ∧ ∀ o < 4, ∀ i j : Fin 2, ∃ g,
          IsIteratedPartial (opposed.resultAt sampler o) [[0, 1].get i, [0, 1].get j] g ∧
            T.entry ((o * 2 + i) * 2 + j) = g opposed.point := by
  obtain ⟨plan, hplan, hcount⟩ : ∃ plan, byShifts.derivative opposed 2 = .ok plan ∧
      plan.traces.length = 64 := ⟨_, rfl, rfl⟩
  refine ⟨exact_opposed, rfl, rfl, plan, hplan, hcount, fun sampler => ?_⟩
  obtain ⟨-, shape, T, hshape, hrun, hT, hentry⟩ :=
    derivative_correct sampler (d := byShifts) rfl exact_opposed rfl rfl hplan
  obtain rfl : [4] = shape := Except.ok.inj hshape
  exact ⟨T, hrun, hT, fun o ho i j => hentry o ho [i, j] rfl⟩

end Proofs

end CircuitGrad
