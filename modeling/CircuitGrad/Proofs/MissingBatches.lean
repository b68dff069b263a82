import Mathlib
import CircuitGrad.Proofs.DifferentiableTrace
import CircuitGrad.Proofs.GivenAnswers
import CircuitGrad.Proofs.SplitValidity

/-! # Shots without a batch

    A shot vector can be given without entries, or with entries that are
    repeated zero times; its list of batches is then empty.  The shape of a
    result is read off the first batch.  So whatever asks for that shape runs
    out of the list, and nothing else does: each function below either gives
    an answer or finds no batch, and finds none exactly where the same request
    with a shot would have succeeded up to that point (`aborts_iff_no_batch`).
-/

namespace CircuitGrad

/-- Both succeed with related values, or both fail with one error that is an
    answer. -/
inductive Parallel {β γ : Type} (R : β → γ → Prop) : Except Error β → Except Error γ → Prop
  | ok {a : β} {b : γ} (h : R a b) : Parallel R (.ok a) (.ok b)
  | error {e : Error} (h : e ≠ .aborted) : Parallel R (.error e) (.error e)

namespace Parallel

variable {β γ δ ζ : Type} {R : β → γ → Prop} {x : Except Error β} {y : Except Error γ}
  {f : β → Except Error δ} {g : γ → Except Error ζ}

/-- A computation that gives an answer runs parallel to itself. -/
theorem self (h : x ≠ .error .aborted) : Parallel (fun a b => x = .ok a ∧ a = b) x x := by
  cases x with
  | ok a => exact .ok ⟨rfl, rfl⟩
  | error e => exact .error fun he => h (congrArg Except.error he)

theorem bind {S : δ → ζ → Prop} (h : Parallel R x y)
    (hrest : ∀ a b, R a b → Parallel S (f a) (g b)) : Parallel S (x >>= f) (y >>= g) := by
  cases h with
  | ok hab => exact hrest _ _ hab
  | error he => exact .error he

theorem mapM {f : β → Except Error γ} {g : β → Except Error δ} {S : γ → δ → Prop} {xs : List β}
    (h : ∀ x ∈ xs, Parallel S (f x) (g x)) :
    Parallel (List.Forall₂ S) (xs.mapM f) (xs.mapM g) := by
  induction xs with
  | nil => exact .ok .nil
  | cons x xs ih =>
    obtain ⟨hfirst, hrest⟩ := List.forall_mem_cons.mp h
    rw [List.mapM_cons, List.mapM_cons]
    exact hfirst.bind fun _ _ hab => (ih hrest).bind fun _ _ htail => .ok (.cons hab htail)

/-- After parallel steps, the first computation runs out of batches where the
    second one succeeds, if what follows does. -/
theorem aborts_iff (h : Parallel R x y)
    (hrest : ∀ a b, R a b → (f a = .error .aborted ↔ ∃ r, g b = .ok r)) :
    (x >>= f) = .error .aborted ↔ ∃ r, (y >>= g) = .ok r := by
  cases h with
  | ok hab => exact hrest _ _ hab
  | error he =>
    constructor
    · intro heq
      exact absurd (Except.error.inj heq) he
    · rintro ⟨r, hr⟩
      cases hr

end Parallel

namespace Proofs

variable {α : Type} {t u base : Trace α} {p : Plan α}

/-! ## Looking for a batch -/

theorem outputShape_of_no_batch {t : Trace α} (h : t.shots.batches = []) :
    t.outputShape = .error .aborted := by
  unfold Trace.outputShape
  rw [h]

theorem outputShape_answers {t : Trace α} (h : t.shots.batches ≠ []) :
    t.outputShape ≠ .error .aborted :=
  outputShape_ne_error id fun hnil => absurd hnil h

/-- The shape exists under one batch of samples, whatever is measured. -/
theorem exists_outputShape_sampled (t : Trace α) (shots : ℕ) :
    ∃ shape, (t.withShots (.finite shots)).outputShape = .ok shape := by
  obtain ⟨shapes, hshapes⟩ : ∃ shapes, t.measurementShapes (some shots) = .ok shapes := by
    refine exists_mapM_eq_ok fun m _ => ?_
    unfold Measurement.outputShape
    split <;> first | exact ⟨_, rfl⟩ | contradiction
  refine ⟨(Packing.ofShapes shapes).shape, ?_⟩
  show ((t.measurementShapes (some shots) >>= fun shapes => pure (Packing.ofShapes shapes)) >>=
    fun packing => pure packing.shape) = _
  rw [hshapes]
  rfl

/-- Asking for the shape is the step at which a trace without a batch fails. -/
theorem aborts_at_shape (h : t.shots.batches = []) {β γ : Type} (f : List ℕ → Except Error β)
    {g : List ℕ → Except Error γ} (hg : ∀ shape, ∃ r, g shape = .ok r) :
    (t.outputShape >>= f) = .error .aborted ↔
      ∃ r, ((t.withShots (.finite 1)).outputShape >>= g) = .ok r := by
  obtain ⟨shape, hshape⟩ := exists_outputShape_sampled t 1
  rw [outputShape_of_no_batch h, hshape]
  exact iff_of_true rfl (hg shape)

section Unpacking

variable [Zero α]

theorem unpackResult_of_no_batch {t : Trace α} (h : t.shots.batches = []) (r : Tensor α) :
    t.unpackResult r = .error .aborted := by
  unfold Trace.unpackResult
  rw [outputShape_of_no_batch h]
  rfl

theorem unpackResult_answers {t : Trace α} (h : t.shots.batches ≠ []) (r : Tensor α) :
    t.unpackResult r ≠ .error .aborted := by
  refine bind_ne_error (outputShape_answers h) fun expected _ => ?_
  split
  · exact nofun
  · dsimp only
    split
    · exact mapM_ne_error fun e _ => bind_ne_error (packing_answers t e.2) fun p _ =>
        unpack_answers p e.1
    · refine bind_ne_error (unstack_answers r) fun parts _ => ?_
      exact mapM_ne_error fun e _ => bind_ne_error (packing_answers t e.2) fun p _ =>
        unpack_answers p e.1

theorem length_of_unpackResult {t : Trace α} {r : Tensor α} {rs : List (List (Tensor α))}
    (h : t.unpackResult r = .ok rs) : rs.length = t.shots.batchCount := by
  obtain ⟨shape, hshape, hr⟩ := bind_eq_ok h
  have hsame : r.shape = shape := by
    by_contra hne
    rw [if_pos hne] at hr
    cases hr
  obtain ⟨shapes, own, hshapes, -, -⟩ := batchShapes_of_outputShape hshape
  obtain ⟨rs', hrs', hmap, -⟩ := unpackResult_shapes hshape hshapes hsame
  obtain rfl := Except.ok.inj (h.symm.trans hrs')
  rw [← List.length_map (fun r : List (Tensor α) => r.map (·.shape)), hmap, length_of_mapM hshapes,
    length_batches]

end Unpacking

/-! ## The same steps under other shots -/

theorem withParam_parallel (t : Trace α) (shots : Shots) (i : ℕ) (x : α) :
    Parallel (fun _ _ => True) (t.withParam i x) ((t.withShots shots).withParam i x) := by
  have hsame : (t.withShots shots).paramLocation? i = t.paramLocation? i := rfl
  unfold Trace.withParam
  rw [hsame]
  cases t.paramLocation? i with
  | none =>
    refine .error ?_
    intro h
    cases h
  | some location => exact .ok trivial

theorem withMeans_parallel (t : Trace α) (shots : Shots) :
    Parallel (fun u v => v = u.withShots shots) t.withMeans (t.withShots shots).withMeans := by
  have hcheck (u : Trace α) :
      Parallel (fun u v => v = u.withShots shots) u.check (u.withShots shots).check := by
    unfold Trace.check
    have hsame : (u.withShots shots).measurements.isEmpty = u.measurements.isEmpty := rfl
    rw [hsame]
    split
    · exact .error nofun
    · exact (Parallel.self (checkWires_ne_error id _ _)).bind fun _ _ _ =>
        (Parallel.self (checkWires_ne_error id _ _)).bind fun _ _ _ => .ok rfl
  exact hcheck _

theorem withValues_parallel (t : Trace α) (shots : Shots) (values : List α) :
    Parallel (fun _ _ => True) (t.withValues values) ((t.withShots shots).withValues values) := by
  have hsame : (t.withShots shots).paramCount = t.paramCount := rfl
  unfold Trace.withValues
  rw [hsame]
  split
  · exact .error nofun
  · exact (Parallel.self (dealt_answers t.operations values)).bind fun _ _ _ => .ok trivial

/-- What is measured instead of a variance is under the same shots. -/
theorem shots_of_withMeans (h : t.withMeans = .ok base) : base.shots = t.shots := by
  rw [(check_eq_ok_iff.mp h).1]

theorem exists_withParam {i : ℕ} (hi : i ∈ t.trainableIndices) (x : α) :
    ∃ u, t.withParam i x = .ok u := by
  obtain ⟨⟨y, j⟩, hy, rfl⟩ := List.mem_map.mp hi
  obtain ⟨o, q, op, hlocate, -, -⟩ :=
    locate?_of_getElem? (List.mem_zipIdx_iff_getElem?.mp (List.mem_filter.mp hy).1)
  have hlocation : t.paramLocation? j = some (o, q) := hlocate
  unfold Trace.withParam
  rw [hlocation]
  exact ⟨_, rfl⟩

/-! ## Derivatives -/

section Derivatives

variable [Scalar α]

theorem chainVariance_answers (h : base.shots.batches ≠ []) (vs : List ℕ) (mean d : Tensor α) :
    ParameterShift.chainVariance base vs mean d ≠ .error .aborted := by
  have hmul (a b : Tensor α) : a.mul b ≠ .error .aborted := by
    refine bind_ne_error ?_ fun _ _ => nofun
    unfold Tensor.checkShape
    split <;> exact nofun
  refine bind_ne_error (unpackResult_answers h d) fun ds _ =>
    bind_ne_error (unpackResult_answers h mean) fun ms _ => bind_ne_error ?_ fun _ _ =>
    packResults_answers base _
  refine mapM_ne_error fun e _ => mapM_ne_error fun e' _ => ?_
  dsimp only
  split
  · exact bind_ne_error (hmul _ _) fun _ _ => nofun
  · exact nofun

theorem shifts_answers (h : t.shots.batches ≠ []) (c : ShiftConfig α) :
    ParameterShift.plan t c ≠ .error .aborted :=
  shifts_ne_error id (fun hnil => absurd hnil h) nofun fun _ _ i _ => shiftRule_answers t i _

theorem shifts_fold_answers {c : ShiftConfig α} (hp : ParameterShift.plan t c = .ok p)
    (results : List (Tensor α)) : p.fold results ≠ .error .aborted := by
  have h : t.shots.batches ≠ [] := by
    obtain ⟨_, _, _, _, _, shape, -, -, -, hshape, -⟩ := plan_eq_ok hp
    intro hbatches
    rw [outputShape_of_no_batch hbatches] at hshape
    cases hshape
  unfold ParameterShift.plan at hp
  obtain ⟨_, -, hp⟩ := bind_eq_ok hp
  obtain ⟨selected, -, hp⟩ := bind_eq_ok hp
  obtain ⟨vs, -, hp⟩ := bind_eq_ok hp
  extract_lets rest at hp
  -- Under the base, whatever it measures, there are the batches of the trace.
  have hrest (base : Trace α) (hbase : base.shots = t.shots) (hp : rest base = .ok p) :
      p.fold results ≠ .error .aborted := by
    obtain ⟨rules, -, hp⟩ := bind_eq_ok hp
    obtain ⟨shifted, -, hp⟩ := bind_eq_ok hp
    obtain ⟨shape, -, hp⟩ := bind_eq_ok hp
    obtain rfl := Except.ok.inj hp
    refine ite_answers nofun (ite_answers nofun ?_)
    refine bind_ne_error (shiftColumns_answers (fun rule own => ?_) _ _) fun ds _ =>
      stackTrailing_answers ds
    refine bind_ne_error (ite_answers nofun (linearCombination_answers _ _)) fun d _ => ?_
    split
    · exact ite_answers (chainVariance_answers (by rwa [hbase]) _ _ _) nofun
    · exact nofun
  split at hp
  · exact hrest t rfl hp
  · obtain ⟨base, hbase, hp⟩ := bind_eq_ok hp
    exact hrest base (shots_of_withMeans hbase) hp

/-- Without a batch, the plan is given up where it succeeds with a shot. -/
theorem shifts_of_no_batch (h : t.shots.batches = []) (c : ShiftConfig α) :
    ParameterShift.plan t c = .error .aborted ↔
      ∃ p, ParameterShift.plan (t.withShots (.finite 1)) c = .ok p := by
  unfold ParameterShift.plan
  refine (Parallel.self (checkDifferentiable_answers t)).aborts_iff fun _ _ _ => ?_
  refine (Parallel.self (selectTrainable_answers t _)).aborts_iff ?_
  rintro selected _ ⟨-, rfl⟩
  refine (Parallel.self (variances_answers t)).aborts_iff ?_
  rintro vs _ ⟨-, rfl⟩
  extract_lets rest rest'
  have hrest (base : Trace α) : rest base = .error .aborted ↔
      ∃ p, rest' (base.withShots (.finite 1)) = .ok p := by
    refine (Parallel.self (mapM_ne_error fun i _ => shiftRule_answers t i _)).aborts_iff ?_
    rintro rules _ ⟨-, rfl⟩
    refine (Parallel.mapM fun e _ => Parallel.mapM fun term _ =>
      withParam_parallel base (.finite 1) e.1 _).aborts_iff fun _ _ _ => ?_
    exact aborts_at_shape h _ fun shape => ⟨_, rfl⟩
  split
  · exact hrest t
  · refine (withMeans_parallel t (.finite 1)).aborts_iff ?_
    rintro base _ rfl
    exact hrest base

theorem differences_answers (h : t.shots.batches ≠ []) (c : DifferenceConfig α) :
    FiniteDifference.plan t c ≠ .error .aborted := by
  refine bind_ne_error (checkDifferentiable_answers t) fun _ _ => ite_answers nofun ?_
  refine bind_ne_error (selectTrainable_answers t _) fun selected _ =>
    bind_ne_error (outputShape_answers h) fun shape _ => ite_answers nofun ?_
  exact bind_ne_error (differenceTraces_answers t c selected) fun _ _ => nofun

theorem differences_fold_answers {c : DifferenceConfig α}
    (hp : FiniteDifference.plan t c = .ok p) (results : List (Tensor α)) :
    p.fold results ≠ .error .aborted := by
  obtain ⟨_, -, hp⟩ := bind_eq_ok hp
  split at hp
  · cases hp
  · obtain ⟨selected, -, hp⟩ := bind_eq_ok hp
    obtain ⟨shape, -, hp⟩ := bind_eq_ok hp
    split at hp
    · obtain rfl := Except.ok.inj hp
      exact nofun
    · obtain ⟨traces, htraces, hp⟩ := bind_eq_ok hp
      obtain rfl := Except.ok.inj hp
      obtain ⟨moved, -, hmoved⟩ := bind_eq_ok htraces
      obtain rfl := Except.ok.inj hmoved
      by_cases hlength : results.length = ((if c.scheme = .central then [] else [t]) ++
        moved.flatten).length
      · refine ne_of_eq_of_ne (if_neg (not_not.mpr hlength)) ?_
        refine bind_ne_error (quotients_answers (fun hscheme hnil => ?_) _) fun ds _ =>
          stackTrailing_answers ds
        -- the trace at the point itself comes first
        rw [if_neg hscheme, hnil] at hlength
        cases hlength
      · exact ne_of_eq_of_ne (if_pos hlength) nofun

theorem exists_differenceTraces (c : DifferenceConfig α) {selected : List ℕ}
    (h : ∀ i ∈ selected, i ∈ u.trainableIndices) :
    ∃ traces, FiniteDifference.traces u c selected = .ok traces := by
  obtain ⟨moved, hmoved⟩ := exists_mapM_eq_ok fun i hi =>
    exists_mapM_eq_ok fun x (_ : x ∈ FiniteDifference.neighbours c.scheme c.step
      (u.paramValue i)) => exists_withParam (h i hi) x
  unfold FiniteDifference.traces
  rw [hmoved]
  exact ⟨_, rfl⟩

theorem differences_of_no_batch (h : t.shots.batches = []) (c : DifferenceConfig α) :
    FiniteDifference.plan t c = .error .aborted ↔
      ∃ p, FiniteDifference.plan (t.withShots (.finite 1)) c = .ok p := by
  refine (Parallel.self (checkDifferentiable_answers t)).aborts_iff fun _ _ _ => ?_
  split
  · simp [ArgumentFault.error]
  · refine (Parallel.self (selectTrainable_answers t _)).aborts_iff ?_
    rintro selected _ ⟨hselected, rfl⟩
    refine aborts_at_shape h _ fun shape => ?_
    split
    · exact ⟨_, rfl⟩
    · obtain ⟨moved, hmoved⟩ := exists_differenceTraces (u := t.withShots (.finite 1)) c
        (mem_selectTrainable hselected)
      rw [hmoved]
      exact ⟨_, rfl⟩

end Derivatives

/-! ## Batches of bindings -/

section Bindings

variable [Zero α]

theorem bindBatch_answers (h : t.shots.batches ≠ []) (bindings : List (Argument α)) :
    t.bindBatch bindings ≠ .error .aborted := by
  refine ite_answers nofun (bind_ne_error (commonBatchSize_answers bindings) fun size _ => ?_)
  split
  · exact nofun
  · split
    · exact nofun
    · exact bind_ne_error (mapM_ne_error fun i _ => withValues_answers t _) fun traces _ =>
        bind_ne_error (outputShape_answers h) fun shape _ => nofun

theorem bindBatch_fold_answers {bindings : List (Argument α)}
    (hp : t.bindBatch bindings = .ok p) (results : List (Tensor α)) :
    p.fold results ≠ .error .aborted := by
  unfold Trace.bindBatch at hp
  dsimp only at hp
  split at hp
  · cases hp
  · obtain ⟨size, -, hp⟩ := bind_eq_ok hp
    split at hp
    · cases hp
    · split at hp
      · cases hp
      · obtain ⟨traces, -, hp⟩ := bind_eq_ok hp
        obtain ⟨shape, -, hp⟩ := bind_eq_ok hp
        obtain rfl := Except.ok.inj hp
        exact ite_answers nofun (stack_answers results)

theorem bindBatch_of_no_batch (h : t.shots.batches = []) (bindings : List (Argument α)) :
    t.bindBatch bindings = .error .aborted ↔
      ∃ p, (t.withShots (.finite 1)).bindBatch bindings = .ok p := by
  unfold Trace.bindBatch
  have hsame : (t.withShots (.finite 1)).trainableIndices = t.trainableIndices := rfl
  dsimp only
  rw [hsame]
  split
  · simp [ArgumentFault.error]
  · refine (Parallel.self (commonBatchSize_answers bindings)).aborts_iff ?_
    rintro size _ ⟨-, rfl⟩
    split
    · simp [ArgumentFault.error]
    · split
      · simp [ShapeFault.error]
      · refine (Parallel.mapM fun i _ => withValues_parallel t (.finite 1) _).aborts_iff
          fun _ _ _ => ?_
        exact aborts_at_shape h _ fun shape => ⟨_, rfl⟩

end Bindings

/-! ## Splittings -/

section Splittings

variable {parts : List (Splitting.Part α)}

theorem trailingShape_answers (hshots : ∀ part ∈ parts, part.trace.shots.batches ≠ [])
    (results : List (Tensor α)) : Splitting.trailingShape parts results ≠ .error .aborted := by
  cases parts with
  | nil => exact nofun
  | cons part rest =>
    exact bind_ne_error (outputShape_answers (hshots part List.mem_cons_self)) fun _ _ => nofun

variable [Scalar α]

theorem contributions_answers {part : Splitting.Part α} (h : part.trace.shots.batches ≠ [])
    (result : Tensor α) : part.contributions result ≠ .error .aborted :=
  bind_ne_error (unpackResult_answers h result) fun _ _ => nofun

theorem recombine_answers (hshots : ∀ part ∈ parts, part.trace.shots.batches ≠ [])
    (results : List (Tensor α)) : Splitting.recombine t parts results ≠ .error .aborted := by
  refine bind_ne_error (mapM_ne_error fun e he => ?_) fun contributions _ =>
    bind_ne_error (mapM_ne_error fun batch _ => mapM_ne_error fun parent _ => ?_) fun _ _ =>
    packResults_answers t _
  · exact contributions_answers (hshots e.1 (List.of_mem_zip he).1) e.2
  · exact linearCombination_answers _ _

theorem slices_answers {part : Splitting.Part α} (h : part.trace.shots.batches ≠ [])
    (trailing : List ℕ) (result : Tensor α) : part.slices trailing result ≠ .error .aborted :=
  bind_ne_error (outputShape_answers h) fun _ _ =>
    bind_ne_error (ite_answers nofun nofun) fun _ _ => ite_answers nofun nofun

theorem fold_answers (h : t.shots.batches ≠ [])
    (hshots : ∀ part ∈ parts, part.trace.shots.batches ≠ []) (results : List (Tensor α)) :
    Splitting.fold t parts results ≠ .error .aborted := by
  refine bind_ne_error (trailingShape_answers hshots results) fun trailing _ =>
    ite_answers (recombine_answers hshots results) (bind_ne_error ?_ fun slices _ => ?_)
  · exact mapM_ne_error fun e he =>
      slices_answers (hshots e.1 (List.of_mem_zip he).1) trailing e.2
  · refine ite_answers (bind_ne_error (outputShape_answers h) fun _ _ => nofun) ?_
    exact bind_ne_error (mapM_ne_error fun i _ => recombine_answers hshots _) fun combined _ =>
      joinTrailing_answers combined trailing

/-- Without a batch, the shape of the first part's trace is asked for in vain. -/
theorem fold_of_no_batch (hshots : ∀ part ∈ parts, part.trace.shots.batches = [])
    (hne : parts ≠ []) (results : List (Tensor α)) :
    Splitting.fold t parts results = .error .aborted := by
  obtain ⟨part, rest, rfl⟩ := List.exists_cons_of_ne_nil hne
  unfold Splitting.fold Splitting.trailingShape
  dsimp only
  rw [outputShape_of_no_batch (hshots part List.mem_cons_self)]
  rfl

/-- A plan of parts runs out of batches when it has a part and one result for each. -/
theorem combine_parts_aborts_iff {shares : List (Share α)} (hparts : t.Distributes shares parts)
    (results : List (Tensor α)) :
    (⟨parts.map (·.trace), Splitting.fold t parts⟩ : Plan α).combine results = .error .aborted ↔
      t.shots.batches = [] ∧ results.length = parts.length ∧ results ≠ [] := by
  have hshots : ∀ part ∈ parts, part.trace.shots = t.shots := fun part hpart => by
    rw [hparts.traces part hpart]
  by_cases hlength : results.length = parts.length
  · rw [combine_of_length (hlength.trans (List.length_map _).symm)]
    by_cases hbatches : t.shots.batches = []
    · by_cases hnil : parts = []
      · subst hnil
        obtain rfl : results = [] := List.eq_nil_of_length_eq_zero hlength
        refine iff_of_false ?_ fun h => h.2.2 rfl
        have hno : ∀ part ∈ ([] : List (Splitting.Part α)), part.trace.shots.batches ≠ [] := by
          simp
        exact recombine_answers hno ([] : List (Tensor α))
      · have hresults : results ≠ [] := by
          rintro rfl
          exact hnil (List.eq_nil_of_length_eq_zero hlength.symm)
        refine iff_of_true (fold_of_no_batch (fun part hpart => ?_) hnil results)
          ⟨hbatches, hlength, hresults⟩
        rw [hshots part hpart, hbatches]
    · refine iff_of_false (fold_answers hbatches (fun part hpart => ?_) results)
        fun h => hbatches h.1
      rwa [hshots part hpart]
  · have harity : Plan.checkArity (parts.map (·.trace)).length results.length =
        (ShapeFault.foldArity (parts.map (·.trace)).length results.length).error :=
      if_neg fun h => hlength (by rw [← h, List.length_map])
    refine iff_of_false ?_ fun h => hlength h.2.1
    unfold Plan.combine Plan.size
    rw [harity]
    exact nofun

/-- What splits a trace gives an answer, and hands it on as it is or cuts it into parts. -/
structure Splits (t : Trace α) (x : Except Error (Plan α)) : Prop where
  answers : x ≠ .error .aborted
  plan    : ∀ p, x = .ok p → p = .identity t ∨ ∃ shares parts, t.Distributes shares parts ∧
    p = ⟨parts.map (·.trace), Splitting.fold t parts⟩

theorem Splits.aborts_iff {x : Except Error (Plan α)} (h : Splits t x)
    (results : List (Tensor α)) :
    (x >>= fun p => p.combine results) = .error .aborted ↔
      t.shots.batches = [] ∧ ∃ p, x = .ok p ∧ p.size = results.length ∧ results ≠ [] ∧
        p ≠ .identity t := by
  constructor
  · intro haborts
    cases hx : x with
    | error e =>
      rw [hx, error_bind] at haborts
      have haborted : e = .aborted := Except.error.inj haborts
      exact absurd (haborted ▸ hx) h.answers
    | ok p =>
      rw [hx, ok_bind] at haborts
      have hne : p ≠ .identity t := by
        rintro rfl
        exact combine_identity_answers t results haborts
      obtain ⟨shares, parts, hparts, rfl⟩ := (h.plan p hx).resolve_left hne
      obtain ⟨hbatches, hlength, hresults⟩ := (combine_parts_aborts_iff hparts results).mp haborts
      exact ⟨hbatches, _, rfl, (List.length_map _).trans hlength.symm, hresults, hne⟩
  · rintro ⟨hbatches, p, hx, hsize, hresults, hne⟩
    obtain ⟨shares, parts, hparts, rfl⟩ := (h.plan p hx).resolve_left hne
    rw [hx, ok_bind]
    exact (combine_parts_aborts_iff hparts results).mpr
      ⟨hbatches, hsize.symm.trans (List.length_map _), hresults⟩

theorem splits_splitTerms (t : Trace α) (grouped : Bool) : Splits t (t.splitTerms grouped) := by
  constructor
  · refine bind_ne_error (bind_ne_error (mapM_ne_error fun e _ => ?_) fun _ _ => nofun)
      fun shares _ => ?_
    · unfold Measurement.termShares
      dsimp only
      split
      · exact ite_answers nofun nofun
      · exact nofun
    · exact ite_answers (bind_ne_error (groups_answers _ _) fun groups _ =>
        splittingPlan_answers t shares groups) (splittingPlan_answers t shares _)
  · intro p hp
    obtain ⟨shares, parts, -, hparts, rfl⟩ := parts_of_splitTerms hp
    exact .inr ⟨shares, parts, hparts, rfl⟩

theorem splits_splitNonCommuting (t : Trace α) : Splits t t.splitNonCommuting := by
  constructor
  · exact bind_ne_error (groups_answers _ _) fun groups _ =>
      ite_answers nofun (splittingPlan_answers t _ groups)
  · intro p hp
    rcases parts_of_splitNonCommuting hp with rfl | ⟨shares, parts, -, hparts, rfl⟩
    · exact .inl rfl
    · exact .inr ⟨shares, parts, hparts, rfl⟩

theorem splits_splitFor (t : Trace α) (c : Capabilities) : Splits t (t.splitFor c) := by
  unfold Trace.splitFor
  split
  · exact splits_splitTerms t true
  · split
    · exact splits_splitNonCommuting t
    · exact ⟨nofun, fun p hp => .inl (Except.ok.inj hp).symm⟩

end Splittings

/-! ## Where a batch is missing -/

/-- Without a batch the request is given up where it would succeed with a shot,
    and what is planned is combined to an answer. -/
structure NeedsBatch (request : Trace α → Except Error (Plan α)) (t : Trace α) : Prop where
  aborts_iff : request t = .error .aborted ↔
    t.shots.batches = [] ∧ ∃ p, request (t.withShots (.finite 1)) = .ok p
  answers    : ∀ p, request t = .ok p → ∀ results, p.combine results ≠ .error .aborted

theorem needsBatch_of_fold {request : Trace α → Except Error (Plan α)} {t : Trace α}
    (hanswers : t.shots.batches ≠ [] → request t ≠ .error .aborted)
    (hmissing : t.shots.batches = [] →
      (request t = .error .aborted ↔ ∃ p, request (t.withShots (.finite 1)) = .ok p))
    (hfold : ∀ p, request t = .ok p → ∀ results, p.fold results ≠ .error .aborted) :
    NeedsBatch request t := by
  constructor
  · by_cases h : t.shots.batches = []
    · rw [hmissing h]
      exact (and_iff_right h).symm
    · exact iff_of_false (hanswers h) fun hand => h hand.1
  · intro p hp results
    exact bind_ne_error (ite_answers nofun nofun) fun _ _ => hfold p hp results

/-- The functions that need the shape of a result run out of batches exactly if
    the trace has none: taking a result apart at once, a derivative or a batch
    of bindings when the same request would succeed with a shot, and a
    splitting when its parts are combined.  With a batch each of them gives an
    answer, and a result is taken apart into as many pieces as there are. -/
theorem aborts_iff_no_batch [Scalar α] (t : Trace α) :
    (t.outputShape = .error .aborted ↔ t.shots.batches = []) ∧
    (∀ r, t.unpackResult r = .error .aborted ↔ t.shots.batches = []) ∧
    (∀ r rs, t.unpackResult r = .ok rs → rs.length = t.shots.batchCount) ∧
    (∀ c, NeedsBatch (ParameterShift.plan · c) t) ∧
    (∀ c, NeedsBatch (FiniteDifference.plan · c) t) ∧
    (∀ bindings, NeedsBatch (Trace.bindBatch · bindings) t) ∧
    ∀ c, ∀ split ∈ [t.splitTerms true, t.splitTerms false, t.splitNonCommuting, t.splitFor c],
      ∀ results, (split >>= fun p => p.combine results) = .error .aborted ↔
        t.shots.batches = [] ∧ ∃ p, split = .ok p ∧ p.size = results.length ∧ results ≠ [] ∧
          p ≠ .identity t := by
  refine ⟨⟨fun h => ?_, outputShape_of_no_batch⟩, fun r => ⟨fun h => ?_, fun h => ?_⟩,
    fun r rs => length_of_unpackResult, fun c => ?_, fun c => ?_, fun bindings => ?_, ?_⟩
  · by_contra hbatches
    exact outputShape_answers hbatches h
  · by_contra hbatches
    exact unpackResult_answers hbatches r h
  · exact unpackResult_of_no_batch h r
  · exact needsBatch_of_fold (fun h => shifts_answers h c) (fun h => shifts_of_no_batch h c)
      fun p hp => shifts_fold_answers hp
  · exact needsBatch_of_fold (fun h => differences_answers h c)
      (fun h => differences_of_no_batch h c) fun p hp => differences_fold_answers hp
  · exact needsBatch_of_fold (fun h => bindBatch_answers h bindings)
      (fun h => bindBatch_of_no_batch h bindings) fun p hp => bindBatch_fold_answers hp
  · intro c split hsplit results
    have hsplits : Splits t split := by
      simp only [List.mem_cons, List.not_mem_nil, or_false] at hsplit
      rcases hsplit with rfl | rfl | rfl | rfl
      · exact splits_splitTerms t true
      · exact splits_splitTerms t false
      · exact splits_splitNonCommuting t
      · exact splits_splitFor t c
    exact hsplits.aborts_iff results

/-- A rotation by a trainable angle and its mean, under a shot vector. -/
noncomputable def withShotVector (batches : List ShotBatch) : Trace ℝ :=
  ⟨[⟨StandardGate.rx.spec, [.trainable 0.5], [0]⟩],
    [.ofObservable .expectation (.word (.single 0 .Z))], 1, .vector batches, .empty⟩

/-- Two batches are taken apart; no batch is missed by a splitting. -/
theorem aborts_iff_no_batch_repeated :
    (∃ rs, (withShotVector [⟨5, 2⟩]).unpackResult (.vector #[1, 2]) = .ok rs ∧
      rs.length = 2) ∧
    ∃ p, (withShotVector [⟨5, 0⟩]).splitTerms true = .ok p ∧ p.size = 1 ∧
      p ≠ .identity (withShotVector [⟨5, 0⟩]) := by
  obtain ⟨-, -, hlength, -, -, -, -⟩ := aborts_iff_no_batch (withShotVector [⟨5, 2⟩])
  obtain ⟨-, -, -, -, -, -, hsplit⟩ := aborts_iff_no_batch (withShotVector [⟨5, 0⟩])
  obtain ⟨rs, hrs⟩ : ∃ rs, (withShotVector [⟨5, 2⟩]).unpackResult (.vector #[1, 2]) = .ok rs :=
    ⟨_, rfl⟩
  obtain ⟨-, p, hp, hsize, -, hne⟩ :=
    (hsplit (.simulator 1) _ List.mem_cons_self [.scalar 1]).mp rfl
  exact ⟨⟨rs, hrs, hlength _ rs hrs⟩, p, hp, hsize, hne⟩

/-- A shot vector without entries, and one whose entry is repeated zero times,
    are accepted by a trace and leave it without a batch. -/
theorem no_batch_aborts :
    (withShotVector []).check = .ok (withShotVector []) ∧
    (withShotVector []).outputShape = .error .aborted ∧
    (withShotVector [⟨5, 0⟩]).outputShape = .error .aborted ∧
    (withShotVector []).unpackResult (.scalar 1) = .error .aborted ∧
    (withShotVector []).bindBatch [⟨[0.1], [1], true, true⟩] = .error .aborted ∧
    ((withShotVector []).splitTerms true >>= fun p => p.combine [.scalar 1]) =
      .error .aborted :=
  ⟨rfl, rfl, rfl, rfl, rfl, rfl⟩

end Proofs

end CircuitGrad
