import CircuitGrad.Proofs.Assignment
import CircuitGrad.Proofs.BatchSlices
import CircuitGrad.Proofs.WellFormedTrace

/-! # Batches of bindings

    The trainable parameters of a trace are bound to one value for each batch
    index.  Three numberings meet: a binding stands at a position among the
    trainable parameters, its parameter at a flat index among all parameters,
    and its value at a batch index.

    Writing the values at the flat indices of the trainable parameters leaves
    every other value alone (`getElem?_foldl_set_of_notMem`), and since no
    index is written twice, each of them holds the value of its own binding
    (`getElem?_foldl_set_of_mem`).  Binding the values changes values only
    (`withValues_eq_ok`).  So every trace of the batch is the given one with
    the values of its batch index, and there is a batch exactly if the
    bindings have one size (`bindBatch_traces`).
-/

namespace CircuitGrad

variable {α : Type}

/-- The value that a binding has for its parameter at a batch index. -/
def Argument.valueAt? (a : Argument α) (i : ℕ) : Option α := a.values[if a.batched then i else 0]?

namespace Trace

/-- There is a binding for each trainable parameter.  Some of them are batched, all of these with
    the same size, and they have a value for each batch index; the others have one value. -/
structure Batches (t : Trace α) (bindings : List (Argument α)) (size : ℕ) : Prop where
  count   : bindings.length = t.trainableIndices.length
  batched : ∃ a ∈ bindings, a.batchSize? = some size
  agree   : ∀ a ∈ bindings, ∀ n, a.batchSize? = some n → n = size
  filled  : ∀ a ∈ bindings, a.values.length = if a.batched then size else 1

/-- A trace that differs from another one in the values of the trainable parameters alone, which
    are those of the bindings at a batch index. -/
structure BoundAt (t : Trace α) (bindings : List (Argument α)) (i : ℕ) (u : Trace α) : Prop where
  settings     : t.SameSettings u
  measurements : u.measurements = t.measurements
  operations   : List.Forall₂ Operation.Reparametrized t.operations u.operations
  derivatives  : u.params.map (·.derivatives) = t.params.map (·.derivatives)
  bound        : ∀ (k : ℕ) (a : Argument α) index, bindings[k]? = some a →
    t.trainableIndices[k]? = some index → ∃ x, a.valueAt? i = some x ∧ u.values[index]? = some x
  others       : ∀ index ∉ t.trainableIndices, u.values[index]? = t.values[index]?

end Trace

namespace Proofs

/-! ## Values written at some places -/

section Writes

variable {xs : List α} {writes : List (ℕ × α)} {i : ℕ}

@[simp] theorem length_foldl_set (writes : List (ℕ × α)) (xs : List α) :
    (writes.foldl (fun acc (j, x) => acc.set j x) xs).length = xs.length := by
  induction writes generalizing xs with
  | nil => rfl
  | cons first rest ih => rw [List.foldl_cons, ih, List.length_set]

theorem getElem?_foldl_set_of_notMem (h : i ∉ writes.map (·.1)) :
    (writes.foldl (fun acc (j, x) => acc.set j x) xs)[i]? = xs[i]? := by
  induction writes generalizing xs with
  | nil => rfl
  | cons first rest ih =>
    rw [List.map_cons, List.mem_cons, not_or] at h
    rw [List.foldl_cons, ih h.2, List.getElem?_set_ne (Ne.symm h.1)]

/-- What is written once stays. -/
theorem getElem?_foldl_set_of_mem (hnodup : (writes.map (·.1)).Nodup) (hi : i < xs.length) {x : α}
    (h : (i, x) ∈ writes) : (writes.foldl (fun acc (j, x) => acc.set j x) xs)[i]? = some x := by
  induction writes generalizing xs with
  | nil => cases h
  | cons first rest ih =>
    rw [List.map_cons, List.nodup_cons] at hnodup
    rw [List.foldl_cons]
    rcases List.mem_cons.mp h with rfl | h
    · rw [getElem?_foldl_set_of_notMem hnodup.1, List.getElem?_set_self hi]
    · exact ih hnodup.2 (by rwa [List.length_set]) h

end Writes

/-! ## Bound values -/

section Values

variable {t : Trace α} {values : List α}

theorem length_params (t : Trace α) : t.params.length = t.paramCount := List.length_flatMap

theorem length_values (t : Trace α) : t.values.length = t.paramCount := by
  rw [← length_params]
  exact List.length_map _

/-- A trainable parameter has a value. -/
theorem lt_of_mem_trainableIndices {index : ℕ} (h : index ∈ t.trainableIndices) :
    index < t.values.length := by
  obtain ⟨⟨p, j⟩, hp, rfl⟩ := List.mem_map.mp h
  have hget : t.params[j]? = some p :=
    List.mem_zipIdx_iff_getElem?.mp (List.mem_filter.mp hp).1
  rw [length_values, ← length_params]
  exact (List.getElem?_eq_some_iff.mp hget).1

/-- Each operation keeps the derivatives of its parameters and takes its own
    stretch of the values. -/
theorem exists_deal_withValues {ops : List (Operation α)}
    (h : values.length = (ops.flatMap (·.params)).length) :
    ∃ ops', (Trace.deal Operation.withValues ops values).mapM id = .ok ops' ∧
      ops'.flatMap (·.params) =
        ((ops.flatMap (·.params)).zip values).map fun e => e.1.withValue e.2 := by
  induction ops generalizing values with
  | nil => exact ⟨[], rfl, rfl⟩
  | cons op rest ih =>
    rw [List.flatMap_cons, List.length_append] at h
    have hown : (values.take op.params.length).length = op.params.length := by
      rw [List.length_take]
      omega
    have hothers : (values.drop op.params.length).length = (rest.flatMap (·.params)).length := by
      rw [List.length_drop]
      omega
    obtain ⟨ops', hops', hparams⟩ := ih hothers
    have hfirst : op.withValues (values.take op.params.length) = .ok
        { op with params := List.zipWith Jet.withValue op.params (values.take op.params.length) } :=
      if_neg (not_not.mpr hown)
    refine ⟨⟨op.spec, List.zipWith Jet.withValue op.params (values.take op.params.length),
      op.wires⟩ :: ops', ?_, ?_⟩
    · rw [Trace.deal, List.mapM_cons, id, hfirst, hops']
      rfl
    · rw [List.flatMap_cons, hparams, List.flatMap_cons, List.map_zip_eq_zipWith,
        List.map_zip_eq_zipWith]
      conv_rhs => rw [← List.take_append_drop op.params.length values]
      exact (List.zipWith_append hown.symm).symm

/-- Binding as many values as there are parameters changes these values, and nothing else. -/
theorem withValues_eq_ok (h : values.length = t.paramCount) :
    ∃ ops, t.withValues values = .ok { t with operations := ops } ∧
      List.Forall₂ Operation.Reparametrized t.operations ops ∧
      (ops.flatMap (·.params)).map (·.derivatives) = t.params.map (·.derivatives) ∧
      (ops.flatMap (·.params)).map (·.value) = values := by
  have hcount : values.length = t.params.length := h.trans (length_params t).symm
  obtain ⟨ops, hops, hparams⟩ := exists_deal_withValues hcount
  refine ⟨ops, ?_, reparametrized_deal_values hops, ?_, ?_⟩
  · unfold Trace.withValues
    rw [if_neg (not_not.mpr h), hops]
    rfl
  · have hfst : ((t.params.zip values).map Prod.fst).map (·.derivatives) =
        t.params.map (·.derivatives) := by rw [List.map_fst_zip hcount.ge]
    rw [hparams, List.map_map, ← hfst, List.map_map]
    rfl
  · have hsnd : (t.params.zip values).map Prod.snd = values := List.map_snd_zip hcount.le
    rw [hparams, List.map_map]
    exact hsnd

end Values

/-! ## Sizes of batches -/

section Sizes

variable {args : List (Argument α)} {size : ℕ}

/-- Sizes that are listed are those of batched arguments. -/
theorem of_mem_batchSizes {e : ℕ × ℕ}
    (h : e ∈ args.zipIdx.filterMap fun (a, i) => a.batchSize?.map (i, ·)) :
    ∃ a ∈ args, a.batchSize? = some e.2 := by
  obtain ⟨⟨a, i⟩, ha, hown⟩ := List.mem_filterMap.mp h
  obtain ⟨n, hn, rfl⟩ := Option.map_eq_some_iff.mp hown
  exact ⟨a, List.mem_of_getElem? (List.mk_mem_zipIdx_iff_getElem?.mp ha), hn⟩

/-- The common size is the size of some argument and of no other size is any. -/
theorem commonBatchSize_eq_some_iff : Argument.commonBatchSize args = .ok (some size) ↔
    (∃ a ∈ args, a.batchSize? = some size) ∧
      ∀ a ∈ args, ∀ n, a.batchSize? = some n → n = size := by
  constructor
  · intro h
    have hagree : ∀ a ∈ args, ∀ m, a.batchSize? = some m → ∀ a' ∈ args, ∀ n,
        a'.batchSize? = some n → m = n := by
      intro a ha m hm a' ha' n hn
      by_contra hne
      obtain ⟨fault, hfault⟩ := commonBatchSize_of_ne ha ha' hm hn hne
      rw [hfault] at h
      cases h
    obtain ⟨a, ha, hsize⟩ : ∃ a ∈ args, a.batchSize? = some size := by
      unfold Argument.commonBatchSize at h
      dsimp only at h
      split at h
      · cases h
      · next first own rest hsizes =>
        split at h
        · cases h
        · obtain rfl := Option.some.inj (Except.ok.inj h)
          exact of_mem_batchSizes (hsizes ▸ List.mem_cons_self)
    exact ⟨⟨a, ha, hsize⟩, fun a' ha' n hn => hagree a' ha' n hn a ha size hsize⟩
  · rintro ⟨⟨a, ha, hsize⟩, hagree⟩
    obtain ⟨i, hi⟩ := mem_batchSizes (fun _ => rfl) ha hsize
    unfold Argument.commonBatchSize
    dsimp only
    split
    · next hnone =>
      rw [hnone] at hi
      cases hi
    · next first own rest hsizes =>
      have hall : ∀ e ∈ (first, own) :: rest, e.2 = size := by
        intro e he
        obtain ⟨a', ha', hn⟩ := of_mem_batchSizes (hsizes ▸ he)
        exact hagree a' ha' e.2 hn
      obtain ⟨hown, hrest⟩ := List.forall_mem_cons.mp hall
      have hown : own = size := hown
      have hnone : rest.find? (·.2 != own) = none := by
        refine List.find?_eq_none.mpr fun e he => ?_
        simp [hrest e he, hown]
      rw [hnone, hown]

end Sizes

/-! ## Traces of a batch -/

section Batches

variable [Zero α] {t : Trace α} {bindings : List (Argument α)} {size i : ℕ}

/-- The values of all parameters at a batch index. -/
def batchValues (t : Trace α) (bindings : List (Argument α)) (i : ℕ) : List α :=
  t.valuesWith t.trainableIndices <|
    bindings.map fun a => a.values.getD (if a.batched then i else 0) 0

theorem length_batchValues (t : Trace α) (bindings : List (Argument α)) (i : ℕ) :
    (batchValues t bindings i).length = t.paramCount :=
  (length_foldl_set _ _).trans (length_values t)

theorem valueAt_of_filled {a : Argument α} (hi : i < size)
    (h : a.values.length = if a.batched then size else 1) :
    a.valueAt? i = some (a.values.getD (if a.batched then i else 0) 0) := by
  have hlt : (if a.batched then i else 0) < a.values.length := by
    rw [h]
    split <;> omega
  unfold Argument.valueAt?
  rw [List.getElem?_eq_getElem hlt, List.getD_eq_getElem _ _ hlt]

/-- The values at a batch index are bound to the parameters they belong to. -/
theorem boundAt_of_batches (h : t.Batches bindings size) (hi : i < size) :
    ∃ u, t.withValues (batchValues t bindings i) = .ok u ∧ t.BoundAt bindings i u := by
  let given (a : Argument α) : α := a.values.getD (if a.batched then i else 0) 0
  have hwritten : (t.trainableIndices.zip (bindings.map given)).map (·.1) = t.trainableIndices :=
    List.map_fst_zip (by rw [List.length_map, h.count])
  obtain ⟨ops, hu, hops, hderivatives, hvalues⟩ :=
    withValues_eq_ok (length_batchValues t bindings i)
  refine ⟨_, hu, ⟨rfl, rfl, rfl⟩, rfl, hops, hderivatives, ?_, ?_⟩
  · intro k a index ha hindex
    refine ⟨given a, valueAt_of_filled hi (h.filled a (List.mem_of_getElem? ha)), ?_⟩
    -- The index and the value stand at the same position, that of the binding.
    have hmem : (index, given a) ∈ t.trainableIndices.zip (bindings.map given) := by
      refine List.mem_iff_getElem?.mpr ⟨k, List.getElem?_zip_eq_some.mpr ⟨hindex, ?_⟩⟩
      rw [List.getElem?_map, ha]
      rfl
    have hnodup : ((t.trainableIndices.zip (bindings.map given)).map (·.1)).Nodup := by
      rw [hwritten]
      exact nodup_trainableIndices t
    exact (congrArg (·[index]?) hvalues).trans (getElem?_foldl_set_of_mem hnodup
      (lt_of_mem_trainableIndices (List.mem_of_getElem? hindex)) hmem)
  · intro index hindex
    rw [← hwritten] at hindex
    exact (congrArg (·[index]?) hvalues).trans (getElem?_foldl_set_of_notMem hindex)

omit [Zero α] in
/-- No binding is found that lacks values. -/
theorem find?_unfilled_iff (bindings : List (Argument α)) (size : ℕ) :
    (bindings.zipIdx.find? fun (a, _) => a.size != (if a.batched then size else 1)) = none ↔
      ∀ a ∈ bindings, a.values.length = if a.batched then size else 1 := by
  rw [List.find?_eq_none]
  constructor
  · intro h a ha
    obtain ⟨k, hk⟩ := List.mem_iff_getElem?.mp ha
    simpa [Argument.size] using h (a, k) (List.mk_mem_zipIdx_iff_getElem?.mpr hk)
  · rintro h ⟨a, k⟩ ha
    have hsize := h a (List.mem_of_getElem? (List.mk_mem_zipIdx_iff_getElem?.mp ha))
    simpa [Argument.size] using hsize

/-- The bindings are checked, and there is a trace for each batch index. -/
theorem bindBatch_eq_ok_iff {p : Plan α} : t.bindBatch bindings = .ok p ↔
    ∃ size traces shape, t.Batches bindings size ∧
      (List.range size).mapM (fun i => t.withValues (batchValues t bindings i)) = .ok traces ∧
      t.outputShape = .ok shape ∧
      p = ⟨traces, fun results => Tensor.stackBatch results shape⟩ := by
  constructor
  · intro h
    unfold Trace.bindBatch at h
    dsimp only at h
    split at h
    · cases h
    · next hcount =>
      obtain ⟨size?, hsize, h⟩ := bind_eq_ok h
      rcases size? with _ | size
      · cases h
      · obtain ⟨hbatched, hagree⟩ := commonBatchSize_eq_some_iff.mp hsize
        dsimp only at h
        split at h
        · cases h
        · next hnone =>
          obtain ⟨traces, htraces, h⟩ := bind_eq_ok h
          obtain ⟨shape, hshape, h⟩ := bind_eq_ok h
          exact ⟨size, traces, shape,
            ⟨not_not.mp hcount, hbatched, hagree, (find?_unfilled_iff _ size).mp hnone⟩,
            htraces, hshape, (Except.ok.inj h).symm⟩
  · rintro ⟨size, traces, shape, hbatches, htraces, hshape, rfl⟩
    unfold Trace.bindBatch
    dsimp only
    rw [if_neg (not_not.mpr hbatches.count),
      commonBatchSize_eq_some_iff.mpr ⟨hbatches.batched, hbatches.agree⟩, ok_bind]
    dsimp only
    rw [(find?_unfilled_iff _ size).mpr hbatches.filled]
    dsimp only
    have htraces' : ((List.range size).mapM fun i => t.withValues <|
        t.valuesWith t.trainableIndices <|
          bindings.map fun a => a.values.getD (if a.batched then i else 0) 0) = .ok traces :=
      htraces
    rw [htraces', ok_bind, hshape]
    rfl

/-- Results of one shape are stacked, in order, and of no results the shape is known. -/
theorem stackBatch_slices {results : List (Tensor α)} {shape item : List ℕ}
    (h : ∀ r ∈ results, r.shape = item) : ∃ T, Tensor.stackBatch results shape = .ok T ∧
      T.shape = (if results.length = 0 then 0 :: shape else results.length :: item) ∧
      ∀ i r, results[i]? = some r → T.indexLeading i = .ok r := by
  cases results with
  | nil => exact ⟨.zeros (0 :: shape), rfl, rfl, nofun⟩
  | cons first rest =>
    obtain ⟨hfirst, hrest⟩ := List.forall_mem_cons.mp h
    obtain ⟨T, hT, hshape, -⟩ := stack_eq fun r hr => (hrest r hr).trans hfirst.symm
    refine ⟨T, hT, ?_, fun i r hr => indexLeading_of_stack hT hr⟩
    rw [hshape, hfirst]
    rfl

/-- **Batches of bindings.**  Binding the trainable parameters to batched values succeeds exactly
    if there is one binding for each of them, some are batched, all with the same size and with a
    value for each batch index, the others have one value, and the trace has an output shape.
    Then there is a trace for each batch index, bound to the values at that index and otherwise
    the given one; and results of one shape, one for each trace, are combined to a tensor with the
    results as its slices, or with the output shape behind an empty dimension if there are none. -/
theorem bindBatch_traces (t : Trace α) (bindings : List (Argument α)) :
    ((∃ p, t.bindBatch bindings = .ok p) ↔
      (∃ size, t.Batches bindings size) ∧ ∃ shape, t.outputShape = .ok shape) ∧
    ∀ p size shape, t.bindBatch bindings = .ok p → t.Batches bindings size →
      t.outputShape = .ok shape →
        p.traces.length = size ∧
        (∀ (i : ℕ) u, p.traces[i]? = some u → t.BoundAt bindings i u) ∧
        ∀ results item, results.length = size → (∀ r ∈ results, r.shape = item) →
          ∃ T, p.combine results = .ok T ∧
            T.shape = (if size = 0 then 0 :: shape else size :: item) ∧
            ∀ (i : ℕ) r, results[i]? = some r → T.indexLeading i = .ok r := by
  constructor
  · constructor
    · rintro ⟨p, hp⟩
      obtain ⟨size, traces, shape, hbatches, -, hshape, -⟩ := bindBatch_eq_ok_iff.mp hp
      exact ⟨⟨size, hbatches⟩, shape, hshape⟩
    · rintro ⟨⟨size, hbatches⟩, shape, hshape⟩
      obtain ⟨traces, htraces⟩ : ∃ traces, (List.range size).mapM
          (fun i => t.withValues (batchValues t bindings i)) = .ok traces := by
        refine exists_mapM_eq_ok fun i hi => ?_
        obtain ⟨u, hu, -⟩ := boundAt_of_batches hbatches (List.mem_range.mp hi)
        exact ⟨u, hu⟩
      exact ⟨_, bindBatch_eq_ok_iff.mpr ⟨size, traces, shape, hbatches, htraces, hshape, rfl⟩⟩
  · intro p size shape hp hbatches hshape
    obtain ⟨size', traces, shape', hbatches', htraces, hshape', rfl⟩ := bindBatch_eq_ok_iff.mp hp
    obtain ⟨a, ha, hsize⟩ := hbatches'.batched
    obtain rfl : size' = size := hbatches.agree a ha size' hsize
    obtain rfl : shape' = shape := Except.ok.inj (hshape'.symm.trans hshape)
    have hlength : traces.length = size' := (length_of_mapM htraces).trans List.length_range
    refine ⟨hlength, fun i u hu => ?_, fun results item hcount hitem => ?_⟩
    · have hi : i < size' := hlength ▸ (List.getElem?_eq_some_iff.mp hu).1
      obtain ⟨u', hu', hown⟩ := getElem?_of_forall₂
        (forall₂_of_mapM (fun _ _ _ h => h) htraces) (List.getElem?_range hi)
      obtain rfl := Option.some.inj (hu'.symm.trans hu)
      obtain ⟨v, hv, hbound⟩ := boundAt_of_batches hbatches hi
      obtain rfl := Except.ok.inj (hv.symm.trans hown)
      exact hbound
    · have hown : results.length = Plan.size ⟨traces, fun results =>
          Tensor.stackBatch results shape'⟩ := hcount.trans hlength.symm
      rw [combine_of_length hown, ← hcount]
      exact stackBatch_slices hitem

/-- A constant rotation between two trainable ones, and a mean. -/
noncomputable def interleaved : Trace ℝ :=
  ⟨[⟨StandardGate.rx.spec, [.trainable 0], [0]⟩, ⟨StandardGate.ry.spec, [.constant 0.4], [0]⟩,
      ⟨StandardGate.rz.spec, [.trainable 0], [0]⟩],
    [.ofObservable .expectation (.word (.single 0 .Z))], 1, .analytic, .empty⟩

/-- The second binding goes to the third parameter, also in a batch without indices. -/
theorem bindBatch_traces_interleaved :
    (∃ p u T, interleaved.bindBatch [⟨[0.1, 0.2, 0.3], [3], true, true⟩, .scalar 0.7] = .ok p ∧
      p.traces[2]? = some u ∧ u.values[0]? = some (0.3 : ℝ) ∧
      u.values[1]? = some (0.4 : ℝ) ∧ u.values[2]? = some (0.7 : ℝ) ∧
      p.combine [.scalar 1, .scalar 2, .scalar 3] = .ok T ∧ T.shape = [3] ∧
      T.indexLeading 2 = .ok (.scalar 3)) ∧
    ∃ p T, interleaved.bindBatch [⟨[], [0], true, true⟩, .scalar 0.7] = .ok p ∧
      p.traces = [] ∧ p.combine [] = .ok T ∧ T.shape = [0] := by
  have hbatches (values : List ℝ) : interleaved.Batches
      [⟨values, [values.length], true, true⟩, .scalar 0.7] values.length := by
    refine ⟨rfl, ⟨_, List.mem_cons_self, rfl⟩, ?_, ?_⟩
    · simp [Argument.batchSize?, Argument.scalar]
    · simp [Argument.scalar]
  constructor
  · obtain ⟨hiff, htraces⟩ := bindBatch_traces interleaved
      [⟨[0.1, 0.2, 0.3], [3], true, true⟩, .scalar 0.7]
    obtain ⟨p, hp⟩ := hiff.mpr ⟨⟨3, hbatches [0.1, 0.2, 0.3]⟩, [], rfl⟩
    obtain ⟨hlength, hbound, hcombine⟩ := htraces p 3 [] hp (hbatches _) rfl
    have hu : p.traces[2]? = some p.traces[2] := List.getElem?_eq_getElem (by omega)
    have hown := hbound 2 _ hu
    obtain ⟨x, hx, hfirst⟩ := hown.bound 0 _ 0 rfl rfl
    obtain ⟨y, hy, hthird⟩ := hown.bound 1 _ 2 rfl rfl
    obtain rfl := Option.some.inj hx
    obtain rfl := Option.some.inj hy
    have hsecond := hown.others 1 (by decide)
    obtain ⟨T, hT, hshape, hslices⟩ :=
      hcombine [.scalar 1, .scalar 2, .scalar 3] [] rfl (by simp [Tensor.scalar])
    exact ⟨p, _, T, hp, hu, hfirst, hsecond, hthird, hT, hshape, hslices 2 _ rfl⟩
  · obtain ⟨hiff, htraces⟩ := bindBatch_traces interleaved [⟨[], [0], true, true⟩, .scalar 0.7]
    obtain ⟨p, hp⟩ := hiff.mpr ⟨⟨0, hbatches []⟩, [], rfl⟩
    obtain ⟨hlength, -, hcombine⟩ := htraces p 0 [] hp (hbatches []) rfl
    obtain ⟨T, hT, hshape, -⟩ := hcombine [] [] rfl (by simp)
    exact ⟨p, T, hp, List.eq_nil_of_length_eq_zero hlength, hT, hshape⟩

end Batches

end Proofs

end CircuitGrad
