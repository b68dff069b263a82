import CircuitGrad.Proofs.PlanAlgebra
import CircuitGrad.Proofs.Shares
import CircuitGrad.Proofs.ShotBatches
import CircuitGrad.Proofs.ShotVectors

/-! # Trailing dimensions through a splitting

    Later stages may give the traces of a splitting results with trailing
    dimensions, and the splitting folds them slice by slice.  Without trailing
    dimensions it always folds results of the traces' output shapes to a
    result of the output shape of the trace (`recombine_shape`): every batch
    of every measurement gets a contribution, and all of its contributions
    have the shape of the measurement (`Trace.Contributed`).  With trailing
    dimensions the slices are folded in this way and joined again
    (`fold_slices`), so that the slices of the result are what the splitting
    folds the slices to (`splitting_slices`).
-/

namespace CircuitGrad

variable {α : Type}

/-- The slice at a row-major index of the trailing dimensions. -/
def Tensor.slice [Zero α] (t : Tensor α) (trailing : List ℕ) (j : ℕ) : Tensor α :=
  .ofFn (t.shape.take (t.shape.length - trailing.length)) fun g =>
    t.entry (g * Tensor.volume trailing + j)

/-- The tensor has the shape of the trace's output followed by trailing dimensions. -/
def Trace.Carries (t : Trace α) (trailing : List ℕ) (r : Tensor α) : Prop :=
  ∃ shape, t.outputShape = .ok shape ∧ r.shape = shape ++ trailing

/-- Results with trailing dimensions are folded slice by slice. -/
def Plan.FoldsSlices [Zero α] (p : Plan α) (t : Trace α) : Prop :=
  ∀ trailing rs, List.Forall₂ (·.Carries trailing) p.traces rs →
    ∃ T, p.combine rs = .ok T ∧ t.Carries trailing T ∧ ∀ j < Tensor.volume trailing,
      p.combine (rs.map (·.slice trailing j)) = .ok (T.slice trailing j)

/-- Every share contributes to every batch, and each contribution has the shape of the share's
    measurement. -/
structure Trace.Contributed (t : Trace α) (shares : List (Share α))
    (contributions : List (Splitting.Contribution α)) : Prop where
  fits     : ∀ c ∈ contributions, c.share ∈ shares ∧ ∃ shots,
    t.shots.batches[c.batch]? = some shots ∧
      c.share.measurement.outputShape t.register shots = .ok c.result.shape
  complete : ∀ share ∈ shares, ∀ batch < t.shots.batches.length,
    ∃ c ∈ contributions, c.batch = batch ∧ c.share = share

namespace Proofs

/-! ## Slices -/

section Slices

variable [Zero α] {T : Tensor α} {lead trailing : List ℕ}

theorem shape_slice (h : T.shape = lead ++ trailing) (j : ℕ) :
    (T.slice trailing j).shape = lead := by
  unfold Tensor.slice
  rw [Tensor.shape_ofFn, h, List.length_append, Nat.add_sub_cancel, List.take_left]

theorem slice_eq (h : T.shape = lead ++ trailing) (j : ℕ) :
    T.slice trailing j = .ofFn lead fun g => T.entry (g * Tensor.volume trailing + j) :=
  congrArg (Tensor.ofFn · _) (shape_slice h j)

theorem splitTrailing_eq (h : T.shape = lead ++ trailing) :
    T.splitTrailing lead =
      .ok (trailing, (List.range (Tensor.volume trailing)).map (T.slice trailing)) := by
  have hlead : lead.isPrefixOf T.shape = true := by
    rw [List.isPrefixOf_iff_prefix, h]
    exact List.prefix_append lead trailing
  have hdrop : T.shape.drop lead.length = trailing := by rw [h, List.drop_left]
  unfold Tensor.splitTrailing
  rw [if_pos hlead]
  dsimp only
  rw [hdrop, funext (slice_eq h)]

/-- Without trailing dimensions, the only slice is the tensor. -/
theorem slice_nil (T : Tensor α) : T.slice [] 0 = T := by
  have hshape : T.shape = T.shape ++ [] := (List.append_nil _).symm
  refine Tensor.ext_entry (shape_slice hshape 0) fun g hg => ?_
  rw [shape_slice hshape] at hg
  rw [slice_eq hshape, Tensor.entry_ofFn hg, Tensor.volume_nil, Nat.mul_one, Nat.add_zero]

/-- Tensors of one shape are joined to a tensor with these slices. -/
theorem joinTrailing_eq {f : ℕ → Tensor α} {shape : List ℕ} (hpos : 0 < Tensor.volume trailing)
    (hf : ∀ j < Tensor.volume trailing, (f j).shape = shape) :
    ∃ T, Tensor.joinTrailing ((List.range (Tensor.volume trailing)).map f) trailing = .ok T ∧
      T.shape = shape ++ trailing ∧ ∀ j < Tensor.volume trailing, T.slice trailing j = f j := by
  have hne : (List.range (Tensor.volume trailing)).map f ≠ [] := by simp; omega
  have hshapes : ∀ s ∈ (List.range (Tensor.volume trailing)).map f, s.shape = shape :=
    List.forall_mem_map.mpr fun j hj => hf j (List.mem_range.mp hj)
  obtain ⟨S, hstack, hS, hentry⟩ := stackTrailing_eq hne hshapes
  rw [List.length_map, List.length_range] at hS hentry
  -- The new last dimension is laid out as the trailing dimensions are.
  have hvolume : Tensor.volume S.shape = Tensor.volume (shape ++ trailing) := by
    rw [hS]
    simp [Tensor.volume_append]
  obtain ⟨T, hreshape, hT, hsame⟩ := reshape_eq hvolume
  refine ⟨T, ?_, hT, fun j hj => ?_⟩
  · unfold Tensor.joinTrailing
    rw [hstack, ok_bind, hS, List.dropLast_concat]
    exact hreshape
  · refine Tensor.ext_entry ((shape_slice hT j).trans (hf j hj).symm) fun g hg => ?_
    rw [shape_slice hT] at hg
    rw [slice_eq hT, Tensor.entry_ofFn hg, hsame]
    exact hentry g hg j (f j) (by simp [hj])

/-- The slices of tensors that are stacked along a new last dimension. -/
theorem slice_stackTrailing {ds : List (Tensor α)} (hne : ds ≠ []) {shape : List ℕ}
    (hds : ∀ d ∈ ds, d.shape = shape) :
    ∃ T, Tensor.stackTrailing ds = .ok T ∧ T.shape = shape ++ [ds.length] ∧
      ∀ k d, ds[k]? = some d → T.slice [ds.length] k = d := by
  obtain ⟨T, hT, hshape, hentry⟩ := stackTrailing_eq hne hds
  refine ⟨T, hT, hshape, fun k d hd => ?_⟩
  have hdshape := hds d (List.mem_of_getElem? hd)
  refine Tensor.ext_entry ((shape_slice hshape k).trans hdshape.symm) fun o ho => ?_
  rw [shape_slice hshape] at ho
  rw [slice_eq hshape, Tensor.entry_ofFn ho, Tensor.volume_cons, Tensor.volume_nil, Nat.mul_one]
  exact hentry o ho k d hd

end Slices

/-! ## Contributions -/

section Contributions

variable {t : Trace α} {shares : List (Share α)}
  {contributions : List (Splitting.Contribution α)}

theorem contributed_append {more : List (Share α)} {others : List (Splitting.Contribution α)}
    (h : t.Contributed shares contributions) (hmore : t.Contributed more others) :
    t.Contributed (shares ++ more) (contributions ++ others) := by
  constructor
  · intro c hc
    rcases List.mem_append.mp hc with hc | hc
    · obtain ⟨hshare, hfits⟩ := h.fits c hc
      exact ⟨List.mem_append_left _ hshare, hfits⟩
    · obtain ⟨hshare, hfits⟩ := hmore.fits c hc
      exact ⟨List.mem_append_right _ hshare, hfits⟩
  · intro share hshare batch hbatch
    rcases List.mem_append.mp hshare with hshare | hshare
    · obtain ⟨c, hc, hown⟩ := h.complete share hshare batch hbatch
      exact ⟨c, List.mem_append_left _ hc, hown⟩
    · obtain ⟨c, hc, hown⟩ := hmore.complete share hshare batch hbatch
      exact ⟨c, List.mem_append_right _ hc, hown⟩

theorem contributed_of_perm {shares' : List (Share α)} (hperm : shares.Perm shares')
    (h : t.Contributed shares contributions) : t.Contributed shares' contributions := by
  constructor
  · intro c hc
    obtain ⟨hshare, hfits⟩ := h.fits c hc
    exact ⟨hperm.mem_iff.mp hshare, hfits⟩
  · exact fun share hshare => h.complete share (hperm.mem_iff.mpr hshare)

/-- Results have the shapes of the measurements batch by batch. -/
theorem forall₂_batches {shapes : List (List (List ℕ))} (hshapes : t.batchShapes = .ok shapes)
    {rs : List (List (Tensor α))} (hrs : rs.map (fun r => r.map (·.shape)) = shapes) :
    List.Forall₂ (fun shots r => t.measurementShapes shots = .ok (r.map (·.shape)))
      t.shots.batches rs := by
  have h := forall₂_of_mapM (fun _ _ _ => id) hshapes
  rw [← hrs, List.forall₂_map_right_iff] at h
  exact h

/-- A result of a part's output shape gives a contribution of each share to each batch. -/
theorem contributions_contributed [Scalar α] {part : Splitting.Part α} {r : Tensor α}
    (htrace : part.trace = { t with measurements := part.shares.map (·.measurement) })
    (hr : part.trace.outputShape = .ok r.shape) :
    ∃ cs, part.contributions r = .ok cs ∧ t.Contributed part.shares cs := by
  obtain ⟨shapes, -, hshapes, -⟩ := batchShapes_of_outputShape hr
  obtain ⟨rs, hunpack, hrs, -⟩ := unpackResult_shapes hr hshapes rfl
  have hbatches := forall₂_batches hshapes hrs
  rw [htrace] at hbatches
  -- In each batch the shares stand beside results of their shapes.
  have hown : ∀ (batch : ℕ) shots results, t.shots.batches[batch]? = some shots →
      rs[batch]? = some results → List.Forall₂ (fun share (result : Tensor α) =>
        share.measurement.outputShape t.register shots = .ok result.shape) part.shares results := by
    intro batch shots results hshots hresults
    obtain ⟨results', hresults', hmeasured⟩ := getElem?_of_forall₂ hbatches hshots
    obtain rfl := Option.some.inj (hresults.symm.trans hresults')
    have h := forall₂_of_mapM (fun _ _ _ => id) hmeasured
    rwa [List.forall₂_map_left_iff, List.forall₂_map_right_iff] at h
  have hlength : t.shots.batches.length = rs.length := hbatches.length_eq
  unfold Splitting.Part.contributions
  rw [hunpack, ok_bind]
  refine ⟨_, rfl, ?_, ?_⟩
  · intro c hc
    obtain ⟨⟨results, batch⟩, hbatch, hc⟩ := List.mem_flatMap.mp hc
    obtain ⟨⟨share, result⟩, hzip, rfl⟩ := List.mem_map.mp hc
    have hresults := List.mem_zipIdx_iff_getElem?.mp hbatch
    have hlt : batch < t.shots.batches.length := by
      rw [hlength]
      exact (List.getElem?_eq_some_iff.mp hresults).1
    have hshots := List.getElem?_eq_getElem hlt
    have hfits := (List.forall₂_iff_zip.mp (hown batch _ results hshots hresults)).2 hzip
    exact ⟨(List.of_mem_zip hzip).1, _, hshots, hfits⟩
  · intro share hshare batch hlt
    have hlt' : batch < rs.length := hlength ▸ hlt
    have hzips := hown batch _ _ (List.getElem?_eq_getElem hlt) (List.getElem?_eq_getElem hlt')
    obtain ⟨i, hi, rfl⟩ := List.getElem_of_mem hshare
    have hi' : i < rs[batch].length := hzips.length_eq ▸ hi
    refine ⟨⟨batch, part.shares[i], rs[batch][i]⟩, List.mem_flatMap.mpr ⟨(rs[batch], batch), ?_,
      List.mem_map.mpr ⟨(part.shares[i], rs[batch][i]), ?_, rfl⟩⟩, rfl, rfl⟩
    · exact List.mem_zipIdx_iff_getElem?.mpr (List.getElem?_eq_getElem hlt')
    · exact List.mem_iff_getElem.mpr ⟨i, by simp [hi, hi'], by simp⟩

/-- The parts give a contribution of each of their shares to each batch. -/
theorem mapM_contributed [Scalar α] {parts : List (Splitting.Part α)} {rs : List (Tensor α)}
    (htraces : ∀ part ∈ parts,
      part.trace = { t with measurements := part.shares.map (·.measurement) })
    (hrs : List.Forall₂ (fun part r => part.trace.outputShape = .ok r.shape) parts rs) :
    ∃ css, ((parts.zip rs).mapM fun (p, r) => p.contributions r) = .ok css ∧
      t.Contributed (parts.flatMap (·.shares)) css.flatten := by
  induction hrs with
  | nil => exact ⟨[], rfl, ⟨by simp, by simp⟩⟩
  | cons hr _ ih =>
    obtain ⟨hfirst, hothers⟩ := List.forall_mem_cons.mp htraces
    obtain ⟨cs, hcs, hown⟩ := contributions_contributed hfirst hr
    obtain ⟨css, hcss, hrest⟩ := ih hothers
    refine ⟨cs :: css, ?_, ?_⟩
    · rw [List.zip_cons_cons, List.mapM_cons]
      simp only [hcs, hcss]
      rfl
    · rw [List.flatMap_cons, List.flatten_cons]
      exact contributed_append hown hrest

end Contributions

/-! ## Recombination -/

section Recombination

variable [Scalar α] {t : Trace α} {shares : List (Share α)} {parts : List (Splitting.Part α)}

/-- Shares have the shape of the measurement that they stand for. -/
theorem outputShape_of_sharedAs {m : Measurement α} {parent : ℕ} {own : List (Share α)}
    (h : m.SharedAs parent own) (register : ℕ) (shots : Option ℕ) :
    ∀ share ∈ own, share.measurement.outputShape register shots =
      m.outputShape register shots := by
  cases h with
  | whole => exact List.forall_mem_singleton.mpr rfl
  | terms hreadout _ =>
    refine List.forall_mem_map.mpr fun e _ => ?_
    unfold Measurement.outputShape
    rw [hreadout]
    rfl

/-- The contributions to a measurement in a batch are summed to a result of its shape. -/
theorem collect_shape (hshared : t.Shared shares) {contributions : List (Splitting.Contribution α)}
    (hall : t.Contributed shares contributions) {e : Measurement α × ℕ}
    (he : e ∈ t.measurements.zipIdx) (hterms : e.1.HasTerms) {batch : ℕ} {shots : Option ℕ}
    (hbatch : t.shots.batches[batch]? = some shots) {shape : List ℕ}
    (hshape : e.1.outputShape t.register shots = .ok shape) :
    ∃ T, Splitting.collect contributions batch e.2 = .ok T ∧ T.shape = shape := by
  have hsharedAs := hshared.own e he
  obtain ⟨share, hshare⟩ := List.exists_mem_of_ne_nil _ (ne_nil_of_sharedAs hterms hsharedAs)
  obtain ⟨hmem, hparent⟩ := List.mem_filter.mp hshare
  obtain ⟨c, hc, hown, rfl⟩ := hall.complete share hmem batch
    (List.getElem?_eq_some_iff.mp hbatch).1
  have hne : contributions.filter (fun c => c.batch == batch && c.share.parent == e.2) ≠ [] := by
    refine List.ne_nil_of_mem (List.mem_filter.mpr ⟨hc, ?_⟩)
    rw [hown, hparent, beq_self_eq_true, Bool.and_true]
  unfold Splitting.collect
  refine linearCombination_shape (by simp) (mt List.map_eq_nil_iff.mp hne)
    (List.forall_mem_map.mpr fun c hc => ?_)
  obtain ⟨hc, hown⟩ := List.mem_filter.mp hc
  obtain ⟨hbatch', hparent⟩ := Bool.and_eq_true_iff.mp hown
  obtain ⟨hshare, shots', hshots, hfits⟩ := hall.fits c hc
  obtain rfl : shots = shots' := by
    rw [beq_iff_eq.mp hbatch'] at hshots
    exact Option.some.inj (hbatch.symm.trans hshots)
  have hsame := outputShape_of_sharedAs hsharedAs t.register shots c.share
    (List.mem_filter.mpr ⟨hshare, hparent⟩)
  exact Except.ok.inj (hfits.symm.trans (hsame.trans hshape))

/-- In each batch every measurement gets a result of its shape. -/
theorem mapM_collect_shape (hshared : t.Shared shares)
    (hterms : ∀ m ∈ t.measurements, m.HasTerms)
    {contributions : List (Splitting.Contribution α)}
    (hall : t.Contributed shares contributions) {batch : ℕ} {shots : Option ℕ}
    (hbatch : t.shots.batches[batch]? = some shots) {shapes : List (List ℕ)}
    (hshapes : t.measurementShapes shots = .ok shapes) :
    ∃ rs, (List.range t.measurements.length).mapM (Splitting.collect contributions batch) =
      .ok rs ∧ rs.map (·.shape) = shapes := by
  rw [range_length_eq_zipIdx, List.mapM_map]
  have hmeasured := forall₂_of_mapM (fun _ _ _ => id) hshapes
  rw [← List.zipIdx_map_fst 0 t.measurements, List.forall₂_map_left_iff] at hmeasured
  refine exists_mapM_of_forall₂ (fun e he shape hshape => ?_) hmeasured
  exact collect_shape hshared hall he (hterms _ (List.fst_mem_of_mem_zipIdx he)) hbatch hshape

/-- Results of the output shapes of the parts are recombined to a result of the output shape of
    the trace. -/
theorem recombine_shape (hterms : ∀ m ∈ t.measurements, m.HasTerms) (hshared : t.Shared shares)
    (hparts : t.Distributes shares parts) {shape : List ℕ} (hshape : t.outputShape = .ok shape)
    {rs : List (Tensor α)}
    (hrs : List.Forall₂ (fun part r => part.trace.outputShape = .ok r.shape) parts rs) :
    ∃ T, Splitting.recombine t parts rs = .ok T ∧ T.shape = shape := by
  obtain ⟨css, hcss, hcontributed⟩ := mapM_contributed hparts.traces hrs
  have hall := contributed_of_perm hparts.complete hcontributed
  obtain ⟨shapes, -, hshapes, -⟩ := batchShapes_of_outputShape hshape
  have hbatches := forall₂_of_mapM (fun _ _ _ => id) hshapes
  rw [← List.zipIdx_map_fst 0 t.shots.batches, List.forall₂_map_left_iff] at hbatches
  obtain ⟨perBatch, hperBatch, hresults⟩ : ∃ perBatch,
      ((List.range t.shots.batchCount).mapM fun batch =>
        (List.range t.measurements.length).mapM (Splitting.collect css.flatten batch)) =
          .ok perBatch ∧ perBatch.map (fun r => r.map (·.shape)) = shapes := by
    rw [← length_batches, range_length_eq_zipIdx t.shots.batches, List.mapM_map]
    refine exists_mapM_of_forall₂ (fun e he shapes hshapes => ?_) hbatches
    exact mapM_collect_shape hshared hterms hall (List.mem_zipIdx_iff_getElem?.mp he) hshapes
  obtain ⟨T, hpack, hT, -⟩ := packResults_shape hshape hshapes hresults
  refine ⟨T, ?_, hT⟩
  unfold Splitting.recombine
  rw [hcss, ok_bind]
  exact (congrArg (· >>= t.packResults) hperBatch).trans hpack

/-! ## Folds -/

omit [Scalar α] in
/-- The trailing dimensions are found on the first result. -/
theorem trailingShape_eq {trailing : List ℕ} {rs : List (Tensor α)} (hne : parts ≠ [])
    (hrs : List.Forall₂ (fun part r => part.trace.Carries trailing r) parts rs) :
    Splitting.trailingShape parts rs = .ok trailing := by
  cases hrs with
  | nil => exact absurd rfl hne
  | cons hr _ =>
    obtain ⟨lead, hlead, hr⟩ := hr
    unfold Splitting.trailingShape
    dsimp only
    rw [hlead, ok_bind, hr, List.drop_left]
    rfl

/-- Results without trailing dimensions are recombined. -/
theorem fold_eq_recombine {rs : List (Tensor α)}
    (hrs : List.Forall₂ (fun part r => part.trace.outputShape = .ok r.shape) parts rs) :
    Splitting.fold t parts rs = Splitting.recombine t parts rs := by
  have htrailing : Splitting.trailingShape parts rs = .ok [] := by
    cases hrs with
    | nil => rfl
    | cons hr hrs =>
      refine trailingShape_eq (List.cons_ne_nil _ _) (.cons ⟨_, hr, (List.append_nil _).symm⟩ ?_)
      exact hrs.imp fun part r hr => ⟨_, hr, (List.append_nil _).symm⟩
  unfold Splitting.fold
  rw [htrailing]
  rfl

/-- Slices have the output shapes of the parts. -/
theorem outputShape_slices {trailing : List ℕ} {rs : List (Tensor α)}
    (hrs : List.Forall₂ (fun part r => part.trace.Carries trailing r) parts rs) (j : ℕ) :
    List.Forall₂ (fun part r => part.trace.outputShape = .ok r.shape) parts
      (rs.map (·.slice trailing j)) := by
  refine List.forall₂_map_right_iff.mpr (hrs.imp fun part r hr => ?_)
  obtain ⟨lead, hlead, hr⟩ := hr
  rw [hlead, shape_slice hr]

/-- Every part's result is taken apart to its slices. -/
theorem mapM_slices {trailing : List ℕ} {rs : List (Tensor α)}
    (hrs : List.Forall₂ (fun part r => part.trace.Carries trailing r) parts rs) :
    ((parts.zip rs).mapM fun (p, r) => p.slices trailing r) =
      .ok (rs.map fun r => (List.range (Tensor.volume trailing)).map (r.slice trailing)) := by
  induction hrs with
  | nil => rfl
  | @cons part r parts rs hr _ ih =>
    obtain ⟨lead, hlead, hr⟩ := hr
    have hslices : part.slices trailing r =
        .ok ((List.range (Tensor.volume trailing)).map (r.slice trailing)) := by
      unfold Splitting.Part.slices
      rw [hlead, ok_bind, splitTrailing_eq hr, ok_bind]
      dsimp only
      rw [if_neg (not_not.mpr rfl)]
      rfl
    rw [List.zip_cons_cons, List.mapM_cons]
    dsimp only
    rw [hslices, ih]
    rfl

theorem filterMap_slices {trailing : List ℕ} (rs : List (Tensor α)) {j : ℕ}
    (hj : j < Tensor.volume trailing) :
    (rs.map fun r => (List.range (Tensor.volume trailing)).map (r.slice trailing)).filterMap
      (·[j]?) = rs.map (·.slice trailing j) := by
  rw [List.filterMap_map, ← List.filterMap_eq_map]
  refine List.filterMap_congr fun r _ => ?_
  simp [hj]

/-- Slices are folded each by itself, and joined to the result. -/
theorem fold_slices (hne : parts ≠ []) {trailing : List ℕ} {rs : List (Tensor α)} {shape : List ℕ}
    (hshape : t.outputShape = .ok shape)
    (hrs : List.Forall₂ (fun part r => part.trace.Carries trailing r) parts rs)
    {f : ℕ → Tensor α} (hf : ∀ j < Tensor.volume trailing,
      Splitting.recombine t parts (rs.map (·.slice trailing j)) = .ok (f j) ∧
        (f j).shape = shape) :
    ∃ T, Splitting.fold t parts rs = .ok T ∧ T.shape = shape ++ trailing ∧
      ∀ j < Tensor.volume trailing, T.slice trailing j = f j := by
  by_cases hnil : trailing = []
  -- There is one slice, the tensor itself.
  · subst hnil
    obtain ⟨hrecombine, hown⟩ := hf 0 Nat.one_pos
    have hslices : rs.map (·.slice [] 0) = rs := by simp [slice_nil]
    refine ⟨f 0, ?_, by rw [hown, List.append_nil], fun j hj => ?_⟩
    · have hfold := fold_eq_recombine (t := t) (outputShape_slices hrs 0)
      rw [hslices] at hfold hrecombine
      exact hfold.trans hrecombine
    · obtain rfl : j = 0 := Nat.lt_one_iff.mp hj
      exact slice_nil _
  · have htrailing := trailingShape_eq hne hrs
    have hempty : trailing.isEmpty = false := by simpa using hnil
    unfold Splitting.fold
    rw [htrailing, ok_bind, hempty, if_neg Bool.false_ne_true, mapM_slices hrs, ok_bind]
    dsimp only
    by_cases hzero : Tensor.volume trailing = 0
    · rw [if_pos hzero, hshape]
      exact ⟨_, rfl, rfl, fun j hj => by omega⟩
    · rw [if_neg hzero]
      have hcombined : ((List.range (Tensor.volume trailing)).mapM fun i =>
          Splitting.recombine t parts ((rs.map fun r =>
            (List.range (Tensor.volume trailing)).map (r.slice trailing)).filterMap (·[i]?))) =
          .ok ((List.range (Tensor.volume trailing)).map f) := by
        refine mapM_ok fun j hj => ?_
        have hj := List.mem_range.mp hj
        rw [filterMap_slices rs hj]
        exact (hf j hj).1
      obtain ⟨T, hjoin, hT, hslices⟩ := joinTrailing_eq (Nat.pos_of_ne_zero hzero)
        fun j hj => (hf j hj).2
      exact ⟨T, by rw [hcombined]; exact hjoin, hT, hslices⟩

/-- A plan whose parts measure all shares folds results slice by slice. -/
theorem foldsSlices_parts (hvalid : t.Valid) (hterms : ∀ m ∈ t.measurements, m.HasTerms)
    (hshared : t.Shared shares) (hparts : t.Distributes shares parts) {shape : List ℕ}
    (hshape : t.outputShape = .ok shape) :
    (Plan.mk (parts.map (·.trace)) (Splitting.fold t parts)).FoldsSlices t := by
  intro trailing rs hrs
  have hcount : rs.length = (parts.map (·.trace)).length := hrs.length_eq.symm
  rw [List.forall₂_map_left_iff] at hrs
  obtain ⟨part, hpart⟩ := exists_part hvalid hterms hshared hparts
  have hrecombine := fun j =>
    recombine_shape hterms hshared hparts hshape (outputShape_slices hrs j)
  choose f hf using hrecombine
  obtain ⟨T, hfold, hT, hslices⟩ :=
    fold_slices (List.ne_nil_of_mem hpart) hshape hrs fun j _ => hf j
  refine ⟨T, (combine_of_length hcount).trans hfold, ⟨shape, hshape, hT⟩, fun j hj => ?_⟩
  rw [combine_of_length (by rw [List.length_map]; exact hcount), hslices j hj]
  exact (fold_eq_recombine (outputShape_slices hrs j)).trans (hf j).1

end Recombination

/-! ## Splittings -/

/-- The plan of the trace itself folds its only result. -/
theorem foldsSlices_identity [Zero α] (t : Trace α) : (Plan.identity t).FoldsSlices t := by
  intro trailing rs hrs
  obtain ⟨r, rest, hr, hrest, rfl⟩ := List.forall₂_cons_left_iff.mp hrs
  obtain rfl := List.forall₂_nil_left_iff.mp hrest
  exact ⟨r, rfl, hr, fun j _ => rfl⟩

section Splittings

variable [Scalar α] {t : Trace α} {p : Plan α} {shape : List ℕ}

end Splittings

/-! ## Two batches and one trailing dimension -/

theorem wires_of_two_terms :
    (Hamiltonian.mk [((2 : ℝ), .single 0 .Z), (1, .single 0 .X)]).wires = [0] := by
  have hsorted : ([0, 0] : List ℕ).mergeSort = [0, 0] := by simp [List.mergeSort]
  exact congrArg List.eraseReps hsorted

end Proofs

end CircuitGrad
