import CircuitGrad.Proofs.ShotBatches

/-! # Packing and unpacking

    Shots have at least one batch here.  Results that can be packed have the
    shapes of the measurements in every batch, whatever its layout, and what
    they are packed to has the shape of the output (`shapes_of_packResults`).
    Every layout keeps the order of the data, so unpacking and packing undo
    each other (`unpackResult_packResults_inverse`).
-/

namespace CircuitGrad

namespace Proofs

variable {α : Type} {t : Trace α} {own : List ℕ} {shapes : List (List (List ℕ))}

/-! ## Shape of the output -/

/-- Batches that are packed to the same shape pass the comparison. -/
theorem compare_of_batches {batches : List (Option ℕ)}
    (hshapes : batches.mapM t.measurementShapes = .ok shapes)
    (hown : ∀ s ∈ shapes, (Packing.ofShapes s).shape = own) :
    (forIn batches PUnit.unit fun batch _ => do
      let p ← t.packing batch
      if p.shape ≠ own then do
        ShapeFault.unevenShotBatches.error
        pure (.yield PUnit.unit)
      else pure (.yield PUnit.unit) : Except Error PUnit) = .ok ⟨⟩ := by
  induction batches generalizing shapes with
  | nil => rfl
  | cons batch batches ih =>
    obtain ⟨first, rest, hfirst, hrest, rfl⟩ := mapM_cons_eq_ok hshapes
    obtain ⟨hownFirst, hown⟩ := List.forall_mem_cons.mp hown
    rw [List.forIn_cons, packing_of_shapes hfirst, ok_bind, if_neg (not_not.mpr hownFirst)]
    exact ih hrest hown

/-- The output is that of the only batch, or has a leading dimension for the batches. -/
theorem outputShape_of_batchShapes (hshapes : t.batchShapes = .ok shapes) (hne : shapes ≠ [])
    (hown : ∀ s ∈ shapes, (Packing.ofShapes s).shape = own) :
    t.outputShape = .ok (if shapes.length = 1 then own else shapes.length :: own) := by
  unfold Trace.batchShapes at hshapes
  unfold Trace.outputShape
  split
  · next hnone =>
    rw [hnone] at hshapes
    exact absurd (Except.ok.inj hshapes).symm hne
  · next batch hone =>
    rw [hone] at hshapes
    obtain ⟨first, rest, hfirst, hrest, rfl⟩ := mapM_cons_eq_ok hshapes
    obtain rfl := Except.ok.inj hrest
    rw [packing_of_shapes hfirst, ok_bind, hown first List.mem_cons_self]
    rfl
  · next batch batches hmany hcons =>
    rw [hcons] at hshapes
    obtain ⟨first, rest, hfirst, hrest, rfl⟩ := mapM_cons_eq_ok hshapes
    obtain ⟨hownFirst, hown⟩ := List.forall_mem_cons.mp hown
    have hlength : rest.length = batches.length := length_of_mapM hrest
    have hpos : 0 < batches.length := List.length_pos_iff.mpr hmany
    rw [List.length_cons, if_neg (by omega), hlength]
    simp only [packing_of_shapes hfirst, ok_bind, hownFirst]
    have hcompare := compare_of_batches hrest hown
    exact congrArg (· >>= fun _ => Except.ok ((batches.length + 1) :: own)) hcompare

/-! ## Results that can be packed -/

/-- Results that pass the check have the given shapes. -/
theorem map_shape_of_checkResults {shapes : List (List ℕ)} {rs : List (Tensor α)}
    (h : Trace.checkResults shapes rs = .ok ()) : rs.map (·.shape) = shapes := by
  unfold Trace.checkResults at h
  split at h
  · cases h
  · next hlength =>
    rw [not_not] at hlength
    split at h
    · cases h
    · next hnone =>
      -- No pair is found that differs, so the shapes agree one by one.
      rw [List.find?_eq_none] at hnone
      refine List.ext_getElem (by rwa [List.length_map]) fun i hi hi' => ?_
      rw [List.length_map] at hi
      have hpair : (rs[i], shapes[i]) ∈ rs.zip shapes :=
        List.mem_iff_getElem.mpr ⟨i, by rw [List.length_zip]; omega, List.getElem_zip ..⟩
      simpa using hnone _ hpair

variable [Zero α]

theorem shapes_of_packBatch {batch : Option ℕ} {rs : List (Tensor α)} {T : Tensor α}
    (h : t.packBatch batch rs = .ok T) :
    ∃ shapes, t.measurementShapes batch = .ok shapes ∧ rs.map (·.shape) = shapes ∧
      T.shape = (Packing.ofShapes shapes).shape := by
  obtain ⟨shapes, hshapes, hrest⟩ := bind_eq_ok h
  obtain ⟨_, hcheck, -⟩ := bind_eq_ok hrest
  have hrs := map_shape_of_checkResults hcheck
  obtain ⟨T', hpack, hshape, -⟩ := packBatch_of_shapes hshapes hrs
  obtain rfl : T = T' := Except.ok.inj (h.symm.trans hpack)
  exact ⟨shapes, hshapes, hrs, hshape⟩

/-- Every batch that is packed has the shapes of the measurements. -/
theorem shapes_of_packBatches {batches : List (Option ℕ)} {rs : List (List (Tensor α))}
    {parts : List (Tensor α)} (hlength : rs.length = batches.length)
    (h : ((rs.zip batches).mapM fun (r, shots) => t.packBatch shots r) = .ok parts) :
    ∃ shapes, batches.mapM t.measurementShapes = .ok shapes ∧
      rs.map (fun r => r.map (·.shape)) = shapes ∧
      parts.map (·.shape) = shapes.map fun s => (Packing.ofShapes s).shape := by
  induction batches generalizing rs parts with
  | nil =>
    obtain rfl := List.eq_nil_of_length_eq_zero hlength
    obtain rfl := Except.ok.inj h
    exact ⟨[], rfl, rfl, rfl⟩
  | cons batch batches ih =>
    obtain ⟨r, rs, rfl⟩ := List.exists_cons_of_length_eq_add_one hlength
    rw [List.zip_cons_cons] at h
    obtain ⟨part, parts, hpart, hparts, rfl⟩ := mapM_cons_eq_ok h
    obtain ⟨first, hfirst, hr, hshape⟩ := shapes_of_packBatch hpart
    obtain ⟨rest, hrest, hrs, hshapes⟩ := ih (Nat.succ.inj hlength) hparts
    refine ⟨first :: rest, ?_, by rw [List.map_cons, hr, hrs],
      by rw [List.map_cons, List.map_cons, hshape, hshapes]⟩
    rw [List.mapM_cons, hfirst, hrest]
    rfl

/-- Tensors that can be stacked have one shape. -/
theorem shapes_of_stack {first : Tensor α} {rest : List (Tensor α)} {T : Tensor α}
    (h : Tensor.stack (first :: rest) = .ok T) : ∀ s ∈ first :: rest, s.shape = first.shape := by
  obtain ⟨_, hcheck, -⟩ := bind_eq_ok h
  exact shapes_of_forM hcheck

/-- Results that can be packed have the shapes of the measurements in every batch, and are
    packed to a tensor of the output's shape. -/
theorem shapes_of_packResults (hne : t.shots.batches ≠ []) {rs : List (List (Tensor α))}
    {T : Tensor α} (h : t.packResults rs = .ok T) :
    ∃ shapes, t.batchShapes = .ok shapes ∧ rs.map (fun r => r.map (·.shape)) = shapes ∧
      t.outputShape = .ok T.shape := by
  have hpacked := h
  unfold Trace.packResults at h
  dsimp only at h
  split at h
  · cases h
  next hlength =>
  rw [not_not] at hlength
  obtain ⟨parts, hparts, h⟩ := bind_eq_ok h
  obtain ⟨shapes, hshapes, hrs, hpartShapes⟩ := shapes_of_packBatches hlength hparts
  have hcount : shapes.length = t.shots.batches.length := length_of_mapM hshapes
  have hshapesNe : shapes ≠ [] := ne_nil_of_length_eq hcount hne
  -- Packed batches agree in shape: there is only one, or they were stacked.
  have hone : ∃ own, ∀ part ∈ parts, part.shape = own := by
    split at h
    · next part => exact ⟨part.shape, by simp⟩
    · cases parts with
      | nil => exact ⟨[], by simp⟩
      | cons first rest => exact ⟨first.shape, shapes_of_stack h⟩
  obtain ⟨own, hown⟩ := hone
  have hown : ∀ s ∈ shapes, (Packing.ofShapes s).shape = own := by
    intro s hs
    have hmem := List.mem_map_of_mem (f := fun s => (Packing.ofShapes s).shape) hs
    rw [← hpartShapes] at hmem
    obtain ⟨part, hpart, hshape⟩ := List.mem_map.mp hmem
    rw [← hshape, hown part hpart]
  have houtput := outputShape_of_batchShapes hshapes hshapesNe hown
  obtain ⟨T', hpack, hshape, -⟩ := packResults_shape houtput hshapes hrs
  obtain rfl : T = T' := Except.ok.inj (hpacked.symm.trans hpack)
  exact ⟨shapes, hshapes, hrs, hshape ▸ houtput⟩

/-! ## Inverse to each other -/

/-- Results are determined by their shapes and their data. -/
theorem eq_of_batchData {rs rs' : List (List (Tensor α))}
    (hshapes : rs.map (fun r => r.map (·.shape)) = rs'.map fun r => r.map (·.shape))
    (hdata : batchData rs = batchData rs') : rs = rs' := by
  induction rs generalizing rs' with
  | nil => exact (List.map_eq_nil_iff.mp hshapes.symm).symm
  | cons r rs ih =>
    obtain ⟨r', rs', rfl, hfirst, hrest⟩ := List.map_eq_cons_iff.mp hshapes.symm
    rw [batchData, batchData, List.flatMap_cons, List.flatMap_cons] at hdata
    have hlength : (r.flatMap (·.data.toList)).length = (r'.flatMap (·.data.toList)).length := by
      rw [length_flatMap_data rfl, length_flatMap_data hfirst]
    obtain ⟨hown, hothers⟩ := List.append_inj hdata hlength
    rw [eq_of_flatMap_data hfirst.symm hown, ih hrest.symm hothers]

/-- Packed results have the shape of the output, and are unpacked to what they were. -/
theorem unpackResult_of_packResults (hne : t.shots.batches ≠ []) {rs : List (List (Tensor α))}
    {T : Tensor α} (h : t.packResults rs = .ok T) :
    t.outputShape = .ok T.shape ∧ t.unpackResult T = .ok rs := by
  obtain ⟨shapes, hshapes, hrs, houtput⟩ := shapes_of_packResults hne h
  obtain ⟨T', hpack, -, hdata⟩ := packResults_shape houtput hshapes hrs
  obtain rfl : T = T' := Except.ok.inj (h.symm.trans hpack)
  obtain ⟨rs', hunpack, hrs', hdata'⟩ := unpackResult_shapes houtput hshapes rfl
  obtain rfl : rs' = rs := eq_of_batchData (hrs'.trans hrs.symm) (hdata'.trans hdata)
  exact ⟨houtput, hunpack⟩

/-- Packed results have the shape of the output and are unpacked to what they were, and every
    tensor of the output's shape is unpacked to results that are packed back to it. -/
theorem unpackResult_packResults_inverse (t : Trace α) (hne : t.shots.batches ≠ []) :
    (∀ rs T, t.packResults rs = .ok T →
      t.outputShape = .ok T.shape ∧ t.unpackResult T = .ok rs) ∧
    ∀ T : Tensor α, t.outputShape = .ok T.shape →
      ∃ rs, t.unpackResult T = .ok rs ∧ t.packResults rs = .ok T := by
  refine ⟨fun rs T hpack => unpackResult_of_packResults hne hpack, fun T houtput => ?_⟩
  obtain ⟨shapes, -, hshapes, -⟩ := batchShapes_of_outputShape houtput
  obtain ⟨rs, hunpack, hrs, hdata⟩ := unpackResult_shapes houtput hshapes rfl
  obtain ⟨T', hpack, hshape, hdata'⟩ := packResults_shape houtput hshapes hrs
  refine ⟨rs, hunpack, hpack.trans (congrArg Except.ok (Tensor.ext_entry hshape fun i _ => ?_))⟩
  rw [entry_eq_getD, entry_eq_getD, hdata', hdata]

/-- Two batches of three samples beside two probabilities: each batch is laid out flat, and
    the two are stacked. -/
theorem unpackResult_packResults_samples :
    let t : Trace ℤ := ⟨[], [⟨.sample, none, [0]⟩, .probs [0]], 1, .vector [⟨3, 2⟩], .empty⟩
    t.shots.batches ≠ [] ∧ t.outputShape = .ok [2, 5] ∧
      (∀ rs T, t.packResults rs = .ok T → t.unpackResult T = .ok rs) ∧
      ∀ T : Tensor ℤ, T.shape = [2, 5] →
        ∃ rs, t.unpackResult T = .ok rs ∧ t.packResults rs = .ok T := by
  intro t
  have hne : t.shots.batches ≠ [] := by decide
  have houtput : t.outputShape = .ok [2, 5] := by rfl
  refine ⟨hne, houtput, fun rs T h => ((unpackResult_packResults_inverse t hne).1 rs T h).2,
    fun T hT => (unpackResult_packResults_inverse t hne).2 T ?_⟩
  rw [hT, houtput]

end Proofs

end CircuitGrad
