import CircuitGrad.Proofs.Packed

/-! # Results by batches of shots

    Under several batches of shots the output of a trace is the stack of the
    packed results of each batch, and all batches are packed to one shape.
    What is unpacked from a tensor of the output's shape has the shapes of the
    measurements in every batch and the data of the tensor
    (`unpackResult_shapes`), and results of these shapes are packed to a
    tensor of the output's shape with their data (`packResults_shape`).
-/

namespace CircuitGrad

/-- Result shapes of the measurements, batch by batch. -/
def Trace.batchShapes {α : Type} (t : Trace α) : Except Error (List (List (List ℕ))) :=
  t.shots.batches.mapM t.measurementShapes

namespace Proofs

/-- The data of results, batch by batch and in each measurement by measurement. -/
def batchData {α : Type} (rs : List (List (Tensor α))) : List α :=
  rs.flatMap fun r => r.flatMap (·.data.toList)

variable {α : Type} {t : Trace α} {shape own : List ℕ} {shapes : List (List (List ℕ))}

theorem shape_of_packing {batch : Option ℕ} {p : Packing} (h : t.packing batch = .ok p) :
    ∃ shapes, t.measurementShapes batch = .ok shapes ∧ p = .ofShapes shapes := by
  obtain ⟨shapes, hshapes, h⟩ := bind_eq_ok h
  exact ⟨shapes, hshapes, (Except.ok.inj h).symm⟩

/-- Batches that pass the comparison are packed to the same shape. -/
theorem batches_of_compare {batches : List (Option ℕ)} {u : PUnit}
    (h : (forIn batches PUnit.unit fun batch _ => do
      let p ← t.packing batch
      if p.shape ≠ own then do
        ShapeFault.unevenShotBatches.error
        pure (.yield PUnit.unit)
      else pure (.yield PUnit.unit) : Except Error PUnit) = .ok u) :
    ∃ shapes, batches.mapM t.measurementShapes = .ok shapes ∧
      ∀ s ∈ shapes, (Packing.ofShapes s).shape = own := by
  induction batches with
  | nil => exact ⟨[], rfl, by simp⟩
  | cons batch batches ih =>
    rw [List.forIn_cons] at h
    obtain ⟨step, hstep, h⟩ := bind_eq_ok h
    obtain ⟨p, hp, hstep⟩ := bind_eq_ok hstep
    by_cases hshape : p.shape = own
    · rw [if_neg (not_not.mpr hshape)] at hstep
      obtain rfl := Except.ok.inj hstep
      obtain ⟨first, hfirst, rfl⟩ := shape_of_packing hp
      obtain ⟨rest, hrest, hall⟩ := ih h
      refine ⟨first :: rest, ?_, List.forall_mem_cons.mpr ⟨hshape, hall⟩⟩
      rw [List.mapM_cons, hfirst, hrest]
      rfl
    · rw [if_pos hshape] at hstep
      cases hstep

/-- The output of one batch is its packed result, and several batches are
    stacked. -/
theorem batchShapes_of_outputShape (h : t.outputShape = .ok shape) :
    ∃ shapes own, t.batchShapes = .ok shapes ∧
      (∀ s ∈ shapes, (Packing.ofShapes s).shape = own) ∧
      ((shapes.length = 1 ∧ shape = own) ∨
        (1 < shapes.length ∧ shape = shapes.length :: own)) := by
  unfold Trace.outputShape at h
  unfold Trace.batchShapes
  split at h
  · cases h
  · next batch hbatches =>
    obtain ⟨p, hp, h⟩ := bind_eq_ok h
    obtain ⟨first, hfirst, rfl⟩ := shape_of_packing hp
    refine ⟨[first], _, ?_, by simp, .inl ⟨rfl, (Except.ok.inj h).symm⟩⟩
    rw [hbatches, List.mapM_cons, hfirst]
    rfl
  · next first rest hrest hbatches =>
    obtain ⟨p, hp, h⟩ := bind_eq_ok h
    obtain ⟨u, hcompare, h⟩ := bind_eq_ok h
    obtain ⟨firstShapes, hfirst, rfl⟩ := shape_of_packing hp
    obtain ⟨restShapes, hrestShapes, hall⟩ := batches_of_compare hcompare
    have hlength := length_of_mapM hrestShapes
    have hpos : 0 < rest.length := List.length_pos_iff.mpr hrest
    refine ⟨firstShapes :: restShapes, _, ?_, List.forall_mem_cons.mpr ⟨rfl, hall⟩, .inr ⟨?_, ?_⟩⟩
    · rw [hbatches, List.mapM_cons, hfirst, hrestShapes]
      rfl
    · rw [List.length_cons]
      omega
    · rw [List.length_cons, hlength]
      exact (Except.ok.inj h).symm

/-! ## Unpacking -/

section Unpacking

variable [Zero α]

/-- Each batch is unpacked from a part of its own. -/
theorem unpack_batches {batches : List (Option ℕ)} {parts : List (Tensor α)}
    (hshapes : batches.mapM t.measurementShapes = .ok shapes)
    (hlength : parts.length = batches.length) (hparts : ∀ part ∈ parts, part.shape = own)
    (hown : ∀ s ∈ shapes, (Packing.ofShapes s).shape = own) :
    ∃ rs, ((parts.zip batches).mapM fun (part, shots) => do (← t.packing shots).unpack part) =
        .ok rs ∧ rs.map (fun r => r.map (·.shape)) = shapes ∧
      batchData rs = parts.flatMap (·.data.toList) := by
  induction batches generalizing parts shapes with
  | nil =>
    cases hshapes
    obtain rfl := List.eq_nil_of_length_eq_zero hlength
    exact ⟨[], rfl, rfl, rfl⟩
  | cons batch batches ih =>
    obtain ⟨part, parts, rfl⟩ := List.exists_cons_of_length_eq_add_one hlength
    obtain ⟨first, rest, hfirst, hrest, rfl⟩ := mapM_cons_eq_ok hshapes
    obtain ⟨hpart, hparts⟩ := List.forall_mem_cons.mp hparts
    obtain ⟨hownFirst, hown⟩ := List.forall_mem_cons.mp hown
    obtain ⟨rs, hunpack, hrs, hdata⟩ := unpack_ofShapes (hpart.trans hownFirst.symm)
    obtain ⟨rss, hunpacks, hrss, hrest⟩ := ih hrest (Nat.succ.inj hlength) hparts hown
    refine ⟨rs :: rss, ?_, by rw [List.map_cons, hrs, hrss], ?_⟩
    · rw [List.zip_cons_cons, List.mapM_cons]
      simp only [packing_of_shapes hfirst, ok_bind, hunpack, hunpacks]
      rfl
    · rw [batchData, List.flatMap_cons, hdata, List.flatMap_cons, ← hrest]
      rfl

/-- What a tensor of the output's shape is taken apart to. -/
theorem unpackResult_shapes (h : t.outputShape = .ok shape) (hshapes : t.batchShapes = .ok shapes)
    {T : Tensor α} (hT : T.shape = shape) :
    ∃ rs, t.unpackResult T = .ok rs ∧ rs.map (fun r => r.map (·.shape)) = shapes ∧
      batchData rs = T.data.toList := by
  obtain ⟨shapes', own, hshapes', hown, hlead⟩ := batchShapes_of_outputShape h
  obtain rfl : shapes = shapes' := Except.ok.inj (hshapes.symm.trans hshapes')
  have hlength : shapes.length = t.shots.batches.length := length_of_mapM hshapes
  -- One batch is the tensor itself, and several stand along its leading dimension.
  have hparts : ∃ parts, (if t.shots.batches.length = 1 then pure [T] else T.unstack) =
      Except.ok parts ∧ parts.length = t.shots.batches.length ∧
        (∀ part ∈ parts, part.shape = own) ∧ parts.flatMap (·.data.toList) = T.data.toList := by
    rcases hlead with ⟨hone, rfl⟩ | ⟨hmany, rfl⟩
    · rw [if_pos (hlength ▸ hone)]
      exact ⟨[T], rfl, by simpa using (hlength ▸ hone).symm, by simpa using hT, by simp⟩
    · rw [if_neg (by omega)]
      obtain ⟨parts, hunstack, hmap, hdata⟩ := unstack_eq hT
      have hcount := congrArg List.length hmap
      rw [List.length_map, List.length_replicate] at hcount
      refine ⟨parts, hunstack, hcount.trans hlength, ?_, hdata⟩
      intro part hpart
      have hmem := List.mem_map_of_mem (f := (·.shape)) hpart
      rw [hmap] at hmem
      exact (List.mem_replicate.mp hmem).2
  obtain ⟨parts, hsplit, hcount, hall, hparts⟩ := hparts
  obtain ⟨rs, hrs, hmap, hdata⟩ := unpack_batches hshapes hcount hall hown
  refine ⟨rs, ?_, hmap, hdata.trans hparts⟩
  unfold Trace.unpackResult
  rw [h, ok_bind, if_neg (not_not.mpr hT)]
  by_cases hone : t.shots.batches.length = 1
  · simp only [if_pos hone] at hsplit ⊢
    obtain rfl := Except.ok.inj hsplit
    exact hrs
  · simp only [if_neg hone] at hsplit ⊢
    rw [hsplit]
    exact hrs

end Unpacking

/-! ## Packing -/

section Packing

variable [Zero α]

/-- Each batch is packed by itself. -/
theorem pack_batches {batches : List (Option ℕ)} {rs : List (List (Tensor α))}
    (hshapes : batches.mapM t.measurementShapes = .ok shapes)
    (hrs : rs.map (fun r => r.map (·.shape)) = shapes)
    (hown : ∀ s ∈ shapes, (Packing.ofShapes s).shape = own) :
    ∃ parts, ((rs.zip batches).mapM fun (r, shots) => t.packBatch shots r) = .ok parts ∧
      parts.length = shapes.length ∧ (∀ part ∈ parts, part.shape = own) ∧
      parts.flatMap (·.data.toList) = batchData rs := by
  induction batches generalizing rs shapes with
  | nil =>
    cases hshapes
    obtain rfl := List.map_eq_nil_iff.mp hrs
    exact ⟨[], rfl, rfl, by simp, rfl⟩
  | cons batch batches ih =>
    obtain ⟨first, rest, hfirst, hrest, rfl⟩ := mapM_cons_eq_ok hshapes
    obtain ⟨r, rs, rfl, hr, hrs⟩ := List.map_eq_cons_iff.mp hrs
    obtain ⟨hownFirst, hown⟩ := List.forall_mem_cons.mp hown
    obtain ⟨part, hpack, hpart, hdata⟩ := packBatch_of_shapes hfirst hr
    obtain ⟨parts, hpacks, hlength, hparts, hothers⟩ := ih hrest hrs hown
    refine ⟨part :: parts, ?_, congrArg (· + 1) hlength,
      List.forall_mem_cons.mpr ⟨hpart.trans hownFirst, hparts⟩, ?_⟩
    · rw [List.zip_cons_cons, List.mapM_cons]
      simp only [hpack, hpacks]
      rfl
    · rw [List.flatMap_cons, hdata, hothers, batchData, batchData, List.flatMap_cons]

/-- Results of the shapes of the measurements are packed to a tensor of the
    output's shape. -/
theorem packResults_shape (h : t.outputShape = .ok shape) (hshapes : t.batchShapes = .ok shapes)
    {rs : List (List (Tensor α))} (hrs : rs.map (fun r => r.map (·.shape)) = shapes) :
    ∃ T, t.packResults rs = .ok T ∧ T.shape = shape ∧ T.data.toList = batchData rs := by
  obtain ⟨shapes', own, hshapes', hown, hlead⟩ := batchShapes_of_outputShape h
  obtain rfl : shapes = shapes' := Except.ok.inj (hshapes.symm.trans hshapes')
  have hlength : shapes.length = t.shots.batches.length := length_of_mapM hshapes
  have hcount : rs.length = t.shots.batches.length := by
    rw [← hlength, ← hrs, List.length_map]
  obtain ⟨parts, hpacks, hparts, hall, hdata⟩ := pack_batches hshapes hrs hown
  unfold Trace.packResults
  simp only [hcount, ne_eq, not_true, if_false, hpacks]
  rcases hlead with ⟨hone, rfl⟩ | ⟨hmany, rfl⟩
  · obtain ⟨part, rfl⟩ := List.length_eq_one_iff.mp (hparts.trans hone)
    exact ⟨part, rfl, hall part List.mem_cons_self, by simpa using hdata⟩
  · obtain ⟨first, second, rest, rfl⟩ : ∃ first second rest, parts = first :: second :: rest := by
      match parts, hparts with
      | [], hnil => simp at hnil; omega
      | [_], hone => simp at hone; omega
      | first :: second :: rest, _ => exact ⟨first, second, rest, rfl⟩
    obtain ⟨hfirst, hothers⟩ := List.forall_mem_cons.mp hall
    have hsame : ∀ part ∈ second :: rest, part.shape = first.shape := fun part hpart =>
      (hothers part hpart).trans hfirst.symm
    obtain ⟨T, hstack, hT, hstacked⟩ := stack_eq hsame
    refine ⟨T, hstack, ?_, hstacked.trans hdata⟩
    rw [hT, hfirst, ← hparts]
    rfl

end Packing

end Proofs
end CircuitGrad
