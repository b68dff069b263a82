import CircuitGrad.Proofs.FirstOrderShape
import CircuitGrad.Proofs.Unpacking

/-! # The place of a result

    In the outputs of a trace every measurement has, under every batch of
    shots, a stretch of the data of its own, which depends on the shapes of
    the results alone (`exists_place`).  Entry by entry, what is true of
    packed results is therefore true of the result of each measurement.  A
    trace with other parameters, or with means in the place of variances, lays
    its results out in the same way (`unpackResult_meansOf`,
    `unpackResult_withParam`), and the chain rule of variances changes results
    where they stand (`chainVariance_results`).
-/

namespace CircuitGrad

/-- The result of one measurement under one batch of shots, in an output of the trace. -/
def Trace.resultAt? {α : Type} [Zero α] (t : Trace α) (r : Tensor α) (batch measurement : ℕ) :
    Option (Tensor α) :=
  match t.unpackResult r with
  | .ok rs => rs[batch]?.bind (·[measurement]?)
  | .error _ => none

namespace Proofs

variable {α : Type} {t : Trace α}

/-! ## Places -/

/-- An item of one of several lists, among the items of all of them. -/
theorem getElem?_flatten {β : Type} {xss : List (List β)} {xs : List β} {b j : ℕ}
    (hxs : xss[b]? = some xs) (hj : j < xs.length) :
    xss.flatten[((xss.take b).map List.length).sum + j]? = xs[j]? := by
  induction xss generalizing b with
  | nil => cases hxs
  | cons first rest ih =>
    rw [List.flatten_cons]
    cases b with
    | zero =>
      obtain rfl : first = xs := Option.some.inj hxs
      rw [List.take_zero, List.map_nil, List.sum_nil, Nat.zero_add, List.getElem?_append_left hj]
    | succ b =>
      -- Past the first list the item is one of the others.
      rw [List.take_succ_cons, List.map_cons, List.sum_cons, Nat.add_assoc,
        List.getElem?_append_right (by omega), Nat.add_sub_cancel_left]
      exact ih hxs

/-- In the data of tensors of given shapes, one after the other, each of them has a place. -/
theorem exists_offset (α : Type) [Zero α] {shapes : List (List ℕ)} {own : List ℕ} {j : ℕ}
    (h : shapes[j]? = some own) :
    ∃ offset, offset + Tensor.volume own ≤ (shapes.map Tensor.volume).sum ∧
      ∀ rs : List (Tensor α), rs.map (·.shape) = shapes → ∃ x, rs[j]? = some x ∧ x.shape = own ∧
        ∀ o < Tensor.volume own, x.entry o = (rs.flatMap (·.data.toList)).getD (offset + o) 0 := by
  induction shapes generalizing j with
  | nil => cases h
  | cons first rest ih =>
    rw [List.map_cons, List.sum_cons]
    cases j with
    | zero =>
      obtain rfl : first = own := Option.some.inj h
      refine ⟨0, by omega, fun rs hrs => ?_⟩
      obtain ⟨x, rs, rfl, hx, -⟩ := List.map_eq_cons_iff.mp hrs
      refine ⟨x, rfl, hx, fun o ho => ?_⟩
      rw [Nat.zero_add, getD_data_cons, hx, if_pos ho]
    | succ j =>
      obtain ⟨offset, hbound, hplace⟩ := ih h
      refine ⟨Tensor.volume first + offset, by omega, fun rs hrs => ?_⟩
      obtain ⟨r, rs, rfl, hr, hrs⟩ := List.map_eq_cons_iff.mp hrs
      obtain ⟨x, hx, hshape, hentry⟩ := hplace rs hrs
      refine ⟨x, hx, hshape, fun o ho => ?_⟩
      rw [getD_data_cons, hr, if_neg (by omega), hentry o ho, Nat.add_assoc,
        Nat.add_sub_cancel_left]

section Results

variable [Zero α] {T : Tensor α} {rs : List (List (Tensor α))}

theorem resultAt?_eq (h : t.unpackResult T = .ok rs) (b j : ℕ) :
    t.resultAt? T b j = rs[b]?.bind (·[j]?) := by
  unfold Trace.resultAt?
  rw [h]

/-- Batches and measurements counted through, as the data of an output is. -/
theorem unpackResult_flatten {shape : List ℕ} {shapes : List (List (List ℕ))}
    (h : t.outputShape = .ok shape) (hshapes : t.batchShapes = .ok shapes) (hT : T.shape = shape) :
    ∃ rs, t.unpackResult T = .ok rs ∧ rs.map (fun r => r.map (·.shape)) = shapes ∧
      rs.flatten.map (·.shape) = shapes.flatten ∧
      rs.flatten.flatMap (·.data.toList) = T.data.toList := by
  obtain ⟨rs, hrs, hmap, hdata⟩ := unpackResult_shapes h hshapes hT
  refine ⟨rs, hrs, hmap, by rw [List.map_flatten, hmap], ?_⟩
  rw [← hdata, batchData, List.flatMap_def, List.map_flatten, List.flatten_flatten, List.map_map]
  rfl

/-- The result of a measurement under a batch of shots is a stretch of the output's data, the
    same stretch in every output. -/
theorem exists_place {shape : List ℕ} (h : t.outputShape = .ok shape) {b j : ℕ}
    {shots : Option ℕ} (hshots : t.shots.batches[b]? = some shots) {m : Measurement α}
    (hm : t.measurements[j]? = some m) :
    ∃ own offset, m.outputShape t.register shots = .ok own ∧
      offset + Tensor.volume own ≤ Tensor.volume shape ∧
      ∀ T : Tensor α, T.shape = shape → ∃ x, t.resultAt? T b j = some x ∧ x.shape = own ∧
        ∀ o < Tensor.volume own, x.entry o = T.entry (offset + o) := by
  obtain ⟨shapes, -, hshapes, -⟩ := batchShapes_of_outputShape h
  obtain ⟨ss, hss, hmeasured⟩ :=
    getElem?_of_forall₂ (forall₂_of_mapM (fun _ _ _ => id) hshapes) hshots
  obtain ⟨own, hown, hshape⟩ :=
    getElem?_of_forall₂ (forall₂_of_mapM (fun _ _ _ => id) hmeasured) hm
  have hj : j < ss.length := (List.getElem?_eq_some_iff.mp hown).1
  obtain ⟨offset, hbound, hplace⟩ := exists_offset α ((getElem?_flatten hss hj).trans hown)
  have hvolume : (shapes.flatten.map Tensor.volume).sum = Tensor.volume shape := by
    obtain ⟨rs, -, -, hmap, hdata⟩ :=
      unpackResult_flatten h hshapes (Tensor.shape_ofFn shape fun _ => (0 : α))
    rw [← length_flatMap_data hmap, hdata, length_data, Tensor.shape_ofFn]
  refine ⟨own, offset, hshape, hvolume ▸ hbound, fun T hT => ?_⟩
  obtain ⟨rs, hrs, hshapesOf, hmap, hdata⟩ := unpackResult_flatten h hshapes hT
  obtain ⟨x, hx, hxshape, hentry⟩ := hplace rs.flatten hmap
  refine ⟨x, ?_, hxshape, fun o ho => by rw [hentry o ho, hdata, ← entry_eq_getD]⟩
  -- The batch of the result is as long as that of the shapes, and so are those before it.
  subst hshapesOf
  rw [List.getElem?_map] at hss
  obtain ⟨r, hr, rfl⟩ := Option.map_eq_some_iff.mp hss
  rw [List.length_map] at hj
  rw [← List.map_take, List.map_map, Function.comp_def] at hx
  simp only [List.length_map] at hx
  rw [resultAt?_eq hrs, hr, Option.bind_some, ← getElem?_flatten hr hj]
  exact hx

end Results

/-! ## Traces of one layout -/

theorem unpackResult_meansOf [Zero α] (t : Trace α) :
    (meansOf t).unpackResult = t.unpackResult := by
  have hshots : (meansOf t).shots = t.shots := rfl
  funext r
  unfold Trace.unpackResult Trace.packing
  simp only [measurementShapes_meansOf, outputShape_meansOf, hshots]

theorem resultAt?_meansOf [Zero α] (t : Trace α) : (meansOf t).resultAt? = t.resultAt? := by
  funext r b j
  unfold Trace.resultAt?
  rw [unpackResult_meansOf]

/-- The value of a parameter does not enter the layout of results. -/
theorem unpackResult_withParam [Zero α] {u : Trace α} {i : ℕ} {y : α}
    (h : t.withParam i y = .ok u) : u.unpackResult = t.unpackResult := by
  unfold Trace.withParam at h
  split at h
  · cases h
  · obtain rfl := Except.ok.inj h
    rfl

/-! ## The chain rule of variances -/

section Chained

variable [Scalar α] {base : Trace α} {shape : List ℕ} {mean d : Tensor α}

/-- Every result stays in its place, and is chained there if it is the one of a variance. -/
theorem chainVariance_results (vs : List ℕ) (h : base.outputShape = .ok shape)
    (hmean : mean.shape = shape) (hd : d.shape = shape) :
    ∃ T, ParameterShift.chainVariance base vs mean d = .ok T ∧ T.shape = shape ∧
      ∀ b j x y, base.resultAt? d b j = some x → base.resultAt? mean b j = some y →
        ∃ z, base.resultAt? T b j = some z ∧
          (if vs.contains j then (do return (← x.mul y).scale (-2.0) : Except Error (Tensor α))
            else return x) = .ok z := by
  obtain ⟨shapes, -, hshapes, -⟩ := batchShapes_of_outputShape h
  obtain ⟨dss, hunpackD, hdss, -⟩ := unpackResult_shapes h hshapes hd
  obtain ⟨mss, hunpackM, hmss, -⟩ := unpackResult_shapes h hshapes hmean
  obtain ⟨css, hchained, hcss⟩ := chained_batches vs (hdss.trans hmss.symm)
  obtain ⟨T, hpack, hT, hdata⟩ := packResults_shape h hshapes (hcss.trans hdss)
  obtain ⟨css', hunpack, hcss', hdata'⟩ := unpackResult_shapes h hshapes hT
  obtain rfl : css' = css :=
    eq_of_batchData (hcss'.trans (hcss.trans hdss).symm) (hdata'.trans hdata)
  refine ⟨T, ?_, hT, fun b j x y hx hy => ?_⟩
  · unfold ParameterShift.chainVariance
    rw [hunpackD, ok_bind, hunpackM, ok_bind]
    simp only [hchained]
    exact hpack
  · rw [resultAt?_eq hunpackD] at hx
    rw [resultAt?_eq hunpackM] at hy
    obtain ⟨ds, hds, hx⟩ := Option.bind_eq_some_iff.mp hx
    obtain ⟨ms, hms, hy⟩ := Option.bind_eq_some_iff.mp hy
    -- The batches are chained side by side, and in each batch the measurements.
    obtain ⟨cs, hcs, hbatch⟩ := getElem?_of_forall₂ (forall₂_of_mapM (fun _ _ _ => id) hchained)
      (List.getElem?_zip_eq_some (z := (ds, ms)) |>.mpr ⟨hds, hms⟩)
    have hzip : ((ds.zip ms).zipIdx)[j]? = some ((x, y), j) := by
      rw [List.getElem?_zipIdx, List.getElem?_zip_eq_some (z := (x, y)) |>.mpr ⟨hx, hy⟩,
        Option.map_some, Nat.zero_add]
    obtain ⟨z, hz, hone⟩ := getElem?_of_forall₂ (forall₂_of_mapM (fun _ _ _ => id) hbatch) hzip
    exact ⟨z, by rw [resultAt?_eq hunpack, hcs, Option.bind_some, hz], hone⟩

end Chained

end Proofs

end CircuitGrad
