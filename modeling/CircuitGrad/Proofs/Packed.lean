import Mathlib
import CircuitGrad.Proofs.RealScalar
import CircuitGrad.Proofs.Steps
import CircuitGrad.Trace.Packing

/-! # Layout of packed results

    In every layout the data of a packed tensor is the data of its parts, one
    after the other (`pack_ofShapes`), and a tensor of the shape of the layout
    can be taken apart again (`unpack_ofShapes`).  For a trace that is
    evaluated exactly this is what packing and unpacking its results do, and
    unpacking undoes packing (`unpack_packResults`).
-/

namespace CircuitGrad

namespace Proofs

/-! ## Entries -/

variable {α : Type}

theorem entry_eq_getD [Zero α] (t : Tensor α) (i : ℕ) : t.entry i = t.data.toList.getD i 0 := by
  unfold Tensor.entry
  rw [Array.getD_eq_getD_getElem?, List.getD_eq_getElem?_getD, Array.getElem?_toList]

theorem length_data (t : Tensor α) : t.data.toList.length = Tensor.volume t.shape := t.size_eq

theorem data_ofFn (shape : List ℕ) (f : ℕ → α) :
    (Tensor.ofFn shape f).data.toList = (List.range (Tensor.volume shape)).map f := by
  unfold Tensor.ofFn
  rw [Array.toList_ofFn]
  refine List.ext_getElem (by simp) fun i _ _ => ?_
  rw [List.getElem_ofFn, List.getElem_map, List.getElem_range]

/-- A position in the data of tensors, one after the other. -/
theorem getD_data_cons [Zero α] (t : Tensor α) (ts : List (Tensor α)) (o : ℕ) :
    ((t :: ts).flatMap (·.data.toList)).getD o 0 =
      if o < Tensor.volume t.shape then t.entry o
      else (ts.flatMap (·.data.toList)).getD (o - Tensor.volume t.shape) 0 := by
  have hlength := length_data t
  rw [List.flatMap_cons]
  by_cases ho : o < Tensor.volume t.shape
  · rw [if_pos ho, List.getD_append _ _ _ _ (by omega), entry_eq_getD]
  · rw [if_neg ho, List.getD_append_right _ _ _ _ (by omega), hlength]

/-- A position in lists of equal length, one after the other. -/
theorem getD_flatten_uniform [Zero α] {k : ℕ} {ls : List (List α)} (h : ∀ l ∈ ls, l.length = k)
    {p : ℕ} (hp : p < ls.length * k) :
    ls.flatten.getD p 0 = (ls.getD (p / k) []).getD (p % k) 0 := by
  have hk : 0 < k := Nat.pos_of_lt_mul_left hp
  induction ls generalizing p with
  | nil => simp at hp
  | cons l ls ih =>
    obtain ⟨hl, hls⟩ := List.forall_mem_cons.mp h
    rw [List.flatten_cons]
    by_cases hlt : p < k
    · rw [List.getD_append _ _ _ _ (by omega), Nat.div_eq_of_lt hlt, Nat.mod_eq_of_lt hlt,
        List.getD_cons_zero]
    -- Past the first list, both sides go on in the others.
    · have hp' : p - k < ls.length * k := by
        rw [List.length_cons, Nat.succ_mul] at hp
        omega
      have hdiv : p / k = (p - k) / k + 1 := by
        rw [← Nat.add_div_right _ hk, Nat.sub_add_cancel (by omega)]
      have hmod : p % k = (p - k) % k := by
        conv_lhs => rw [show p = p - k + k by omega, Nat.add_mod_right]
      rw [List.getD_append_right _ _ _ _ (by omega), hl, ih hls hp', hdiv, hmod,
        List.getD_cons_succ]

/-- A position in rows of length `m` lies in its own row. -/
theorem row_add_lt {o rows i m : ℕ} (ho : o < rows) (hi : i < m) : o * m + i < rows * m := by
  have hstep : (o + 1) * m ≤ rows * m := Nat.mul_le_mul_right m ho
  rw [Nat.succ_mul] at hstep
  omega

theorem row_add_div {o i m : ℕ} (hi : i < m) : (o * m + i) / m = o := by
  have hm : 0 < m := by omega
  rw [Nat.mul_comm, Nat.mul_add_div hm, Nat.div_eq_of_lt hi, Nat.add_zero]

theorem row_add_mod {o i m : ℕ} (hi : i < m) : (o * m + i) % m = i := by
  rw [Nat.mul_comm, Nat.mul_add_mod, Nat.mod_eq_of_lt hi]

/-- Lists of equal length are determined by their entries. -/
theorem eq_of_getD [Zero α] {xs ys : List α} (hlength : xs.length = ys.length)
    (h : ∀ p < xs.length, xs.getD p 0 = ys.getD p 0) : xs = ys := by
  refine List.ext_getElem hlength fun p hx hy => ?_
  have hp := h p hx
  rwa [List.getD_eq_getElem _ _ hx, List.getD_eq_getElem _ _ hy] at hp

theorem length_flatten_uniform {k : ℕ} {ls : List (List α)} (h : ∀ l ∈ ls, l.length = k) :
    ls.flatten.length = ls.length * k := by
  rw [List.length_flatten, List.map_congr_left h, List.map_const', List.sum_replicate, smul_eq_mul]

/-! ## Tensors of one shape -/

theorem forM_checkShape {context : String} {shape : List ℕ} {ts : List (Tensor α)}
    (h : ∀ t ∈ ts, t.shape = shape) :
    (ts.forM fun t => Tensor.checkShape context shape t.shape) = .ok () :=
  forM_eq_ok_iff.mpr fun t ht => if_pos (h t ht).symm

/-- Tensors that pass the comparison have one shape. -/
theorem shapes_of_forM {context : String} {shape : List ℕ} {ts : List (Tensor α)}
    (h : (ts.forM fun t => Tensor.checkShape context shape t.shape) = .ok ()) :
    ∀ t ∈ ts, t.shape = shape := by
  intro t ht
  have hcheck := forM_eq_ok_iff.mp h t ht
  unfold Tensor.checkShape at hcheck
  split at hcheck
  · next heq => exact heq.symm
  · cases hcheck

theorem foldl_add_eq_sum {ι : Type} (items : List ι) (f : ι → ℝ) :
    items.foldl (fun acc e => acc + f e) 0 = (items.map f).sum := by
  rw [List.sum_eq_foldl, List.foldl_map]

/-- Weighted sums, entry by entry. -/
theorem linearCombination_eq {ι : Type} {items : List ι} (hitems : items ≠ []) {shape : List ℕ}
    {coefficient : ι → ℝ} {tensor : ι → Tensor ℝ} (h : ∀ i ∈ items, (tensor i).shape = shape) :
    Tensor.linearCombination (items.map coefficient) (items.map tensor) =
      .ok (.ofFn shape fun o => (items.map fun i => coefficient i * (tensor i).entry o).sum) := by
  obtain ⟨first, rest, rfl⟩ := List.exists_cons_of_ne_nil hitems
  obtain ⟨hfirst, -⟩ := List.forall_mem_cons.mp h
  have hall : ∀ t ∈ (first :: rest).map tensor, t.shape = shape := List.forall_mem_map.mpr h
  have hentry : ∀ o, (((first :: rest).map coefficient).zip ((first :: rest).map tensor)).foldl
      (fun acc (c, t) => acc + c * t.entry o) 0 =
      ((first :: rest).map fun i => coefficient i * (tensor i).entry o).sum := by
    intro o
    rw [List.zip_map', foldl_add_eq_sum _ fun e : ℝ × Tensor ℝ => e.1 * e.2.entry o, List.map_map]
    rfl
  unfold Tensor.linearCombination
  rw [if_neg (by simp)]
  simp only [List.map_cons] at hall hentry ⊢
  simp only [hfirst, forM_checkShape hall, hentry]
  rfl

theorem linearCombination_shape [Zero α] [Add α] [Mul α] {cs : List α} {ts : List (Tensor α)}
    {shape : List ℕ} (hlength : cs.length = ts.length) (hne : ts ≠ [])
    (h : ∀ t ∈ ts, t.shape = shape) :
    ∃ T, Tensor.linearCombination cs ts = .ok T ∧ T.shape = shape := by
  obtain ⟨first, rest, rfl⟩ := List.exists_cons_of_ne_nil hne
  have hfirst := h first List.mem_cons_self
  unfold Tensor.linearCombination
  rw [if_neg (not_not.mpr hlength)]
  simp only [hfirst, forM_checkShape h]
  exact ⟨_, rfl, rfl⟩

theorem stack_eq [Zero α] {t : Tensor α} {ts : List (Tensor α)} (h : ∀ s ∈ ts, s.shape = t.shape) :
    ∃ T, Tensor.stack (t :: ts) = .ok T ∧ T.shape = (ts.length + 1) :: t.shape ∧
      T.data.toList = (t :: ts).flatMap (·.data.toList) := by
  have hall : ∀ s ∈ t :: ts, s.shape = t.shape := List.forall_mem_cons.mpr ⟨rfl, h⟩
  have hlengths : ∀ l ∈ (t :: ts).map (·.data.toList), l.length = Tensor.volume t.shape := by
    intro l hl
    obtain ⟨s, hs, rfl⟩ := List.mem_map.mp hl
    rw [length_data, hall s hs]
  refine ⟨.ofFn ((t :: ts).toArray.size :: t.shape) fun p =>
    ((t :: ts).toArray.getD (p / Tensor.volume t.shape) t).entry (p % Tensor.volume t.shape),
    ?_, by simp, ?_⟩
  · unfold Tensor.stack
    simp only [forM_checkShape hall]
    rfl
  · rw [data_ofFn, List.flatMap_def]
    refine eq_of_getD ?_ fun p hp => ?_
    · rw [length_flatten_uniform hlengths]
      simp
    · rw [List.length_map, List.length_range] at hp
      -- Position `p` is position `p % V` of tensor `p / V`, both here and there.
      have hp' : p < ((t :: ts).map (·.data.toList)).length * Tensor.volume t.shape := by
        simpa using hp
      have hdiv : p / Tensor.volume t.shape < (t :: ts).length := by
        rw [List.length_map] at hp'
        exact Nat.div_lt_of_lt_mul (Nat.mul_comm _ _ ▸ hp')
      rw [getD_flatten_uniform hlengths hp', List.getD_eq_getElem _ _ (by simpa using hp),
        List.getElem_map, List.getElem_range, entry_eq_getD, Array.getD_eq_getD_getElem?,
        List.getElem?_toArray, List.getElem?_eq_getElem hdiv,
        List.getD_eq_getElem _ [] (by rwa [List.length_map]), List.getElem_map]
      rfl

/-- Tensors are stacked along a new last dimension, whose index is the tensor. -/
theorem stackTrailing_eq [Zero α] {ts : List (Tensor α)} (hne : ts ≠ []) {shape : List ℕ}
    (h : ∀ t ∈ ts, t.shape = shape) :
    ∃ T, Tensor.stackTrailing ts = .ok T ∧ T.shape = shape ++ [ts.length] ∧
      ∀ o < Tensor.volume shape, ∀ i t, ts[i]? = some t →
        T.entry (o * ts.length + i) = t.entry o := by
  obtain ⟨first, rest, rfl⟩ := List.exists_cons_of_ne_nil hne
  have hfirst : first.shape = shape := h first List.mem_cons_self
  refine ⟨.ofFn (shape ++ [(first :: rest).toArray.size]) fun p =>
    ((first :: rest).toArray.getD (p % (first :: rest).toArray.size) first).entry
      (p / (first :: rest).toArray.size), ?_, rfl, ?_⟩
  · unfold Tensor.stackTrailing
    simp only [hfirst, forM_checkShape h]
    rfl
  · intro o ho i t ht
    have hi : i < (first :: rest).length := (List.getElem?_eq_some_iff.mp ht).1
    have hlt : o * (first :: rest).length + i <
        Tensor.volume (shape ++ [(first :: rest).length]) := by
      simpa [Tensor.volume_append] using row_add_lt ho hi
    refine (Tensor.entry_ofFn hlt).trans ?_
    rw [List.size_toArray, row_add_div hi, row_add_mod hi, Array.getD_eq_getD_getElem?,
      List.getElem?_toArray, ht]
    rfl

theorem reshape_eq [Zero α] {t : Tensor α} {shape : List ℕ}
    (h : Tensor.volume t.shape = Tensor.volume shape) :
    ∃ T, t.reshape shape = .ok T ∧ T.shape = shape ∧ ∀ i, T.entry i = t.entry i := by
  have hsize : t.data.size = Tensor.volume shape := t.size_eq_volume.trans h
  exact ⟨⟨shape, t.data, hsize⟩, dif_pos hsize, rfl, fun i => rfl⟩

theorem foldl_append_data (ts : List (Tensor α)) (acc : Array α) :
    (ts.foldl (fun acc t => acc ++ t.data) acc).toList =
      acc.toList ++ ts.flatMap (·.data.toList) := by
  induction ts generalizing acc with
  | nil => simp
  | cons t ts ih =>
    rw [List.foldl_cons, ih, Array.toList_append, List.flatMap_cons, List.append_assoc]

theorem concat_eq [Zero α] (ts : List (Tensor α)) :
    (Tensor.concat ts).data.toList = ts.flatMap (·.data.toList) :=
  (foldl_append_data ts #[]).trans (List.nil_append _)

theorem length_flatMap_data {ts : List (Tensor α)} {shapes : List (List ℕ)}
    (h : ts.map (·.shape) = shapes) :
    (ts.flatMap (·.data.toList)).length = (shapes.map Tensor.volume).sum := by
  rw [List.length_flatMap, ← h, List.map_map]
  exact congrArg List.sum (List.map_congr_left fun t _ => length_data t)

/-! ## Packing -/

/-- One shape, several that are equal, or any. -/
theorem ofShapes_cases (shapes : List (List ℕ)) :
    (∃ shape, shapes = [shape] ∧ Packing.ofShapes shapes = .single shape) ∨
    (∃ first rest, shapes = first :: rest ∧ (∀ shape ∈ rest, shape = first) ∧
      Packing.ofShapes shapes = .stacked shapes.length first) ∨
    Packing.ofShapes shapes = .flat shapes := by
  match shapes with
  | [] => exact .inr (.inr rfl)
  | [shape] => exact .inl ⟨shape, rfl, rfl⟩
  | first :: second :: rest =>
    -- Two shapes or more are stacked if all are equal, and laid flat otherwise.
    have hofShapes : Packing.ofShapes (first :: second :: rest) =
        if (second :: rest).all (· == first) then .stacked (rest.length + 2) first
        else .flat (first :: second :: rest) := rfl
    by_cases hall : (second :: rest).all (· == first) = true
    · refine .inr (.inl ⟨first, second :: rest, rfl, ?_, by rw [hofShapes, if_pos hall]; rfl⟩)
      intro shape hshape
      simpa using List.all_eq_true.mp hall shape hshape
    · exact .inr (.inr (by rw [hofShapes, if_neg hall]))

/-- Packing lays the data of the parts out in order. -/
theorem pack_ofShapes [Zero α] {ts : List (Tensor α)} {shapes : List (List ℕ)}
    (h : ts.map (·.shape) = shapes) : ∃ T, (Packing.ofShapes shapes).pack ts = .ok T ∧
      T.shape = (Packing.ofShapes shapes).shape ∧ T.data.toList = ts.flatMap (·.data.toList) := by
  rcases ofShapes_cases shapes with ⟨shape, hone, heq⟩ | ⟨first, rest, hcons, hsame, heq⟩ | heq
  · rw [heq]
    rw [hone] at h
    obtain ⟨t, rfl, rfl⟩ := List.map_eq_singleton_iff.mp h
    exact ⟨t, rfl, rfl, by simp⟩
  · rw [heq]
    rw [hcons] at h
    obtain ⟨t, ts', rfl, rfl, hts'⟩ := List.map_eq_cons_iff.mp h
    have hshapes : ∀ s ∈ ts', s.shape = t.shape := fun s hs =>
      hsame s.shape (hts' ▸ List.mem_map_of_mem hs)
    obtain ⟨T, hstack, hshape, hdata⟩ := stack_eq hshapes
    refine ⟨T, hstack, ?_, hdata⟩
    rw [hshape, hcons, ← hts']
    simp [Packing.shape]
  · rw [heq]
    refine ⟨.concat ts, rfl, ?_, concat_eq ts⟩
    have hsize := length_flatMap_data h
    rw [← concat_eq] at hsize
    exact congrArg (fun k => [k]) hsize

/-! ## Unpacking -/

/-- Cutting data that fills the shapes. -/
theorem cut_eq {shapes : List (List ℕ)} {data : List α}
    (h : data.length = (shapes.map Tensor.volume).sum) :
    ∃ ts, Packing.cut data shapes = .ok ts ∧ ts.map (·.shape) = shapes ∧
      ts.flatMap (·.data.toList) = data := by
  induction shapes generalizing data with
  | nil => exact ⟨[], rfl, rfl, (List.eq_nil_of_length_eq_zero h).symm⟩
  | cons shape shapes ih =>
    rw [List.map_cons, List.sum_cons] at h
    -- The first tensor takes its volume, and the rest is cut by the other shapes.
    have hsize : (data.take (Tensor.volume shape)).toArray.size = Tensor.volume shape := by
      rw [List.size_toArray, List.length_take]
      omega
    have hrest : (data.drop (Tensor.volume shape)).length =
        (shapes.map Tensor.volume).sum := by
      rw [List.length_drop]
      omega
    obtain ⟨ts, hcut, hshapes, hdata⟩ := ih hrest
    refine ⟨⟨shape, _, hsize⟩ :: ts, ?_, congrArg _ hshapes, ?_⟩
    · have hfirst : Tensor.make shape (data.take (Tensor.volume shape)).toArray =
          .ok ⟨shape, _, hsize⟩ := dif_pos hsize
      unfold Packing.cut
      simp only [hfirst, hcut]
      rfl
    · rw [List.flatMap_cons, hdata]
      exact List.take_append_drop _ _

theorem unstack_eq [Zero α] {T : Tensor α} {lead : ℕ} {shape : List ℕ}
    (h : T.shape = lead :: shape) :
    ∃ ts, T.unstack = .ok ts ∧ ts.map (·.shape) = List.replicate lead shape ∧
      ts.flatMap (·.data.toList) = T.data.toList := by
  let item (i : ℕ) : Tensor α := .ofFn shape fun p => T.entry (i * Tensor.volume shape + p)
  have hitem : ∀ i ∈ List.range lead, T.indexLeading i = .ok (item i) := by
    intro i hi
    unfold Tensor.indexLeading
    simp only [h]
    rw [if_pos (List.mem_range.mp hi)]
  have hlengths : ∀ l ∈ (List.range lead).map fun i => (item i).data.toList,
      l.length = Tensor.volume shape := by
    intro l hl
    obtain ⟨i, -, rfl⟩ := List.mem_map.mp hl
    exact length_data (item i)
  refine ⟨(List.range lead).map item, ?_, ?_, ?_⟩
  · unfold Tensor.unstack
    simp only [h]
    exact mapM_ok hitem
  · rw [List.map_map]
    simp [Function.comp_def, item]
  · have hvolume : T.data.toList.length = lead * Tensor.volume shape := by
      rw [length_data, h, Tensor.volume_cons]
    have hlength : ((List.range lead).map fun i => (item i).data.toList).flatten.length =
        lead * Tensor.volume shape := by
      rw [length_flatten_uniform hlengths, List.length_map, List.length_range]
    rw [List.flatMap_def, List.map_map]
    refine eq_of_getD (hlength.trans hvolume.symm) fun p hp => ?_
    have hp' : p < lead * Tensor.volume shape := hlength ▸ hp
    have hdiv : p / Tensor.volume shape < lead := Nat.div_lt_of_lt_mul (Nat.mul_comm _ _ ▸ hp')
    have hpos : 0 < Tensor.volume shape := Nat.pos_of_lt_mul_left hp'
    refine (getD_flatten_uniform hlengths (by simpa using hp')).trans ?_
    rw [List.getD_eq_getElem _ [] (by simpa using hdiv), List.getElem_map, List.getElem_range,
      ← entry_eq_getD, Tensor.entry_ofFn (Nat.mod_lt _ hpos), entry_eq_getD, Nat.mul_comm,
      Nat.div_add_mod]

/-- A tensor of the shape of the layout can be taken apart. -/
theorem unpack_ofShapes [Zero α] {shapes : List (List ℕ)} {T : Tensor α}
    (h : T.shape = (Packing.ofShapes shapes).shape) :
    ∃ ts, (Packing.ofShapes shapes).unpack T = .ok ts ∧ ts.map (·.shape) = shapes ∧
      ts.flatMap (·.data.toList) = T.data.toList := by
  rcases ofShapes_cases shapes with ⟨shape, rfl, heq⟩ | ⟨first, rest, hcons, hsame, heq⟩ | heq
  · rw [heq] at h ⊢
    exact ⟨[T], rfl, congrArg (fun s => [s]) h, by simp⟩
  · rw [heq] at h ⊢
    obtain ⟨ts, hunstack, hshapes, hdata⟩ := unstack_eq h
    refine ⟨ts, hunstack, hshapes.trans ?_, hdata⟩
    rw [hcons, List.length_cons, List.replicate_succ, List.eq_replicate_iff.mpr ⟨rfl, hsame⟩]
    simp
  · rw [heq] at h ⊢
    refine cut_eq ?_
    rw [length_data, h]
    simp [Packing.shape]

/-! ## Results of one batch -/

theorem packing_of_shapes {t : Trace α} {batch : Option ℕ} {shapes : List (List ℕ)}
    (h : t.measurementShapes batch = .ok shapes) : t.packing batch = .ok (.ofShapes shapes) := by
  unfold Trace.packing
  rw [h]
  rfl

/-- The shapes agree in number and one by one, so the check finds nothing. -/
theorem checkResults_map_shape (rs : List (Tensor α)) :
    Trace.checkResults (rs.map (·.shape)) rs = .ok () := by
  unfold Trace.checkResults
  rw [if_neg (by simp)]
  split
  · next e hfound =>
    have hmem := List.mem_of_find?_eq_some hfound
    obtain ⟨i, hi, heq⟩ := List.getElem_of_mem hmem
    rw [List.getElem_zip, List.getElem_map] at heq
    obtain ⟨rfl, rfl⟩ := Prod.mk.inj heq
    simpa using List.find?_some hfound
  · rfl

/-- Results of the shapes of the measurements can be packed. -/
theorem packBatch_of_shapes [Zero α] {t : Trace α} {batch : Option ℕ} {shapes : List (List ℕ)}
    (h : t.measurementShapes batch = .ok shapes) {rs : List (Tensor α)}
    (hrs : rs.map (·.shape) = shapes) :
    ∃ T, t.packBatch batch rs = .ok T ∧ T.shape = (Packing.ofShapes shapes).shape ∧
      T.data.toList = rs.flatMap (·.data.toList) := by
  obtain ⟨T, hpack, hT⟩ := pack_ofShapes hrs
  refine ⟨T, ?_, hT⟩
  subst hrs
  unfold Trace.packBatch
  rw [h, ok_bind, checkResults_map_shape, ok_bind, hpack]

/-! ## Results of exact traces -/

section Results

variable {t : Trace ℝ} {shapes : List (List ℕ)}

theorem batches_of_analytic (hshots : t.shots = .analytic) : t.shots.batches = [none] := by
  rw [hshots]
  rfl

theorem outputShape_of_shapes (h : t.measurementShapes none = .ok shapes)
    (hshots : t.shots = .analytic) : t.outputShape = .ok (Packing.ofShapes shapes).shape := by
  unfold Trace.outputShape
  rw [hshots]
  show (do return (← t.packing none).shape) = _
  rw [packing_of_shapes h]
  rfl

/-- Results of the right shapes can be packed. -/
theorem packResults_of_shapes (h : t.measurementShapes none = .ok shapes)
    (hshots : t.shots = .analytic) {rs : List (Tensor ℝ)} (hrs : rs.map (·.shape) = shapes) :
    ∃ T, t.packResults [rs] = .ok T ∧ T.shape = (Packing.ofShapes shapes).shape ∧
      T.data.toList = rs.flatMap (·.data.toList) := by
  obtain ⟨T, hbatch, hshape, hdata⟩ := packBatch_of_shapes h hrs
  refine ⟨T, ?_, hshape, hdata⟩
  unfold Trace.packResults
  simp only [batches_of_analytic hshots, List.length_singleton, ne_eq, not_true, if_false,
    List.zip_cons_cons, List.zip_nil_left, List.mapM_cons, List.mapM_nil, hbatch]
  rfl

/-- A tensor of the right shape can be taken apart. -/
theorem unpackResult_of_shapes (h : t.measurementShapes none = .ok shapes)
    (hshots : t.shots = .analytic) {T : Tensor ℝ} (hT : T.shape = (Packing.ofShapes shapes).shape) :
    ∃ rs, t.unpackResult T = .ok [rs] ∧ rs.map (·.shape) = shapes ∧
      rs.flatMap (·.data.toList) = T.data.toList := by
  obtain ⟨rs, hunpack, hshapes, hdata⟩ := unpack_ofShapes hT
  refine ⟨rs, ?_, hshapes, hdata⟩
  have hpart : (do (← t.packing none).unpack T) = Except.ok rs := by
    rw [packing_of_shapes h]
    exact hunpack
  unfold Trace.unpackResult
  rw [outputShape_of_shapes h hshots]
  show (if T.shape ≠ (Packing.ofShapes shapes).shape then _ else _) = _
  rw [if_neg (not_not.mpr hT)]
  simp only [batches_of_analytic hshots, List.length_singleton, if_true, pure_bind,
    List.zip_cons_cons, List.zip_nil_left, List.mapM_cons, List.mapM_nil, hpart]
  rfl

/-- Tensors are determined by their shapes and their data, one after the other. -/
theorem eq_of_flatMap_data [Zero α] {rs rs' : List (Tensor α)}
    (hshapes : rs.map (·.shape) = rs'.map (·.shape))
    (hdata : rs.flatMap (·.data.toList) = rs'.flatMap (·.data.toList)) : rs = rs' := by
  induction rs generalizing rs' with
  | nil => exact (List.map_eq_nil_iff.mp hshapes.symm).symm
  | cons r rs ih =>
    obtain ⟨r', rs', rfl, hfirst, hrest⟩ := List.map_eq_cons_iff.mp hshapes.symm
    rw [List.flatMap_cons, List.flatMap_cons] at hdata
    have hlength : r.data.toList.length = r'.data.toList.length := by
      rw [length_data, length_data, hfirst]
    obtain ⟨hown, hothers⟩ := List.append_inj hdata hlength
    have hr : r = r' := by
      refine Tensor.ext_entry hfirst.symm fun i _ => ?_
      rw [entry_eq_getD, entry_eq_getD, hown]
    rw [hr, ih hrest.symm hothers]

/-- What was packed comes back. -/
theorem unpack_packResults (h : t.measurementShapes none = .ok shapes)
    (hshots : t.shots = .analytic) {rs : List (Tensor ℝ)} (hrs : rs.map (·.shape) = shapes)
    {T : Tensor ℝ} (hT : t.packResults [rs] = .ok T) : t.unpackResult T = .ok [rs] := by
  obtain ⟨T', hpack, hshape, hdata⟩ := packResults_of_shapes h hshots hrs
  obtain rfl : T = T' := Except.ok.inj (hT.symm.trans hpack)
  obtain ⟨rs', hunpack, hshapes', hdata'⟩ := unpackResult_of_shapes h hshots hshape
  obtain rfl : rs' = rs := eq_of_flatMap_data (hshapes'.trans hrs.symm) (hdata'.trans hdata)
  exact hunpack

end Results

end Proofs

end CircuitGrad
