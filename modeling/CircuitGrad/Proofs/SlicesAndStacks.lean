import CircuitGrad.Tensor.Checked
import CircuitGrad.Proofs.Counts
import CircuitGrad.Proofs.RowMajor
import CircuitGrad.Proofs.TrailingDimensions

/-! # Taking tensors apart and putting them together

    Splitting off the trailing dimensions and joining the slices are inverse
    to each other, and so are stacking and unstacking.  In one direction
    entries are gathered at regular distances, in the other they are
    scattered; a position is followed through both by its quotient and its
    remainder.

    On the way dimensions are multiplied and lists of tensors are stored.  A
    shape may have a dimension of size zero and still overflow, and then
    taking the tensor apart stops, or putting it together; each of the
    operations undoes its counterpart exactly if its own sizes fit
    (`slices_and_stacks`).

    That the data fills the shape is part of the type of tensors.  What is said
    here about the reads of an operation is that they stay inside the data:
    each entry of a result is found where the operation looks for it
    (`Tensor.Access`), so that no operation ever meets the zero that stands
    for an entry outside.
-/

namespace CircuitGrad

/-- Reading finds an entry for every position of the shape, the one that the tensor has there. -/
def Tensor.Reads {α : Type} (T : Tensor α) (read : ℕ → Option α) : Prop :=
  ∀ p < T.shape.prod, ∃ v, read p = some v ∧ T.data[p]? = some v

/-- The entries of a shape can be addressed. -/
def Tensor.Addressable (shape : List ℕ) : Prop :=
  shape.prod * Tensor.Checked.entryBytes < 2 ^ (63 : ℕ)

instance (shape : List ℕ) : Decidable (Tensor.Addressable shape) :=
  inferInstanceAs (Decidable (_ < _))

/-- So many tensors of one shape can be listed: their entries can be counted,
    and the list can be addressed. -/
def Tensor.Listable (shape : List ℕ) (count : ℕ) : Prop :=
  Count.Fits shape ∧ count * Tensor.Checked.tensorBytes < 2 ^ (63 : ℕ)

/-- The data of every tensor fills its shape, and what an operation returns was read inside the
    data of its operands. -/
structure Tensor.Access (α : Type) [Zero α] [Add α] [Mul α] [BEq α] : Prop where
  size : ∀ T : Tensor α, T.data.size = T.shape.prod
  make : ∀ (shape : List ℕ) (data : Array α) (T : Tensor α),
    Tensor.Checked.make shape data = .ok T ↔
      Count.Fits shape ∧ data.size = shape.prod ∧ T.shape = shape ∧ T.data = data
  add : ∀ a b T : Tensor α, a.add b = .ok T →
    T.Reads fun p => do return (← a.data[p]?) + (← b.data[p]?)
  mul : ∀ a b T : Tensor α, a.mul b = .ok T →
    T.Reads fun p => do return (← a.data[p]?) * (← b.data[p]?)
  linearCombination : ∀ (cs : List α) (ts : List (Tensor α)) (T : Tensor α),
    Tensor.Checked.linearCombination cs ts = .ok T →
    T.Reads fun p => (cs.zip ts).foldlM (fun acc e => do return acc + e.1 * (← e.2.data[p]?)) 0
  stack : ∀ (ts : List (Tensor α)) (T : Tensor α), Tensor.Checked.stack ts = .ok T →
    ∃ shape, T.shape = ts.length :: shape ∧
      T.Reads fun p => do (← ts[p / shape.prod]?).data[p % shape.prod]?
  stackTrailing : ∀ (ts : List (Tensor α)) (T : Tensor α),
    Tensor.Checked.stackTrailing ts = .ok T →
    ∃ shape, T.shape = shape ++ [ts.length] ∧
      T.Reads fun p => do (← ts[p % ts.length]?).data[p / ts.length]?
  indexLeading : ∀ (t : Tensor α) (i : ℕ) (T : Tensor α),
    Tensor.Checked.indexLeading t i = .ok T → T.Reads fun p => t.data[i * T.shape.prod + p]?
  contract : ∀ (t : Tensor α) (axis : ℕ) (A : Array α) (m : ℕ) (T : Tensor α),
    Tensor.Checked.contract t axis A m = .ok T →
    ∃ n, t.shape[axis]? = some n ∧ T.shape = t.shape.set axis m ∧
      let inner := (t.shape.drop (axis + 1)).prod
      T.Reads fun p => (List.range n).foldlM (fun acc k => do
        let a ← A[k * m + p / inner % m]?
        if a == 0 then return acc
        else return acc + a * (← t.data[(p / (m * inner) * n + k) * inner + p % inner]?)) 0
  splitTrailing : ∀ (t : Tensor α) (lead trailing : List ℕ) (slices : List (Tensor α)),
    Tensor.Checked.splitTrailing t lead = .ok (trailing, slices) →
    slices.length = trailing.prod ∧ ∀ (j : ℕ) (T : Tensor α), slices[j]? = some T → T.shape = lead ∧
      T.Reads fun g => t.data[g * trailing.prod + j]?

namespace Proofs

open Tensor (InRange place volume)

variable {α : Type}

/-! ## Reads -/

section Reads

theorem volume_eq_prod (shape : List ℕ) : volume shape = shape.prod := List.prod_eq_foldr.symm

theorem make_eq_ok_iff_fills {shape : List ℕ} {data : Array α} {T : Tensor α} :
    Tensor.make shape data = .ok T ↔ data.size = shape.prod ∧ T.shape = shape ∧ T.data = data := by
  unfold Tensor.make
  rw [← volume_eq_prod]
  constructor
  · intro h
    split at h
    · next hsize =>
      obtain rfl := Except.ok.inj h
      exact ⟨hsize, rfl, rfl⟩
    · cases h
  · rintro ⟨hsize, rfl, rfl⟩
    rw [dif_pos hsize]

theorem checkedMake_eq_ok_iff {shape : List ℕ} {data : Array α} {T : Tensor α} :
    Tensor.Checked.make shape data = .ok T ↔ Count.Fits shape ∧ Tensor.make shape data = .ok T := by
  have hproduct := stopsUnless_product shape
  unfold Tensor.Checked.make Tensor.Checked.numel
  by_cases hfits : Count.Fits shape
  · rw [hproduct.goes hfits, ok_bind]
    exact (and_iff_right hfits).symm
  · rw [hproduct.stops hfits, error_bind]
    exact iff_of_false nofun fun h => hfits h.1

/-- What a checked operation returns is what it computes after its check. -/
theorem eq_ok_of_checked {β γ : Type} {x : Except Error β} {y : Except Error γ} {r : γ}
    (h : (x >>= fun _ => y) = .ok r) : y = .ok r :=
  (bind_eq_ok h).choose_spec.2

/-- The checks of a list of tensors against a shape, and what follows them. -/
theorem checked_eq_ok {β : Type} {context : String} {shape : List ℕ} {ts : List (Tensor α)}
    {x : Except Error β} {r : β}
    (h : ((ts.forM fun t => Tensor.checkShape context shape t.shape) >>= fun _ => x) = .ok r) :
    (∀ t ∈ ts, t.shape = shape) ∧ x = .ok r := by
  obtain ⟨_, hcheck, hx⟩ := bind_eq_ok h
  exact ⟨shapes_of_forM hcheck, hx⟩

variable [Zero α]

/-- Inside the data the entry is the one that is stored. -/
theorem getElem?_eq_entry {t : Tensor α} {p : ℕ} (hp : p < volume t.shape) :
    t.data[p]? = some (t.entry p) := by
  have hlt : p < t.data.size := hp.trans_eq t.size_eq_volume.symm
  simp [Tensor.entry, Array.getD, hlt]

theorem reads_ofFn {shape : List ℕ} {f : ℕ → α} {read : ℕ → Option α}
    (h : ∀ p < volume shape, read p = some (f p)) : (Tensor.ofFn shape f).Reads read := by
  intro p hp
  have hp' : p < volume shape := hp.trans_eq (volume_eq_prod shape).symm
  refine ⟨f p, h p hp', ?_⟩
  rw [getElem?_eq_entry hp', Tensor.entry_ofFn hp']

/-- A loop whose steps all find what they read. -/
theorem foldlM_eq_some {β ι : Type} {items : List ι} {f : β → ι → Option β} {g : β → ι → β}
    (h : ∀ acc, ∀ e ∈ items, f acc e = some (g acc e)) (start : β) :
    items.foldlM f start = some (items.foldl g start) := by
  induction items generalizing start with
  | nil => rfl
  | cons e items ih =>
    obtain ⟨hfirst, hrest⟩ : (∀ acc, f acc e = some (g acc e)) ∧
        ∀ acc, ∀ e ∈ items, f acc e = some (g acc e) :=
      ⟨fun acc => h acc e List.mem_cons_self,
        fun acc e he => h acc e (List.mem_cons_of_mem _ he)⟩
    rw [List.foldlM_cons, hfirst, List.foldl_cons]
    exact ih hrest _

end Reads

/-! ## What operations read -/

section Access

variable [Zero α] {T : Tensor α}

theorem zipped_reads {context : String} {op : α → α → α} {a b : Tensor α}
    (h : (Tensor.checkShape context a.shape b.shape >>= fun _ =>
      .ok (.ofFn a.shape fun i => op (a.entry i) (b.entry i))) = .ok T) :
    T.Reads fun p => do return op (← a.data[p]?) (← b.data[p]?) := by
  obtain ⟨_, hcheck, h⟩ := bind_eq_ok h
  obtain rfl := Except.ok.inj h
  have hshape : a.shape = b.shape := by
    unfold Tensor.checkShape at hcheck
    split at hcheck
    · assumption
    · cases hcheck
  refine reads_ofFn fun p hp => ?_
  rw [getElem?_eq_entry hp, getElem?_eq_entry (hshape ▸ hp)]
  rfl

theorem linearCombination_reads [Add α] [Mul α] {cs : List α} {ts : List (Tensor α)}
    (h : Tensor.linearCombination cs ts = .ok T) :
    T.Reads fun p =>
      (cs.zip ts).foldlM (fun acc e => do return acc + e.1 * (← e.2.data[p]?)) 0 := by
  unfold Tensor.linearCombination at h
  split at h
  · cases h
  · cases ts with
    | nil => cases h
    | cons first rest =>
      obtain ⟨hshapes, h⟩ := checked_eq_ok h
      obtain rfl := Except.ok.inj h
      refine reads_ofFn fun p hp => foldlM_eq_some (fun acc e he => ?_) 0
      obtain ⟨-, ht⟩ := List.of_mem_zip he
      rw [getElem?_eq_entry ((hshapes e.2 ht).symm ▸ hp)]
      rfl

theorem stack_reads {ts : List (Tensor α)} (h : Tensor.stack ts = .ok T) :
    ∃ shape, T.shape = ts.length :: shape ∧
      T.Reads fun p => (do (← ts[p / shape.prod]?).data[p % shape.prod]?) := by
  unfold Tensor.stack at h
  cases ts with
  | nil => cases h
  | cons first rest =>
    obtain ⟨hshapes, h⟩ := checked_eq_ok h
    obtain rfl := Except.ok.inj h
    refine ⟨first.shape, rfl, reads_ofFn fun p hp => ?_⟩
    rw [Tensor.volume_cons, Nat.mul_comm] at hp
    have hitem : p / volume first.shape < (first :: rest).length := Nat.div_lt_of_lt_mul hp
    have hpos : 0 < volume first.shape := Nat.pos_of_lt_mul_right hp
    have hshape := hshapes _ (List.getElem_mem hitem)
    rw [← volume_eq_prod, List.getElem?_eq_getElem hitem, Option.bind_eq_bind, Option.bind_some,
      getElem?_eq_entry (hshape.symm ▸ Nat.mod_lt p hpos), Array.getD_eq_getD_getElem?,
      List.getElem?_toArray, List.getElem?_eq_getElem hitem, Option.getD_some]

theorem stackTrailing_reads {ts : List (Tensor α)} (h : Tensor.stackTrailing ts = .ok T) :
    ∃ shape, T.shape = shape ++ [ts.length] ∧
      T.Reads fun p => (do (← ts[p % ts.length]?).data[p / ts.length]?) := by
  unfold Tensor.stackTrailing at h
  cases ts with
  | nil => cases h
  | cons first rest =>
    obtain ⟨hshapes, h⟩ := checked_eq_ok h
    obtain rfl := Except.ok.inj h
    refine ⟨first.shape, rfl, reads_ofFn fun p hp => ?_⟩
    rw [Tensor.volume_append, Tensor.volume_cons, Tensor.volume_nil, Nat.mul_one] at hp
    have hitem : p % (first :: rest).length < (first :: rest).length :=
      Nat.mod_lt p (List.length_pos_of_ne_nil (List.cons_ne_nil _ _))
    have hplace : p / (first :: rest).length < volume first.shape :=
      Nat.div_lt_of_lt_mul (Nat.mul_comm _ _ ▸ hp)
    have hshape := hshapes _ (List.getElem_mem hitem)
    rw [List.getElem?_eq_getElem hitem, Option.bind_eq_bind, Option.bind_some,
      getElem?_eq_entry (hshape.symm ▸ hplace), Array.getD_eq_getD_getElem?,
      List.size_toArray, List.getElem?_toArray, List.getElem?_eq_getElem hitem, Option.getD_some]

theorem indexLeading_eq_ok {t : Tensor α} {i : ℕ} (h : t.indexLeading i = .ok T) :
    ∃ n shape, t.shape = n :: shape ∧ i < n ∧
      T = .ofFn shape fun p => t.entry (i * volume shape + p) := by
  unfold Tensor.indexLeading at h
  split at h
  · cases h
  · next n shape hshape =>
    split at h
    · next hi => exact ⟨n, shape, hshape, hi, (Except.ok.inj h).symm⟩
    · cases h

theorem indexLeading_reads {t : Tensor α} {i : ℕ} (h : t.indexLeading i = .ok T) :
    T.Reads fun p => t.data[i * T.shape.prod + p]? := by
  obtain ⟨n, shape, hshape, hi, rfl⟩ := indexLeading_eq_ok h
  refine reads_ofFn fun p hp => ?_
  rw [Tensor.shape_ofFn, ← volume_eq_prod]
  refine getElem?_eq_entry ?_
  rw [hshape, Tensor.volume_cons]
  exact row_add_lt hi hp

/-- A position before, on and after an axis of size `m`. -/
theorem axis_parts {p outer m inner : ℕ} (hp : p < outer * (m * inner)) :
    p / (m * inner) < outer ∧ p / inner % m < m ∧ p % inner < inner := by
  have hrow : 0 < m * inner := Nat.pos_of_lt_mul_left hp
  refine ⟨Nat.div_lt_of_lt_mul (Nat.mul_comm outer _ ▸ hp), Nat.mod_lt _ ?_, Nat.mod_lt _ ?_⟩
  · exact Nat.pos_of_mul_pos_right hrow
  · exact Nat.pos_of_mul_pos_left hrow

theorem contract_reads [Add α] [Mul α] [BEq α] {t : Tensor α} {axis m : ℕ} {A : Array α}
    (h : t.contract axis A m = .ok T) :
    ∃ n, t.shape[axis]? = some n ∧ T.shape = t.shape.set axis m ∧
      let inner := (t.shape.drop (axis + 1)).prod
      T.Reads fun p => (List.range n).foldlM (fun acc k => do
        let a ← A[k * m + p / inner % m]?
        if a == 0 then return acc
        else return acc + a * (← t.data[(p / (m * inner) * n + k) * inner + p % inner]?)) 0 := by
  unfold Tensor.contract at h
  split at h
  · cases h
  · next n haxis =>
    split at h
    · cases h
    · next hsize =>
      obtain rfl := Except.ok.inj h
      refine ⟨n, haxis, rfl, reads_ofFn fun p hp => foldlM_eq_some (fun acc k hk => ?_) 0⟩
      have hk := List.mem_range.mp hk
      rw [← volume_eq_prod]
      generalize hinner : volume (t.shape.drop (axis + 1)) = inner
      rw [set_axis haxis, Tensor.volume_append, Tensor.volume_cons, hinner] at hp
      obtain ⟨ho, hc, hi⟩ := axis_parts hp
      have hfactor : k * m + p / inner % m < A.size :=
        (not_not.mp hsize).symm ▸ row_add_lt hk hc
      have hentry : (p / (m * inner) * n + k) * inner + p % inner < volume t.shape := by
        rw [(split_at_axis haxis).1, Tensor.volume_append, Tensor.volume_cons, hinner,
          ← Nat.mul_assoc]
        exact row_add_lt (row_add_lt ho hk) hi
      have hread : A[k * m + p / inner % m]? = some (A.getD (k * m + p / inner % m) 0) := by
        simp [Array.getD, hfactor]
      rw [hread, getElem?_eq_entry hentry]
      exact (apply_ite some _ _ _).symm

theorem splitTrailing_reads {t : Tensor α} {lead trailing : List ℕ} {slices : List (Tensor α)}
    (h : t.splitTrailing lead = .ok (trailing, slices)) :
    slices.length = trailing.prod ∧ ∀ (j : ℕ) (T : Tensor α), slices[j]? = some T → T.shape = lead ∧
      T.Reads fun g => t.data[g * trailing.prod + j]? := by
  obtain ⟨rest, hshape⟩ : ∃ rest, t.shape = lead ++ rest := by
    unfold Tensor.splitTrailing at h
    split at h
    · next hlead =>
      obtain ⟨rest, hrest⟩ := List.isPrefixOf_iff_prefix.mp hlead
      exact ⟨rest, hrest.symm⟩
    · cases h
  obtain ⟨rfl, rfl⟩ := Prod.mk.inj (Except.ok.inj ((splitTrailing_eq hshape).symm.trans h))
  rw [← volume_eq_prod]
  refine ⟨by rw [List.length_map, List.length_range], fun j T hj => ?_⟩
  rw [List.getElem?_map] at hj
  obtain ⟨i, hi, rfl⟩ := Option.map_eq_some_iff.mp hj
  obtain ⟨hlt, rfl⟩ := List.getElem?_eq_some_iff.mp hi
  rw [List.length_range] at hlt
  rw [List.getElem_range, slice_eq hshape]
  refine ⟨rfl, reads_ofFn fun g hg => getElem?_eq_entry ?_⟩
  rw [hshape, Tensor.volume_append]
  exact row_add_lt hg hlt

theorem access (α : Type) [Zero α] [Add α] [Mul α] [BEq α] : Tensor.Access α where
  size T := T.size_eq_volume.trans (volume_eq_prod T.shape)
  make _ _ _ := checkedMake_eq_ok_iff.trans (and_congr_right fun _ => make_eq_ok_iff_fills)
  add _ _ _ := zipped_reads
  mul _ _ _ := zipped_reads
  linearCombination _ _ _ h := linearCombination_reads (eq_ok_of_checked h)
  stack _ _ h := stack_reads (eq_ok_of_checked h)
  stackTrailing _ _ h := by
    obtain ⟨_, hstack, h⟩ := bind_eq_ok h
    obtain rfl := Except.ok.inj (eq_ok_of_checked h)
    exact stackTrailing_reads hstack
  indexLeading _ _ _ h := by
    obtain ⟨_, hindex, h⟩ := bind_eq_ok h
    obtain rfl := Except.ok.inj (eq_ok_of_checked h)
    exact indexLeading_reads hindex
  contract _ _ _ _ _ h := contract_reads (eq_ok_of_checked h)
  splitTrailing _ _ _ _ h := splitTrailing_reads (eq_ok_of_checked h)

end Access

/-! ## There and back -/

section RoundTrips

variable {lead trailing shape : List ℕ}

/-- The items of a list by their places. -/
theorem exists_eq_range_map {ts : List (Tensor α)} (hne : ts ≠ []) :
    ∃ f : ℕ → Tensor α, ts = (List.range ts.length).map f ∧ ∀ j < ts.length, f j ∈ ts := by
  obtain ⟨first, rest, rfl⟩ := List.exists_cons_of_ne_nil hne
  refine ⟨fun j => (first :: rest).getD j first, List.ext_getElem (by simp) ?_, ?_⟩
  · intro j hj _
    rw [List.getElem_map, List.getElem_range, List.getD_eq_getElem _ _ hj]
  · intro j hj
    dsimp only
    rw [List.getD_eq_getElem _ _ hj]
    exact List.getElem_mem hj

variable [Zero α]

/-- A tensor is determined by its slices. -/
theorem eq_of_slices {T T' : Tensor α} (h : T.shape = lead ++ trailing)
    (h' : T'.shape = lead ++ trailing)
    (hslices : ∀ j < volume trailing, T.slice trailing j = T'.slice trailing j) : T = T' := by
  refine Tensor.ext_entry (h.trans h'.symm) fun p hp => ?_
  rw [h, Tensor.volume_append] at hp
  have hslice := hslices _ (Nat.mod_lt p (Nat.pos_of_lt_mul_left hp))
  have hentry := congrArg (·.entry (p / volume trailing)) hslice
  have hlt : p / volume trailing < volume lead := Nat.div_lt_of_lt_mul (Nat.mul_comm _ _ ▸ hp)
  rwa [slice_eq h, slice_eq h', Tensor.entry_ofFn hlt, Tensor.entry_ofFn hlt,
    Nat.div_add_mod'] at hentry

/-- What was split off is joined again. -/
theorem join_split {t : Tensor α} (h : t.shape = lead ++ trailing) (hpos : 0 < volume trailing) :
    ∃ slices, t.splitTrailing lead = .ok (trailing, slices) ∧
      Tensor.joinTrailing slices trailing = .ok t := by
  obtain ⟨T, hjoin, hT, hslices⟩ := joinTrailing_eq hpos fun j _ => shape_slice h j
  refine ⟨_, splitTrailing_eq h, hjoin.trans ?_⟩
  rw [eq_of_slices hT h hslices]

/-- What was joined is split off again. -/
theorem split_join {slices : List (Tensor α)} (hne : slices ≠ [])
    (hshapes : ∀ s ∈ slices, s.shape = shape) (hcount : volume trailing = slices.length) :
    ∃ T, Tensor.joinTrailing slices trailing = .ok T ∧ T.shape = shape ++ trailing ∧
      T.splitTrailing shape = .ok (trailing, slices) := by
  obtain ⟨f, hslices, hmem⟩ := exists_eq_range_map hne
  rw [← hcount] at hslices hmem
  have hpos : 0 < volume trailing := hcount ▸ List.length_pos_of_ne_nil hne
  obtain ⟨T, hjoin, hT, hown⟩ := joinTrailing_eq hpos fun j hj => hshapes _ (hmem j hj)
  refine ⟨T, hslices ▸ hjoin, hT, ?_⟩
  rw [splitTrailing_eq hT, hslices]
  exact congrArg (fun own => Except.ok (trailing, own))
    (List.map_congr_left fun j hj => hown j (List.mem_range.mp hj))

/-- What was stacked is unstacked again. -/
theorem unstack_stack {ts : List (Tensor α)} (hne : ts ≠ []) (hshapes : ∀ t ∈ ts, t.shape = shape) :
    ∃ T, Tensor.stack ts = .ok T ∧ T.shape = ts.length :: shape ∧ T.unstack = .ok ts := by
  obtain ⟨first, rest, rfl⟩ := List.exists_cons_of_ne_nil hne
  obtain ⟨rfl, hrest⟩ := List.forall_mem_cons.mp hshapes
  obtain ⟨T, hstack, hT, hdata⟩ := stack_eq hrest
  obtain ⟨items, hunstack, hitems, hsame⟩ := unstack_eq hT
  have hreplicate : (first :: rest).map (·.shape) =
      List.replicate (rest.length + 1) first.shape :=
    List.map_eq_replicate_iff.mpr hshapes
  have hequal : items = first :: rest :=
    eq_of_flatMap_data (hitems.trans hreplicate.symm) (hsame.trans hdata)
  exact ⟨T, hstack, hT, hequal ▸ hunstack⟩

/-- The slices along the new last dimension are the tensors that were stacked. -/
theorem slices_of_stackTrailing {ts : List (Tensor α)} (hne : ts ≠ [])
    (hshapes : ∀ t ∈ ts, t.shape = shape) :
    ∃ T, Tensor.stackTrailing ts = .ok T ∧ T.shape = shape ++ [ts.length] ∧
      T.splitTrailing shape = .ok ([ts.length], ts) ∧
      ∀ (j : ℕ) (t : Tensor α), ts[j]? = some t → ∀ index,
        T.get? (index ++ [j]) = t.get? index := by
  obtain ⟨T, hstack, hT, hslice⟩ := slice_stackTrailing hne hshapes
  refine ⟨T, hstack, hT, ?_, fun j t hj index => ?_⟩
  · have hcount : volume [ts.length] = ts.length := Nat.mul_one _
    rw [splitTrailing_eq hT, hcount]
    refine congrArg (fun own => Except.ok ([ts.length], own)) ?_
    refine List.ext_getElem (by simp) fun j _ hj => ?_
    rw [List.getElem_map, List.getElem_range]
    exact hslice j _ (List.getElem?_eq_getElem hj)
  · have hlt : j < ts.length := (List.getElem?_eq_some_iff.mp hj).1
    have ht : t.shape = shape := hshapes t (List.mem_of_getElem? hj)
    by_cases hindex : InRange shape index
    · have hrow : InRange [ts.length] [j] := .cons hlt .nil
      have hfull : InRange T.shape (index ++ [j]) := hT ▸ inRange_append hindex hrow
      have hentry := congrArg (·.entry (place shape index)) (hslice j t hj)
      rw [slice_eq hT, Tensor.entry_ofFn (place_lt hindex)] at hentry
      rw [get?_eq_some hfull, get?_eq_some (ht.symm ▸ hindex)]
      unfold Tensor.valueAt
      rw [hT, ht, place_append hindex hrow, place_cons hlt .nil, place_nil, Tensor.volume_nil,
        Nat.mul_one, Nat.add_zero, hentry]
    · have hfull : ¬ InRange T.shape (index ++ [j]) := by
        rw [hT]
        exact fun h => hindex (inRange_of_concat h)
      rw [get?_eq_none_iff.mpr hfull, get?_eq_none_iff.mpr (ht.symm ▸ hindex)]

end RoundTrips

/-! ## Sizes on the way -/

section Sizes

variable {lead trailing shape : List ℕ} {ts : List (Tensor α)} {T : Tensor α}

theorem stopsUnless_roomToStack (hne : ts ≠ []) (hshapes : ∀ t ∈ ts, t.shape = shape) :
    StopsUnless (Tensor.Addressable (ts.length :: shape)) (Tensor.Checked.roomToStack ts) () := by
  obtain ⟨first, rest, rfl⟩ := List.exists_cons_of_ne_nil hne
  have hsize : first.size = shape.prod := by
    rw [first.size_eq_volume, volume_eq_prod, hshapes first List.mem_cons_self]
  refine StopsUnless.congr ((stopsUnless_mul first.size (first :: rest).length).bind fun _ =>
    stopsUnless_room _ Tensor.Checked.entryBytes) ?_
  unfold Tensor.Addressable
  rw [List.prod_cons, hsize, Nat.mul_comm (first :: rest).length]
  exact and_iff_right_of_imp (lt_word_of_room (by decide))

theorem stopsUnless_roomToSplit (hpos : 0 < trailing.prod) :
    StopsUnless (Tensor.Listable lead trailing.prod)
      (Tensor.Checked.roomToSplit (lead ++ trailing) lead) () := by
  have hlead : lead.isPrefixOf (lead ++ trailing) = true :=
    List.isPrefixOf_iff_prefix.mpr (List.prefix_append lead trailing)
  unfold Tensor.Checked.roomToSplit
  rw [if_pos hlead, List.drop_left]
  refine StopsUnless.congr ((stopsUnless_product trailing).bind fun _ =>
    (stopsUnless_product lead).bind fun _ => stopsUnless_room _ _) ?_
  rw [fits_of_pos hpos]
  exact and_iff_right_of_imp fun h => lt_word_of_room (by decide) h.2

variable [Zero α]

theorem stopsUnless_splitTrailing (h : T.shape = lead ++ trailing) (hpos : 0 < trailing.prod)
    {slices : List (Tensor α)} (hsplit : T.splitTrailing lead = .ok (trailing, slices)) :
    StopsUnless (Tensor.Listable lead trailing.prod) (Tensor.Checked.splitTrailing T lead)
      (trailing, slices) := by
  unfold Tensor.Checked.splitTrailing
  rw [h]
  exact (stopsUnless_roomToSplit hpos).then_ok hsplit

theorem stopsUnless_stack (hne : ts ≠ []) (hshapes : ∀ t ∈ ts, t.shape = shape)
    (hstack : Tensor.stack ts = .ok T) :
    StopsUnless (Tensor.Addressable (ts.length :: shape)) (Tensor.Checked.stack ts) T :=
  (stopsUnless_roomToStack hne hshapes).then_ok hstack

theorem stopsUnless_stackTrailing (hne : ts ≠ []) (hshapes : ∀ t ∈ ts, t.shape = shape)
    (hstack : Tensor.stackTrailing ts = .ok T) :
    StopsUnless (Tensor.Addressable (ts.length :: shape)) (Tensor.Checked.stackTrailing ts) T := by
  unfold Tensor.Checked.stackTrailing
  rw [hstack, ok_bind]
  exact (stopsUnless_roomToStack hne hshapes).then_ok rfl

theorem stopsUnless_joinTrailing (hne : ts ≠ []) (hshapes : ∀ t ∈ ts, t.shape = shape)
    (hcount : trailing.prod = ts.length) (hjoin : Tensor.joinTrailing ts trailing = .ok T) :
    StopsUnless (Count.Fits (shape ++ trailing) ∧ Tensor.Addressable (shape ++ trailing))
      (Tensor.Checked.joinTrailing ts trailing) T := by
  obtain ⟨S, hstack, hS, -⟩ := slice_stackTrailing hne hshapes
  have hlead : S.shape.dropLast = shape := by rw [hS, List.dropLast_concat]
  have hreshape : S.reshape (shape ++ trailing) = .ok T := by
    unfold Tensor.joinTrailing at hjoin
    rwa [hstack, ok_bind, hlead] at hjoin
  have hmake : StopsUnless (Count.Fits (shape ++ trailing))
      (Tensor.Checked.reshape S (S.shape.dropLast ++ trailing)) T := by
    rw [hlead]
    exact StopsUnless.then_ok (stopsUnless_product (shape ++ trailing)) hreshape
  have hbytes : Tensor.Addressable (ts.length :: shape) ↔
      Tensor.Addressable (shape ++ trailing) := by
    unfold Tensor.Addressable
    rw [List.prod_cons, List.prod_append, hcount, Nat.mul_comm shape.prod]
  refine StopsUnless.congr ((stopsUnless_stackTrailing hne hshapes hstack).bind fun _ => hmake) ?_
  rw [hbytes, and_comm]

theorem stopsUnless_indexLeading {t : Tensor α} {n i : ℕ} (h : t.shape = n :: shape)
    {item : Tensor α} (hitem : t.indexLeading i = .ok item) :
    StopsUnless (Count.Fits shape) (Tensor.Checked.indexLeading t i) item := by
  obtain ⟨_, own, hown, -, hsame⟩ := indexLeading_eq_ok hitem
  obtain ⟨-, rfl⟩ := List.cons.inj (h.symm.trans hown)
  unfold Tensor.Checked.indexLeading
  rw [hitem, ok_bind, hsame, Tensor.shape_ofFn]
  exact (stopsUnless_product shape).then_ok rfl

theorem stopsUnless_unstack {n : ℕ} (h : T.shape = n :: shape) (hne : n ≠ 0)
    (hunstack : T.unstack = .ok ts) :
    StopsUnless (Tensor.Listable shape n) (Tensor.Checked.unstack T) ts := by
  unfold Tensor.unstack at hunstack
  unfold Tensor.Checked.unstack
  rw [h] at hunstack ⊢
  dsimp only at hunstack ⊢
  have hitems : StopsUnless (Count.Fits shape)
      ((List.range n).mapM (Tensor.Checked.indexLeading T)) ts := by
    refine StopsUnless.mapM (by simpa using hne) ?_
    exact forall₂_of_mapM (fun _ _ _ hitem => stopsUnless_indexLeading h hitem) hunstack
  exact ((stopsUnless_room n Tensor.Checked.tensorBytes).bind fun _ => hitems).congr and_comm

end Sizes

/-- Splitting off the trailing dimensions and joining are inverse to each other; unstacking undoes
    stacking; the slices along a new last dimension are the tensors that were stacked; and every
    operation finds what it reads inside the data of its operands.  Each step goes through exactly
    if its sizes fit, and stops otherwise. -/
theorem slices_and_stacks [Zero α] [Add α] [Mul α] [BEq α] :
    (∀ (t : Tensor α) (lead trailing : List ℕ), t.shape = lead ++ trailing → 0 < trailing.prod →
      ∃ slices, StopsUnless (Tensor.Listable lead trailing.prod)
          (Tensor.Checked.splitTrailing t lead) (trailing, slices) ∧
        StopsUnless (Count.Fits t.shape ∧ Tensor.Addressable t.shape)
          (Tensor.Checked.joinTrailing slices trailing) t) ∧
    (∀ (slices : List (Tensor α)) (shape trailing : List ℕ), slices ≠ [] →
      (∀ s ∈ slices, s.shape = shape) → trailing.prod = slices.length →
        ∃ T, StopsUnless (Count.Fits (shape ++ trailing) ∧ Tensor.Addressable (shape ++ trailing))
            (Tensor.Checked.joinTrailing slices trailing) T ∧
          StopsUnless (Tensor.Listable shape slices.length)
            (Tensor.Checked.splitTrailing T shape) (trailing, slices)) ∧
    (∀ (ts : List (Tensor α)) (shape : List ℕ), ts ≠ [] → (∀ t ∈ ts, t.shape = shape) →
      (∃ T, StopsUnless (Tensor.Addressable (ts.length :: shape)) (Tensor.Checked.stack ts) T ∧
        T.shape = ts.length :: shape ∧
        StopsUnless (Tensor.Listable shape ts.length) (Tensor.Checked.unstack T) ts) ∧
      ∃ T, StopsUnless (Tensor.Addressable (ts.length :: shape))
          (Tensor.Checked.stackTrailing ts) T ∧
        T.shape = shape ++ [ts.length] ∧
        StopsUnless (Tensor.Listable shape ts.length)
          (Tensor.Checked.splitTrailing T shape) ([ts.length], ts) ∧
        ∀ (j : ℕ) (t : Tensor α), ts[j]? = some t → ∀ index,
          T.get? (index ++ [j]) = t.get? index) ∧
    Tensor.Access α := by
  refine ⟨fun t lead trailing hshape hpos => ?_, fun slices shape trailing hne hshapes hcount => ?_,
    fun ts shape hne hshapes => ⟨?_, ?_⟩, access α⟩
  · obtain ⟨slices, hsplit, hjoin⟩ :=
      join_split hshape (hpos.trans_eq (volume_eq_prod trailing).symm)
    obtain ⟨hlength, hslices⟩ := splitTrailing_reads hsplit
    have hne : slices ≠ [] := List.ne_nil_of_length_pos (hlength ▸ hpos)
    have hshapes : ∀ s ∈ slices, s.shape = lead := by
      intro s hs
      obtain ⟨j, hj⟩ := List.mem_iff_getElem?.mp hs
      exact (hslices j s hj).1
    rw [hshape]
    exact ⟨slices, stopsUnless_splitTrailing hshape hpos hsplit,
      stopsUnless_joinTrailing hne hshapes hlength.symm hjoin⟩
  · obtain ⟨T, hjoin, hT, hsplit⟩ :=
      split_join hne hshapes ((volume_eq_prod trailing).trans hcount)
    have hpos : 0 < trailing.prod := hcount ▸ List.length_pos_of_ne_nil hne
    exact ⟨T, stopsUnless_joinTrailing hne hshapes hcount hjoin,
      hcount ▸ stopsUnless_splitTrailing hT hpos hsplit⟩
  · obtain ⟨T, hstack, hT, hunstack⟩ := unstack_stack hne hshapes
    exact ⟨T, stopsUnless_stack hne hshapes hstack, hT,
      stopsUnless_unstack hT (List.length_pos_of_ne_nil hne).ne' hunstack⟩
  · obtain ⟨T, hstack, hT, hsplit, hslices⟩ := slices_of_stackTrailing hne hshapes
    have hcount : [ts.length].prod = ts.length := List.prod_singleton
    have hpos : 0 < [ts.length].prod := hcount.symm ▸ List.length_pos_of_ne_nil hne
    have hlisted := stopsUnless_splitTrailing hT hpos hsplit
    rw [hcount] at hlisted
    exact ⟨T, stopsUnless_stackTrailing hne hshapes hstack, hT, hlisted, hslices⟩

/-- Six slices of a grid, slices without entries, and two rows. -/
theorem slices_and_stacks_rows :
    let grid : Tensor ℕ := .ofFn [2, 2, 3] fun p => p
    let bare : Tensor ℕ := .zeros [0, 2]
    let rows : List (Tensor ℕ) := [.vector #[1, 2, 3], .vector #[4, 5, 6]]
    (∃ slices, Tensor.Checked.splitTrailing grid [2] = .ok ([2, 3], slices) ∧
      Tensor.Checked.joinTrailing slices [2, 3] = .ok grid) ∧
    (∃ slices, Tensor.Checked.splitTrailing bare [0] = .ok ([2], slices) ∧
      Tensor.Checked.joinTrailing slices [2] = .ok bare) ∧
    (∃ T, Tensor.Checked.joinTrailing rows [2, 1] = .ok T ∧
      Tensor.Checked.splitTrailing T [3] = .ok ([2, 1], rows)) ∧
    (∃ T, Tensor.Checked.stack rows = .ok T ∧ T.shape = [2, 3] ∧
      Tensor.Checked.unstack T = .ok rows) ∧
    ∃ T, Tensor.Checked.stackTrailing rows = .ok T ∧ T.shape = [3, 2] ∧ T.get? [2, 1] = some 6 ∧
      T.data.size = 6 := by
  intro grid bare rows
  have hshapes : ∀ t ∈ rows, t.shape = [3] := by simp [rows, Tensor.vector]
  obtain ⟨hjoin, hsplit, hstack, haccess⟩ := slices_and_stacks (α := ℕ)
  obtain ⟨sliced, hsliced, hwhole⟩ := hjoin grid [2] [2, 3] rfl (by decide)
  obtain ⟨empty, hempty, hbare⟩ := hjoin bare [0] [2] rfl (by decide)
  obtain ⟨J, hJ, hrows⟩ := hsplit rows [3] [2, 1] (by simp [rows]) hshapes rfl
  obtain ⟨⟨S, hS, hSshape, hunstack⟩, T, hT, hshape, -, hslices⟩ :=
    hstack rows [3] (by simp [rows]) hshapes
  refine ⟨⟨sliced, hsliced.goes ⟨by decide, by decide⟩, hwhole.goes ⟨by decide, by decide⟩⟩,
    ⟨empty, hempty.goes ⟨by decide, by decide⟩, hbare.goes ⟨by decide, by decide⟩⟩,
    ⟨J, hJ.goes ⟨by decide, by decide⟩, hrows.goes ⟨by decide, by decide⟩⟩,
    ⟨S, hS.goes (by decide), hSshape, hunstack.goes ⟨by decide, by decide⟩⟩,
    T, hT.goes (by decide), hshape, hslices 1 _ rfl [2], ?_⟩
  rw [haccess.size, hshape]
  rfl

/-- Tensors without entries whose sizes overflow.  One is accepted, but has
    more slices than can be listed.  The others are made by stacking, which
    multiplies no dimensions; the entries of the first can not be counted when
    it is taken as its only slice, and those of its copies not when they are
    unstacked. -/
theorem slices_and_stacks_overflow :
    let flat : Tensor ℕ := .zeros [0, 2 ^ (40 : ℕ), 2 ^ (40 : ℕ)]
    let column : Tensor ℕ := .zeros [2 ^ (62 : ℕ), 0]
    let four : Tensor ℕ := .zeros [4, 2 ^ (62 : ℕ), 0]
    let pair : Tensor ℕ := .zeros [2, 4, 2 ^ (62 : ℕ), 0]
    Tensor.Checked.make flat.shape #[] = .ok flat ∧
    Tensor.Checked.splitTrailing flat [0] = .error .overflow ∧
    Tensor.Checked.make column.shape #[] = .ok column ∧
    Tensor.Checked.stack [column, column, column, column] = .ok four ∧
    four.splitTrailing four.shape = .ok ([], [four]) ∧
    Tensor.Checked.splitTrailing four four.shape = .error .overflow ∧
    Tensor.Checked.stack [four, four] = .ok pair ∧
    pair.unstack = .ok [four, four] ∧
    Tensor.Checked.unstack pair = .error .overflow := by
  refine ⟨rfl, rfl, rfl, rfl, rfl, rfl, rfl, rfl, rfl⟩

end Proofs

end CircuitGrad
