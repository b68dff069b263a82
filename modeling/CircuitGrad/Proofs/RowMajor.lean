import CircuitGrad.Argument
import CircuitGrad.Proofs.Packed

/-! # Row-major positions

    An index names an entry of a shape when it has one number for each
    dimension, each below its dimension.  Read from left to right as a number
    of mixed base, it is the row-major position of the entry: the indices in
    range are carried one to one onto the positions below the volume
    (`bijOn_place`), in lexicographic order (`place_lt_place`), and every other
    index has no position (`position?_eq_none_iff`).

    A position splits where the shape is split (`place_append`), so that
    the dimensions before and after an axis can be followed apart.
-/

namespace CircuitGrad

open TracedArgument (position?)

/-- One number for each dimension, each below its dimension. -/
def Tensor.InRange (shape index : List ℕ) : Prop := List.Forall₂ (· < ·) index shape

/-- The row-major position of an index in range. -/
def Tensor.place (shape index : List ℕ) : ℕ := (position? shape index).getD 0

/-- The entry at an index; none when it is out of range. -/
def Tensor.get? {α : Type} (t : Tensor α) (index : List ℕ) : Option α := do
  t.data[← position? t.shape index]?

/-- The entry at an index in range. -/
def Tensor.valueAt {α : Type} [Zero α] (t : Tensor α) (index : List ℕ) : α :=
  t.entry (Tensor.place t.shape index)

namespace Proofs

open Tensor (InRange place volume)

variable {shape shape' index index' : List ℕ}

/-! ## Positions -/

/-- An index read from `start` on stands behind as many blocks of the shape. -/
theorem foldl_zip_eq (h : InRange shape index) (start : ℕ) :
    (index.zip shape).foldl (fun flat (i, d) => flat * d + i) start =
      start * volume shape + (index.zip shape).foldl (fun flat (i, d) => flat * d + i) 0 := by
  unfold InRange at h
  induction h generalizing start with
  | nil => simp
  | @cons i d index shape _ _ ih =>
    rw [List.zip_cons_cons, List.foldl_cons, List.foldl_cons, ih, ih (0 * d + i),
      Tensor.volume_cons]
    ring

theorem position?_eq_none_iff : position? shape index = none ↔ ¬ InRange shape index := by
  have hcheck : (index.length = shape.length && (index.zip shape).all fun (i, d) => i < d) =
      true ↔ InRange shape index := by
    unfold InRange
    rw [List.forall₂_iff_zip]
    simp [List.all_eq_true]
  unfold position?
  by_cases h : InRange shape index
  · rw [if_pos (hcheck.mpr h)]
    simp [h]
  · rw [if_neg (mt hcheck.mp h)]
    simp [h]

theorem position?_eq_some (h : InRange shape index) :
    position? shape index = some (place shape index) := by
  unfold place
  cases hposition : position? shape index with
  | none => exact absurd h (position?_eq_none_iff.mp hposition)
  | some p => rfl

theorem place_eq_foldl (h : InRange shape index) :
    place shape index = (index.zip shape).foldl (fun flat (i, d) => flat * d + i) 0 := by
  have hposition := position?_eq_some h
  unfold position? at hposition
  split at hposition
  · exact (Option.some.inj hposition).symm
  · cases hposition

@[simp] theorem place_nil : place [] [] = 0 := rfl

/-- The first number of an index counts blocks of the other dimensions. -/
theorem place_cons {i d : ℕ} (hi : i < d) (h : InRange shape index) :
    place (d :: shape) (i :: index) = i * volume shape + place shape index := by
  have hcons : InRange (d :: shape) (i :: index) := .cons hi h
  rw [place_eq_foldl hcons, List.zip_cons_cons, List.foldl_cons, foldl_zip_eq h,
    ← place_eq_foldl h]
  dsimp only
  rw [Nat.zero_mul, Nat.zero_add]

theorem place_lt (h : InRange shape index) : place shape index < volume shape := by
  have hrange := h
  unfold InRange at h
  induction h with
  | nil => exact Nat.one_pos
  | @cons i d index shape hi h ih =>
    rw [place_cons hi h]
    exact row_add_lt hi (ih h)

/-- Indices in lexicographic order have positions in order. -/
theorem place_lt_place (h : InRange shape index) (h' : InRange shape index')
    (hlt : index < index') : place shape index < place shape index' := by
  have hrange := h
  unfold InRange at h
  induction h generalizing index' with
  | nil =>
    obtain rfl := List.forall₂_nil_right_iff.mp h'
    exact absurd hlt (lt_irrefl _)
  | @cons i d index shape hi h ih =>
    obtain ⟨i', index', hi', hrest', rfl⟩ := List.forall₂_cons_right_iff.mp h'
    rw [place_cons hi h, place_cons hi' hrest']
    rcases List.cons_lt_cons_iff.mp hlt with hfirst | ⟨rfl, hrest⟩
    · have hblocks := row_add_lt hfirst (place_lt h)
      omega
    · exact Nat.add_lt_add_left (ih hrest' hrest h) _

/-- Every position below the volume is that of an index. -/
theorem exists_inRange_place {p : ℕ} (hp : p < volume shape) :
    ∃ index, InRange shape index ∧ place shape index = p := by
  induction shape generalizing p with
  | nil => exact ⟨[], .nil, (Nat.lt_one_iff.mp hp).symm⟩
  | cons d shape ih =>
    rw [Tensor.volume_cons] at hp
    have hpos : 0 < volume shape := Nat.pos_of_lt_mul_left hp
    obtain ⟨index, h, hplace⟩ := ih (Nat.mod_lt p hpos)
    have hfirst : p / volume shape < d := Nat.div_lt_of_lt_mul (Nat.mul_comm d _ ▸ hp)
    refine ⟨p / volume shape :: index, .cons hfirst h, ?_⟩
    rw [place_cons hfirst h, hplace, Nat.mul_comm, Nat.div_add_mod]

theorem place_injOn (shape : List ℕ) : Set.InjOn (place shape) {index | InRange shape index} := by
  intro index h index' h' heq
  rcases lt_trichotomy index index' with hlt | rfl | hlt
  · have := place_lt_place h h' hlt
    omega
  · rfl
  · have := place_lt_place h' h hlt
    omega

/-- The indices in range are carried one to one onto the positions. -/
theorem bijOn_place (shape : List ℕ) :
    Set.BijOn (place shape) {index | InRange shape index} (Set.Iio (volume shape)) :=
  ⟨fun _ h => place_lt h, place_injOn shape, fun _ hp => exists_inRange_place hp⟩

/-! ## Split shapes -/

theorem inRange_append (h : InRange shape index) (h' : InRange shape' index') :
    InRange (shape ++ shape') (index ++ index') := by
  unfold InRange at h
  induction h with
  | nil => exact h'
  | cons hi _ ih => exact .cons hi ih

/-- An index is split where the shape is. -/
theorem exists_of_inRange_append (h : InRange (shape ++ shape') index) :
    ∃ o i, index = o ++ i ∧ InRange shape o ∧ InRange shape' i :=
  ⟨index.take shape.length, index.drop shape.length, (List.take_append_drop _ _).symm,
    List.forall₂_take_append _ _ _ h, List.forall₂_drop_append _ _ _ h⟩

/-- Without its last number, an index is in range without the last dimension. -/
theorem inRange_of_concat {i n : ℕ} (h : InRange (shape ++ [n]) (index ++ [i])) :
    InRange shape index := by
  have hreverse := List.forall₂_reverse_iff.mpr h
  rw [List.reverse_append, List.reverse_append] at hreverse
  exact List.forall₂_reverse_iff.mp (List.forall₂_cons.mp hreverse).2

theorem place_append (h : InRange shape index) (h' : InRange shape' index') :
    place (shape ++ shape') (index ++ index') =
      place shape index * volume shape' + place shape' index' := by
  have hrange := h
  unfold InRange at h
  induction h with
  | nil => simp
  | @cons i d index shape hi h ih =>
    rw [List.cons_append, List.cons_append, place_cons hi (inRange_append h h'), ih h,
      place_cons hi h, Tensor.volume_append]
    ring

/-- The position at an axis between other dimensions. -/
theorem place_axis {n k : ℕ} (hk : k < n) (h : InRange shape index) (h' : InRange shape' index') :
    place (shape ++ n :: shape') (index ++ k :: index') =
      (place shape index * n + k) * volume shape' + place shape' index' := by
  rw [place_append h (.cons hk h'), place_cons hk h', Tensor.volume_cons]
  ring

/-- The shape around an axis. -/
theorem split_at_axis {axis n : ℕ} (h : shape[axis]? = some n) :
    shape = shape.take axis ++ n :: shape.drop (axis + 1) ∧ (shape.take axis).length = axis := by
  obtain ⟨hlt, rfl⟩ := List.getElem?_eq_some_iff.mp h
  refine ⟨?_, List.length_take_of_le hlt.le⟩
  rw [← List.drop_eq_getElem_cons hlt, List.take_append_drop]

theorem set_axis {axis n : ℕ} (h : shape[axis]? = some n) (m : ℕ) :
    shape.set axis m = shape.take axis ++ m :: shape.drop (axis + 1) :=
  List.set_eq_take_append_cons_drop.trans (if_pos (List.getElem?_eq_some_iff.mp h).1)

/-! ## Entries by index -/

section Entries

variable {α : Type}

theorem get?_eq_none_iff {t : Tensor α} : t.get? index = none ↔ ¬ InRange t.shape index := by
  unfold Tensor.get?
  by_cases h : InRange t.shape index
  · have hlt : place t.shape index < t.data.size := (place_lt h).trans_eq t.size_eq_volume.symm
    simp [position?_eq_some h, h, hlt]
  · simp [position?_eq_none_iff.mpr h, h]

theorem get?_eq_some [Zero α] {t : Tensor α} (h : InRange t.shape index) :
    t.get? index = some (t.valueAt index) := by
  have hlt : place t.shape index < t.data.size := (place_lt h).trans_eq t.size_eq_volume.symm
  unfold Tensor.get? Tensor.valueAt Tensor.entry
  simp [position?_eq_some h, Array.getD, hlt]

/-- Tensors of one shape with equal entries are equal. -/
theorem ext_valueAt [Zero α] {a b : Tensor α} (hshape : a.shape = b.shape)
    (h : ∀ index, InRange a.shape index → a.valueAt index = b.valueAt index) : a = b := by
  refine Tensor.ext_entry hshape fun p hp => ?_
  obtain ⟨index, hindex, rfl⟩ := exists_inRange_place hp
  have heq := h index hindex
  unfold Tensor.valueAt at heq
  rwa [← hshape] at heq

end Entries

end Proofs

end CircuitGrad
