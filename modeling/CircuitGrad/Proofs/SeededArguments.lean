import CircuitGrad.Proofs.RowMajor

/-! # Arguments as inputs

    The differentiable arguments of a call share out the inputs: each has a
    stretch as long as its values, and the stretches stand one after the other
    and leave no input over (`flatMap_stretches`).  The number of inputs that
    the seeds span is counted before the stretches are laid out; that it is
    the number of inputs of the layout (`inputCount_slotsFrom`) is what makes
    every seed one of them.

    A circuit function reads its arguments by index.  As the values of an
    argument fill its shape (`filled_of_constructed`), the indices in range
    name the entries one to one.
-/

namespace CircuitGrad

variable {α : Type}

/-- The arguments that there are: values and shapes are not set but by these. -/
inductive Argument.Constructed : Argument α → Prop
  | scalar (x : α) : Constructed (.scalar x)
  | vector (xs : List α) : Constructed (.vector xs)
  | array {shape : List ℕ} {values : List α} {a : Argument α}
      (h : Argument.array shape values = .ok a) : Constructed a
  | batch {shape : List ℕ} {values : List α} {a : Argument α}
      (h : Argument.batch shape values = .ok a) : Constructed a
  | constant {a : Argument α} (h : Constructed a) : Constructed a.constant
  | slice {a b : Argument α} {i : ℕ} (h : Constructed a) (hslice : a.slice i = .ok b) :
      Constructed b
  | withValues {a b : Argument α} {values : List α} (h : Constructed a)
      (hvalues : a.withValues values = .ok b) : Constructed b

/-- The entries are read by row-major index. -/
structure TracedArgument.RowMajor (x : TracedArgument α) : Prop where
  bijective : Set.BijOn (Tensor.place x.shape) {index | Tensor.InRange x.shape index}
    (Set.Iio x.entries.length)
  ordered   : ∀ index index', Tensor.InRange x.shape index → Tensor.InRange x.shape index' →
    index < index' → Tensor.place x.shape index < Tensor.place x.shape index'
  inside    : ∀ index, Tensor.InRange x.shape index →
    x.get? index = x.entries[Tensor.place x.shape index]?
  outside   : ∀ index, ¬ Tensor.InRange x.shape index → x.get? index = none

/-- The jet is input number `index`. -/
structure Jet.IsInput [Scalar α] (y : Jet α) (index inputs : ℕ) (secondOrder : Bool) : Prop where
  lt         : index < inputs
  gradient   : y.gradient? = some ((List.range inputs).map fun m => if m = index then 1 else 0)
  slope      : ∀ m, y.slope m = if m = index then 1 else 0
  tracked    : y.hasSecondOrder = secondOrder
  unbent     : ∀ p q, y.bend p q = 0

/-- What the circuit function sees of its arguments, and where they stand among the inputs. -/
structure Argument.SeededAs [Scalar α] (args : List (Argument α)) (order : ℕ)
    (traced : List (TracedArgument α)) (layout : ArgumentLayout) : Prop where
  slots          : layout.argumentCount = args.length
  differentiable : ∀ i, i ∈ layout.differentiable ↔
    ∃ a : Argument α, args[i]? = some a ∧ a.differentiable = true
  ordered        : layout.differentiable.Pairwise (· < ·)
  inputs         : ∀ (i : ℕ) (a : Argument α), args[i]? = some a →
    if a.differentiable then ∃ start, layout.inputs? i = some (start, a.values.length)
    else layout.inputs? i = none
  /-- Read in order, the stretches list every input once. -/
  partition      : (layout.differentiable.filterMap layout.inputs?).flatMap
    (fun (start, count) => List.range' start count) = List.range layout.inputCount
  values         : List.Forall₂ (fun a x => x.shape = a.shape ∧ x.entries.map (·.value) = a.values)
    args traced
  /-- Entry `j` of a differentiable argument is the `j`-th input of its stretch. -/
  seeded         : ∀ (i : ℕ) (x : TracedArgument α) (start count : ℕ), traced[i]? = some x →
    layout.inputs? i = some (start, count) → ∀ (j : ℕ) (y : Jet α), x.entries[j]? = some y →
      y.IsInput (start + j) layout.inputCount (decide (2 ≤ order))
  constant       : ∀ (i : ℕ) (x : TracedArgument α), traced[i]? = some x → layout.inputs? i = none →
    ∀ y ∈ x.entries, y.isConstant = true
  rowMajor       : ∀ x ∈ traced, x.RowMajor

namespace Proofs

open Tensor (InRange place volume)

/-! ## Filled shapes -/

section Filled

theorem filled_of_array {shape : List ℕ} {values : List α} {a : Argument α}
    (h : Argument.array shape values = .ok a) : a.values.length = volume a.shape := by
  unfold Argument.array at h
  dsimp only at h
  split at h
  · cases h
  · next hcount =>
    obtain rfl := Except.ok.inj h
    exact (not_not.mp hcount).symm

/-- A slice has the entries of one index of the batch dimension. -/
theorem filled_of_slice {a b : Argument α} {i : ℕ} (h : a.values.length = volume a.shape)
    (hslice : a.slice i = .ok b) : b.values.length = volume b.shape := by
  unfold Argument.slice at hslice
  cases hsize : a.batchSize? with
  | none =>
    rw [hsize] at hslice
    cases hslice
  | some size =>
    rw [hsize] at hslice
    dsimp only at hslice
    split at hslice
    · cases hslice
    · next hi =>
      obtain rfl := Except.ok.inj hslice
      obtain ⟨rest, hshape⟩ : ∃ rest, a.shape = size :: rest := by
        unfold Argument.batchSize? at hsize
        split at hsize
        · exact List.head?_eq_some_iff.mp hsize
        · cases hsize
      rw [hshape, Tensor.volume_cons] at h
      have hpos : 0 < size := by omega
      have hinner : a.values.length / size = volume rest := by
        rw [h, Nat.mul_div_cancel_left _ hpos]
      have hend : (i + 1) * volume rest ≤ size * volume rest :=
        Nat.mul_le_mul_right _ (by omega)
      rw [Nat.succ_mul] at hend
      dsimp only
      rw [hinner, hshape, List.length_take, List.length_drop, List.drop_one, List.tail_cons]
      omega

theorem filled_of_constructed {a : Argument α} (h : a.Constructed) :
    a.values.length = volume a.shape := by
  induction h with
  | scalar x => rfl
  | vector xs => exact (Nat.mul_one _).symm
  | array h => exact filled_of_array h
  | batch h =>
    unfold Argument.batch at h
    split at h
    · cases h
    · obtain ⟨own, hown, h⟩ := bind_eq_ok h
      obtain rfl := Except.ok.inj h
      exact filled_of_array (a := own) hown
  | constant _ ih => exact ih
  | slice _ hslice ih => exact filled_of_slice ih hslice
  | withValues _ hvalues ih =>
    unfold Argument.withValues at hvalues
    split at hvalues
    · cases hvalues
    · next hcount =>
      obtain rfl := Except.ok.inj hvalues
      exact (not_not.mp hcount).trans ih

end Filled

/-! ## Stretches of inputs -/

section Stretches

/-- The slots of arguments whose inputs start at `offset`. -/
def slotsFrom (offset : ℕ) (args : List (Argument α)) : List ArgumentSlot :=
  (args.zip (Argument.offsets offset args)).map fun (a, start) =>
    ⟨a.shape, if a.differentiable then some start else none⟩

variable {args : List (Argument α)} {layout : ArgumentLayout}

theorem slotsFrom_cons (offset : ℕ) (a : Argument α) (args : List (Argument α)) :
    slotsFrom offset (a :: args) =
      ⟨a.shape, if a.differentiable then some offset else none⟩ ::
        slotsFrom (offset + a.inputCount) args := rfl

/-- Arguments stand beside their first inputs. -/
theorem getElem?_zip_offsets {offset i : ℕ} {a : Argument α} (ha : args[i]? = some a) :
    (args.zip (Argument.offsets offset args))[i]? =
      some (a, offset + ((args.take i).map (·.inputCount)).sum) := by
  induction args generalizing offset i with
  | nil => cases ha
  | cons first args ih =>
    cases i with
    | zero =>
      obtain rfl := Option.some.inj ha
      rfl
    | succ i =>
      have hrest := @ih (offset + first.inputCount) i ha
      simp only [Argument.offsets, List.zip_cons_cons, List.getElem?_cons_succ, List.take_succ_cons,
        List.map_cons, List.sum_cons, hrest, Nat.add_assoc]

theorem length_offsets (offset : ℕ) (args : List (Argument α)) :
    (Argument.offsets offset args).length = args.length := by
  induction args generalizing offset with
  | nil => rfl
  | cons a args ih => exact congrArg (· + 1) (ih (offset + a.inputCount))

theorem length_zip_offsets (offset : ℕ) (args : List (Argument α)) :
    (args.zip (Argument.offsets offset args)).length = args.length := by
  rw [List.length_zip, length_offsets, min_self]

/-- The inputs of all slots are those of all arguments. -/
theorem inputCount_slotsFrom (hfilled : ∀ a ∈ args, a.values.length = volume a.shape)
    (offset : ℕ) :
    (ArgumentLayout.mk (slotsFrom offset args)).inputCount = (args.map (·.inputCount)).sum := by
  unfold ArgumentLayout.inputCount
  induction args generalizing offset with
  | nil => rfl
  | cons a args ih =>
    obtain ⟨hfirst, hothers⟩ := List.forall_mem_cons.mp hfilled
    have hrest := ih hothers (offset + a.inputCount)
    dsimp only at hrest ⊢
    rw [List.map_cons, List.sum_cons, ← hrest, slotsFrom_cons]
    cases hkind : a.differentiable with
    | true => simp [Argument.inputCount, ArgumentSlot.size, hkind, hfirst]
    | false => simp [Argument.inputCount, hkind]

/-- Where an argument stands. -/
theorem inputs?_slotsFrom {i : ℕ} {a : Argument α} (ha : args[i]? = some a) :
    (ArgumentLayout.mk (slotsFrom 0 args)).inputs? i =
      if a.differentiable then some (((args.take i).map (·.inputCount)).sum, volume a.shape)
      else none := by
  have hslot : (slotsFrom 0 args)[i]? = some ⟨a.shape, if a.differentiable then
      some ((args.take i).map (·.inputCount)).sum else none⟩ := by
    unfold slotsFrom
    rw [List.getElem?_map, getElem?_zip_offsets ha, Nat.zero_add]
    rfl
  unfold ArgumentLayout.inputs?
  dsimp only
  rw [hslot]
  cases a.differentiable <;> rfl

theorem inputs?_slotsFrom_none {i : ℕ} (hi : args[i]? = none) :
    (ArgumentLayout.mk (slotsFrom 0 args)).inputs? i = none := by
  have hslot : (slotsFrom 0 args)[i]? = none := by
    unfold slotsFrom
    rw [List.getElem?_eq_none_iff, List.length_map, length_zip_offsets]
    exact List.getElem?_eq_none_iff.mp hi
  unfold ArgumentLayout.inputs?
  dsimp only
  rw [hslot]
  rfl

/-- The inputs of an argument are among those of all arguments. -/
theorem sum_take_add_le {i : ℕ} {a : Argument α} (ha : args[i]? = some a) :
    ((args.take i).map (·.inputCount)).sum + a.inputCount ≤ (args.map (·.inputCount)).sum := by
  obtain ⟨hi, rfl⟩ := List.getElem?_eq_some_iff.mp ha
  conv_rhs => rw [← List.take_append_drop i args, List.drop_eq_getElem_cons hi]
  rw [List.map_append, List.sum_append, List.map_cons, List.sum_cons]
  omega

/-- The stretches of a layout are those of its slots. -/
theorem filterMap_inputs? (layout : ArgumentLayout) :
    layout.differentiable.filterMap layout.inputs? =
      layout.slots.filterMap fun slot => slot.offset.map fun start => (start, slot.size) := by
  unfold ArgumentLayout.differentiable
  rw [List.filterMap_map, List.filterMap_filter]
  conv_rhs => rw [← List.zipIdx_map_fst 0 layout.slots, List.filterMap_map]
  refine List.filterMap_congr fun e he => ?_
  obtain ⟨slot, i⟩ := e
  have hslot : layout.slots[i]? = some slot := List.mem_zipIdx_iff_getElem?.mp he
  unfold ArgumentLayout.inputs?
  cases hoffset : slot.offset <;> simp [hslot, hoffset]

/-- The stretches, one after the other, are all inputs. -/
theorem flatMap_stretches (hfilled : ∀ a ∈ args, a.values.length = volume a.shape) (offset : ℕ) :
    ((slotsFrom offset args).filterMap fun slot =>
      slot.offset.map fun start => (start, slot.size)).flatMap
        (fun (start, count) => List.range' start count) =
      List.range' offset (args.map (·.inputCount)).sum := by
  induction args generalizing offset with
  | nil => rfl
  | cons a args ih =>
    obtain ⟨hfirst, hothers⟩ := List.forall_mem_cons.mp hfilled
    have hrest := ih hothers (offset + a.inputCount)
    rw [slotsFrom_cons, List.map_cons, List.sum_cons, ← List.range'_append_1, ← hrest]
    cases hkind : a.differentiable with
    | true => simp [Argument.inputCount, ArgumentSlot.size, hkind, hfirst]
    | false => simp [Argument.inputCount, hkind]

theorem mem_differentiable {i : ℕ} :
    i ∈ layout.differentiable ↔ (layout.inputs? i).isSome = true := by
  have hinputs : (layout.inputs? i).isSome = true ↔
      ∃ slot, layout.slots[i]? = some slot ∧ slot.offset.isSome = true := by
    unfold ArgumentLayout.inputs?
    cases layout.slots[i]? with
    | none => simp
    | some slot => cases hoffset : slot.offset <;> simp [hoffset]
  rw [hinputs]
  unfold ArgumentLayout.differentiable
  simp only [List.mem_map, List.mem_filter]
  constructor
  · rintro ⟨⟨slot, _⟩, ⟨hslot, hsome⟩, rfl⟩
    exact ⟨slot, List.mem_zipIdx_iff_getElem?.mp hslot, hsome⟩
  · rintro ⟨slot, hslot, hsome⟩
    exact ⟨(slot, i), ⟨List.mem_zipIdx_iff_getElem?.mpr hslot, hsome⟩, rfl⟩

/-- The differentiable arguments are listed in order. -/
theorem pairwise_differentiable (layout : ArgumentLayout) :
    layout.differentiable.Pairwise (· < ·) := by
  unfold ArgumentLayout.differentiable
  rw [List.pairwise_map]
  refine List.Pairwise.filter _ ?_
  rw [← List.pairwise_map (f := Prod.snd) (R := (· < ·)), List.zipIdx_map_snd]
  exact List.pairwise_lt_range'

end Stretches

/-! ## Entries -/

section Entries

/-- Entries that fill the shape are read by index. -/
theorem rowMajor_of_filled {x : TracedArgument α} (h : x.entries.length = volume x.shape) :
    x.RowMajor where
  bijective := h ▸ bijOn_place x.shape
  ordered _ _ hindex hindex' hlt := place_lt_place hindex hindex' hlt
  inside index hindex := by
    unfold TracedArgument.get?
    rw [position?_eq_some hindex]
    rfl
  outside index hindex := by
    unfold TracedArgument.get?
    rw [position?_eq_none_iff.mpr hindex]
    rfl

variable [Scalar α]

theorem isInput_seed {x : α} {index inputs : ℕ} (h : index < inputs) (secondOrder : Bool) :
    (Jet.seed x index inputs secondOrder).IsInput index inputs secondOrder where
  lt := h
  gradient := by simp [Jet.gradient?, Jet.seed]
  slope := by
    intro m
    unfold Jet.slope Jet.gradient? Jet.seed
    by_cases hm : m < inputs
    · simp [hm]
    · have hne : m ≠ index := by omega
      simp [hm, hne]
  tracked := by cases secondOrder <;> rfl
  unbent := by
    intro p q
    cases secondOrder <;> rfl

theorem map_value_traced (a : Argument α) (offset inputs : ℕ) (secondOrder : Bool) :
    (a.traced offset inputs secondOrder).entries.map (·.value) = a.values := by
  unfold Argument.traced
  cases hkind : a.differentiable with
  | true =>
    simp only [if_true, List.map_map]
    exact List.zipIdx_map_fst 0 a.values
  | false =>
    simp only [Bool.false_eq_true, if_false, List.map_map]
    exact List.map_id a.values

theorem length_entries_traced (a : Argument α) (offset inputs : ℕ) (secondOrder : Bool) :
    (a.traced offset inputs secondOrder).entries.length = a.values.length := by
  rw [← map_value_traced a offset inputs secondOrder, List.length_map]

/-- The entries of a differentiable argument are inputs. -/
theorem entry_traced {a : Argument α} (hkind : a.differentiable = true) {offset inputs j : ℕ}
    {secondOrder : Bool} {y : Jet α}
    (h : (a.traced offset inputs secondOrder).entries[j]? = some y) :
    j < a.values.length ∧ ∃ v, y = Jet.seed v (offset + j) inputs secondOrder := by
  unfold Argument.traced at h
  simp only [hkind, if_true, List.getElem?_map, Option.map_eq_some_iff] at h
  obtain ⟨⟨v, m⟩, hv, rfl⟩ := h
  obtain ⟨hlt, hentry⟩ := List.getElem?_eq_some_iff.mp hv
  rw [List.getElem_zipIdx] at hentry
  obtain ⟨rfl, rfl⟩ := Prod.mk.inj hentry
  rw [List.length_zipIdx] at hlt
  exact ⟨hlt, _, by rw [Nat.zero_add]⟩

/-- Those of the others are constants. -/
theorem isConstant_of_mem_traced {a : Argument α} (hkind : a.differentiable = false)
    {offset inputs : ℕ} {secondOrder : Bool} {y : Jet α}
    (h : y ∈ (a.traced offset inputs secondOrder).entries) : y.isConstant = true := by
  unfold Argument.traced at h
  simp only [hkind, Bool.false_eq_true, if_false] at h
  obtain ⟨v, -, rfl⟩ := List.mem_map.mp h
  rfl

end Entries

/-! ## Seeding -/

section Seeding

variable [Scalar α] {args : List (Argument α)}

/-- What a circuit function sees of arguments without a batch dimension. -/
def tracedFrom (args : List (Argument α)) (secondOrder : Bool) : List (TracedArgument α) :=
  (args.zip (Argument.offsets 0 args)).map fun (a, start) =>
    a.traced start (args.map (·.inputCount)).sum secondOrder

theorem seed_of_unbatched (h : ∀ a ∈ args, a.batched = false) (order : ℕ) :
    Argument.seed args order = .ok (tracedFrom args (decide (2 ≤ order)), ⟨slotsFrom 0 args⟩) := by
  have hnone : args.findIdx? (·.batched) = none := by simpa using h
  unfold Argument.seed
  rw [hnone]
  rfl

/-- What stands at a place comes from the argument there. -/
theorem exists_of_tracedFrom {secondOrder : Bool} {i : ℕ} {x : TracedArgument α}
    (hx : (tracedFrom args secondOrder)[i]? = some x) :
    ∃ a, args[i]? = some a ∧ x = a.traced ((args.take i).map (·.inputCount)).sum
      (args.map (·.inputCount)).sum secondOrder := by
  unfold tracedFrom at hx
  rw [List.getElem?_map] at hx
  obtain ⟨e, he, rfl⟩ := Option.map_eq_some_iff.mp hx
  have hi : i < args.length := by
    rw [← length_zip_offsets 0 args]
    exact (List.getElem?_eq_some_iff.mp he).1
  have ha := List.getElem?_eq_getElem hi
  obtain rfl := Option.some.inj (he.symm.trans (getElem?_zip_offsets ha))
  exact ⟨_, ha, by rw [Nat.zero_add]⟩

/-- The arguments and what is seen of them. -/
theorem forall₂_tracedFrom (args : List (Argument α)) (secondOrder : Bool) :
    List.Forall₂ (fun a x => x.shape = a.shape ∧ x.entries.map (·.value) = a.values) args
      (tracedFrom args secondOrder) := by
  have hargs : (args.zip (Argument.offsets 0 args)).map Prod.fst = args :=
    List.map_fst_zip (length_offsets 0 args).ge
  unfold tracedFrom
  conv => arg 2; rw [← hargs]
  rw [List.forall₂_map_left_iff, List.forall₂_map_right_iff, List.forall₂_same]
  exact fun e _ => ⟨rfl, map_value_traced _ _ _ _⟩

/-- Arguments without a batch dimension are seeded. -/
theorem seededAs_of_filled (hfilled : ∀ a ∈ args, a.values.length = volume a.shape) (order : ℕ) :
    Argument.SeededAs args order (tracedFrom args (decide (2 ≤ order))) ⟨slotsFrom 0 args⟩ where
  slots := by
    unfold ArgumentLayout.argumentCount slotsFrom
    rw [List.length_map, length_zip_offsets]
  differentiable := by
    intro i
    rw [mem_differentiable]
    cases ha : args[i]? with
    | none => simp [inputs?_slotsFrom_none ha]
    | some a => cases hkind : a.differentiable <;> simp [inputs?_slotsFrom ha, hkind]
  ordered := pairwise_differentiable _
  inputs := by
    intro i a ha
    rw [inputs?_slotsFrom ha]
    cases a.differentiable with
    | true => exact ⟨_, by rw [if_pos rfl, hfilled a (List.mem_of_getElem? ha)]⟩
    | false => rfl
  partition := by
    rw [filterMap_inputs?, inputCount_slotsFrom hfilled, List.range_eq_range']
    exact flatMap_stretches hfilled 0
  values := forall₂_tracedFrom args _
  seeded := by
    intro i x start count hx hinputs j y hy
    obtain ⟨a, ha, rfl⟩ := exists_of_tracedFrom hx
    rw [inputs?_slotsFrom ha] at hinputs
    cases hkind : a.differentiable with
    | false => simp [hkind] at hinputs
    | true =>
      simp only [hkind, if_true, Option.some.injEq, Prod.mk.injEq] at hinputs
      obtain ⟨rfl, -⟩ := hinputs
      obtain ⟨hj, v, rfl⟩ := entry_traced hkind hy
      -- The stretch of the argument ends before the last input.
      have hle := sum_take_add_le ha
      have hown : a.inputCount = a.values.length := if_pos hkind
      rw [inputCount_slotsFrom hfilled]
      exact isInput_seed (by omega) _
  constant := by
    intro i x hx hinputs
    obtain ⟨a, ha, rfl⟩ := exists_of_tracedFrom hx
    rw [inputs?_slotsFrom ha] at hinputs
    cases hkind : a.differentiable with
    | true => simp [hkind] at hinputs
    | false => exact fun y hy => isConstant_of_mem_traced hkind hy
  rowMajor := by
    intro x hx
    obtain ⟨i, hi⟩ := List.getElem?_of_mem hx
    obtain ⟨a, ha, rfl⟩ := exists_of_tracedFrom hi
    refine rowMajor_of_filled ?_
    rw [length_entries_traced]
    exact hfilled a (List.mem_of_getElem? ha)

/-- The first argument with a batch dimension is refused. -/
theorem seed_of_batched {a : Argument α} (ha : a ∈ args) (hbatched : a.batched = true)
    (order : ℕ) :
    ∃ i b, args[i]? = some b ∧ b.batched = true ∧ (∀ b ∈ args.take i, b.batched = false) ∧
      Argument.seed args order = (ArgumentFault.batchedSeed i).error := by
  cases hfirst : args.findIdx? (·.batched) with
  | none =>
    rw [List.findIdx?_eq_none_iff] at hfirst
    cases hbatched.symm.trans (hfirst a ha)
  | some i =>
    obtain ⟨hi, hown, hbefore⟩ := List.findIdx?_eq_some_iff_getElem.mp hfirst
    refine ⟨i, args[i], List.getElem?_eq_getElem hi, hown, ?_, ?_⟩
    · intro b hb
      obtain ⟨j, hj, rfl⟩ := List.mem_take_iff_getElem.mp hb
      simpa using hbefore j (by omega)
    · unfold Argument.seed
      rw [hfirst]

/-- Arguments with a batch dimension are refused.  All others are seeded: those that are
    differentiable share out the inputs in order, each entry the input of its own, and every entry
    is read by its row-major index. -/
theorem seed_layout (hargs : ∀ a ∈ args, a.Constructed) (order : ℕ) :
    (∀ a ∈ args, a.batched = true → ∃ i b, args[i]? = some b ∧ b.batched = true ∧
      (∀ b ∈ args.take i, b.batched = false) ∧
      Argument.seed args order = (ArgumentFault.batchedSeed i).error) ∧
    ((∀ a ∈ args, a.batched = false) → ∃ traced layout,
      Argument.seed args order = .ok (traced, layout) ∧
        Argument.SeededAs args order traced layout) := by
  refine ⟨fun a ha hbatched => seed_of_batched ha hbatched order, fun hnone => ?_⟩
  exact ⟨_, _, seed_of_unbatched hnone order,
    seededAs_of_filled (fun a ha => filled_of_constructed (hargs a ha)) order⟩

/-- A constant, two inputs, an argument without entries and a grid; and a batch behind them. -/
theorem seed_layout_grid :
    let grid : Argument ℝ := ⟨[1, 2, 3, 4], [2, 2], true, false⟩
    let batch : Argument ℝ := ⟨[5, 6], [2, 1], true, true⟩
    let args : List (Argument ℝ) := [(Argument.scalar 7).constant, .vector [8, 9], .vector [], grid]
    (∀ a ∈ args ++ [batch], a.Constructed) ∧
    (∃ traced layout, Argument.seed args 2 = .ok (traced, layout) ∧
      Argument.SeededAs args 2 traced layout ∧
        (layout.inputCount, layout.inputs? 3) = (6, some (2, 4))) ∧
    Argument.seed (args ++ [batch]) 2 = (ArgumentFault.batchedSeed 4).error := by
  intro grid batch args
  have hgrid : Argument.array [2, 2] [1, 2, 3, 4] = .ok grid := rfl
  have hbatch : Argument.batch [2, 1] [5, 6] = .ok batch := rfl
  have hargs : ∀ a ∈ args, a.Constructed := by
    simp only [args, List.forall_mem_cons]
    exact ⟨.constant (.scalar 7), .vector _, .vector _, .array hgrid, by simp⟩
  have hall : ∀ a ∈ args ++ [batch], a.Constructed := by
    exact List.forall_mem_append.mpr ⟨hargs, List.forall_mem_singleton.mpr (.batch hbatch)⟩
  refine ⟨hall, ?_, ?_⟩
  · obtain ⟨traced, layout, hseed, hseeded⟩ := (seed_layout hargs 2).2 (by simp [args, grid,
      Argument.vector, Argument.scalar, Argument.constant])
    have hlayout : (Argument.seed args 2).map (fun r => (r.2.inputCount, r.2.inputs? 3)) =
      .ok (6, some (2, 4)) := rfl
    rw [hseed] at hlayout
    exact ⟨traced, layout, hseed, hseeded, Except.ok.inj hlayout⟩
  · obtain ⟨i, b, hi, hb, -, hseed⟩ := (seed_layout hall 2).1 batch (by simp) rfl
    obtain rfl : i = 4 := by
      match i with
      | 0 | 1 | 2 | 3 => cases Option.some.inj hi; cases hb
      | 4 => rfl
      | i + 5 => cases hi
    exact hseed

end Seeding

end Proofs

end CircuitGrad
