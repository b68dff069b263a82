import Mathlib
import CircuitGrad.Proofs.BatchBinding
import CircuitGrad.Proofs.DifferentiableTrace
import CircuitGrad.Proofs.PlanResults

/-! # Flat parameters

    The parameters of a trace are counted flat, over the parameter lists of
    its operations.  A flat index is found by a search that subtracts the
    lengths of these lists, while values and flags are handed out by cutting
    stretches of these lengths; an operation may have no parameter, one or
    several.

    Both agree with the concatenated list.  The search numbers the slots of
    the operations in lexicographic order (`exists_numbering`), and what it
    writes to is the entry of the flat index (`params_modify`).  A trace with
    given operations is determined by its parameters (`eq_of_boundTo`), so that
    laws of writing are laws of the list of values (`foldlM_withParam`).
-/

namespace CircuitGrad

variable {α : Type}

namespace Trace

/-- Places of the parameters: an operation by position, and a position in its list. -/
def slots (t : Trace α) : Set (ℕ ×ₗ ℕ) :=
  {s | ∃ op, t.operations[(ofLex s).1]? = some op ∧ (ofLex s).2 < op.params.length}

/-- Two traces differ at most in their parameters. -/
structure SameCircuit (t u : Trace α) : Prop where
  settings     : t.SameSettings u
  measurements : u.measurements = t.measurements
  operations   : List.Forall₂ Operation.Reparametrized t.operations u.operations

/-- A trace that differs from another one in the values of the parameters alone, which are the
    given ones. -/
structure BoundTo (t : Trace α) (values : List α) (u : Trace α) : Prop
    extends t.SameCircuit u where
  derivatives : u.params.map (·.derivatives) = t.params.map (·.derivatives)
  values      : u.values = values

/-- A trace that differs from another one in trainability alone: exactly the parameters at the
    given flat indices are trainable, with the derivatives that they had. -/
structure MarkedAt (t : Trace α) (indices : List ℕ) (u : Trace α) : Prop
    extends t.SameCircuit u where
  values    : u.values = t.values
  trainable : u.trainableIndices = indices.toFinset.sort
  kept      : ∀ i ∈ indices, ∀ p, t.params[i]? = some p → p.isTrainable → u.params[i]? = some p

/-- Flat indices number the slots of a trace in order, and the list of its parameters. -/
structure Numbered (t : Trace α) : Prop where
  location : ∃ e : Fin t.paramCount ≃o t.slots, ∀ i : Fin t.paramCount,
    t.paramLocation? i = some (ofLex (e i).1)
  beyond   : ∀ i, t.paramCount ≤ i → t.paramLocation? i = none
  param    : ∀ i : ℕ, t.param? i = t.params[i]?
  value    : ∀ i : ℕ, (t.param? i).map (·.value) = t.values[i]?

/-- Parameters can be written to, one after another or all at once. -/
structure Writable (t : Trace α) : Prop where
  write   : ∀ i x, i < t.paramCount → ∃ u, t.withParam i x = .ok u ∧
    t.BoundTo (t.values.set i x) u
  beyond  : ∀ i x, t.paramCount ≤ i →
    t.withParam i x = .error (.invalidArgument (.parameterIndex i))
  again   : ∀ i x y, i < t.paramCount → (t.withParam i x >>= (·.withParam i y)) = t.withParam i y
  commute : ∀ i j x y, i < t.paramCount → j < t.paramCount → i ≠ j →
    (t.withParam i x >>= (·.withParam j y)) = (t.withParam j y >>= (·.withParam i x))
  all     : ∀ values, values.length = t.paramCount → ∃ u, t.withValues values = .ok u ∧
    t.BoundTo values u ∧
    ((List.range t.paramCount).zip values).foldlM (fun v (i, x) => v.withParam i x) t = .ok u ∧
    u.withValues t.values = .ok t
  length  : ∀ values, values.length ≠ t.paramCount →
    t.withValues values = .error (.invalidArgument (.parameterValues t.paramCount values.length))

/-- Parameters can be marked as trainable. -/
structure Markable [Scalar α] (t : Trace α) : Prop where
  mark   : ∀ indices, (∀ i ∈ indices, i < t.paramCount) → ∃ u, t.withTrainable indices = .ok u ∧
    t.MarkedAt indices u
  beyond : ∀ indices, (∃ i ∈ indices, t.paramCount ≤ i) → ∃ i ∈ indices, t.paramCount ≤ i ∧
    t.withTrainable indices = .error (.invalidArgument (.parameterIndexOf i t.paramCount))

end Trace

namespace Proofs

/-! ## Numbering -/

section Numbering

variable {ops : List (Operation α)} {t : Trace α}

/-- The search numbers the slots of operations in lexicographic order. -/
theorem locate?_lt {i j : ℕ} {a b : ℕ × ℕ} (ha : Trace.locate? ops i = some a)
    (hb : Trace.locate? ops j = some b) (hij : i < j) : toLex a < toLex b := by
  induction ops generalizing i j a b with
  | nil => cases ha
  | cons op rest ih =>
    rw [Trace.locate?] at ha hb
    -- Both indices belong to the first operation, or the lower one alone, or neither.
    by_cases hi : i < op.params.length
    · rw [if_pos hi] at ha
      obtain rfl := Option.some.inj ha
      by_cases hj : j < op.params.length
      · rw [if_pos hj] at hb
        obtain rfl := Option.some.inj hb
        exact Prod.Lex.toLex_lt_toLex.mpr (.inr ⟨rfl, hij⟩)
      · rw [if_neg hj] at hb
        obtain ⟨b', -, rfl⟩ := Option.map_eq_some_iff.mp hb
        exact Prod.Lex.toLex_lt_toLex.mpr (.inl (Nat.succ_pos _))
    · rw [if_neg hi] at ha
      rw [if_neg (by omega)] at hb
      obtain ⟨a', ha', rfl⟩ := Option.map_eq_some_iff.mp ha
      obtain ⟨b', hb', rfl⟩ := Option.map_eq_some_iff.mp hb
      rcases Prod.Lex.toLex_lt_toLex.mp (ih ha' hb' (by omega)) with hlt | ⟨heq, hlt⟩
      · exact Prod.Lex.toLex_lt_toLex.mpr (.inl (Nat.succ_lt_succ hlt))
      · exact Prod.Lex.toLex_lt_toLex.mpr (.inr ⟨congrArg Nat.succ heq, hlt⟩)

/-- Each slot has a number. -/
theorem exists_locate? {o p : ℕ} {op : Operation α} (hop : ops[o]? = some op)
    (hp : p < op.params.length) :
    ∃ i < (ops.map (·.params.length)).sum, Trace.locate? ops i = some (o, p) := by
  induction ops generalizing o with
  | nil => cases hop
  | cons first rest ih =>
    rw [List.map_cons, List.sum_cons]
    cases o with
    | zero =>
      obtain rfl := Option.some.inj hop
      exact ⟨p, by omega, if_pos hp⟩
    | succ o =>
      obtain ⟨i, hi, hlocate⟩ := ih hop
      refine ⟨first.params.length + i, by omega, ?_⟩
      rw [Trace.locate?, if_neg (by omega), Nat.add_sub_cancel_left, hlocate]
      rfl

theorem locate?_eq_none {i : ℕ} (h : (ops.map (·.params.length)).sum ≤ i) :
    Trace.locate? ops i = none := by
  induction ops generalizing i with
  | nil => rfl
  | cons op rest ih =>
    rw [List.map_cons, List.sum_cons] at h
    rw [Trace.locate?, if_neg (by omega), ih (by omega)]
    rfl

theorem getElem?_params_eq_none {i : ℕ} (h : t.paramCount ≤ i) : t.params[i]? = none :=
  List.getElem?_eq_none_iff.mpr ((length_params t).trans_le h)

/-- An index below the number of parameters is that of a parameter, in its slot. -/
theorem exists_slot {i : ℕ} (h : i < t.paramCount) : ∃ o p op x,
    t.paramLocation? i = some (o, p) ∧ t.operations[o]? = some op ∧ op.params[p]? = some x ∧
      t.params[i]? = some x := by
  have hx := List.getElem?_eq_getElem (h.trans_eq (length_params t).symm)
  obtain ⟨o, p, op, hlocate, hop, hown⟩ := locate?_of_getElem? hx
  exact ⟨o, p, op, _, hlocate, hop, hown, hx⟩

theorem param?_eq_getElem? (t : Trace α) (i : ℕ) : t.param? i = t.params[i]? := by
  by_cases hi : i < t.paramCount
  · obtain ⟨o, p, op, x, hlocate, hop, hown, hx⟩ := exists_slot hi
    rw [hx, Trace.param?, hlocate]
    simp only [Option.bind_eq_bind, Option.bind_some, hop, hown]
  · rw [getElem?_params_eq_none (not_lt.mp hi), Trace.param?, Trace.paramLocation?,
      locate?_eq_none (not_lt.mp hi)]
    rfl

/-- The flat indices are numbers of the slots, in their order. -/
theorem exists_numbering (t : Trace α) :
    ∃ e : Fin t.paramCount ≃o t.slots, ∀ i : Fin t.paramCount,
      t.paramLocation? i = some (ofLex (e i).1) := by
  have hslot (i : Fin t.paramCount) :
      ∃ s : t.slots, t.paramLocation? i = some (ofLex s.1) := by
    obtain ⟨o, p, op, x, hlocate, hop, hown, -⟩ := exists_slot i.2
    exact ⟨⟨toLex (o, p), op, hop, (List.getElem?_eq_some_iff.mp hown).1⟩, hlocate⟩
  choose slot hlocation using hslot
  have hmono : StrictMono slot := fun i j hij => locate?_lt (hlocation i) (hlocation j) hij
  have hsurjective : Function.Surjective slot := by
    rintro ⟨s, op, hop, hp⟩
    obtain ⟨i, hi, hlocate⟩ := exists_locate? hop hp
    refine ⟨⟨i, hi⟩, Subtype.ext (ofLex.injective ?_)⟩
    exact Option.some.inj ((hlocation ⟨i, hi⟩).symm.trans hlocate)
  exact ⟨hmono.orderIsoOfSurjective slot hsurjective, hlocation⟩

theorem numbered_of_locate (t : Trace α) : t.Numbered where
  location := exists_numbering t
  beyond _ := locate?_eq_none
  param := param?_eq_getElem? t
  value i := by
    rw [param?_eq_getElem?]
    exact (List.getElem?_map ..).symm

end Numbering

/-! ## Bound traces -/

section Bound

variable {t u v : Trace α} {xs ys : List α}

theorem sameCircuit_refl (t : Trace α) : t.SameCircuit t where
  settings := sameSettings_refl t
  measurements := rfl
  operations := List.forall₂_same.mpr fun op _ => reparametrized_refl op

theorem reparametrized_trans {a b c : Operation α} (h : a.Reparametrized b)
    (h' : b.Reparametrized c) : a.Reparametrized c :=
  ⟨h'.spec.trans h.spec, h'.wires.trans h.wires, h'.params.trans h.params⟩

/-- New parameters for the operations of a trace. -/
theorem sameCircuit_operations {ops : List (Operation α)}
    (h : List.Forall₂ Operation.Reparametrized t.operations ops) :
    t.SameCircuit { t with operations := ops } :=
  ⟨⟨rfl, rfl, rfl⟩, rfl, h⟩

theorem boundTo_refl (t : Trace α) : t.BoundTo t.values t :=
  { sameCircuit_refl t with derivatives := rfl, values := rfl }

theorem boundTo_trans (h : t.BoundTo xs u) (h' : u.BoundTo ys v) : t.BoundTo ys v where
  settings := sameSettings_trans h.settings h'.settings
  measurements := h'.measurements.trans h.measurements
  operations := (forall₂_comp h.operations h'.operations).imp fun _ _ ⟨_, hown, hown'⟩ =>
    reparametrized_trans hown hown'
  derivatives := h'.derivatives.trans h.derivatives
  values := h'.values

theorem paramCount_of_boundTo (h : t.BoundTo xs u) : u.paramCount = t.paramCount := by
  have hlength := congrArg List.length h.derivatives
  rwa [List.length_map, List.length_map, length_params, length_params] at hlength

/-- Numbers with derivatives are determined by values and derivatives. -/
theorem jets_ext {ps qs : List (Jet α)} (hvalues : ps.map (·.value) = qs.map (·.value))
    (hderivatives : ps.map (·.derivatives) = qs.map (·.derivatives)) : ps = qs := by
  induction ps generalizing qs with
  | nil => exact (List.map_eq_nil_iff.mp hvalues.symm).symm
  | cons p ps ih =>
    cases qs with
    | nil => cases hvalues
    | cons q qs =>
      obtain ⟨hvalue, hvalues⟩ := List.cons.inj hvalues
      obtain ⟨hderivative, hderivatives⟩ := List.cons.inj hderivatives
      rw [ih hvalues hderivatives]
      cases p
      cases q
      cases hvalue
      cases hderivative
      rfl

/-- The parameters of given gates are determined by their concatenation. -/
theorem reparametrized_ext {ops us vs : List (Operation α)}
    (hus : List.Forall₂ Operation.Reparametrized ops us)
    (hvs : List.Forall₂ Operation.Reparametrized ops vs)
    (h : us.flatMap (·.params) = vs.flatMap (·.params)) : us = vs := by
  induction hus generalizing vs with
  | nil =>
    cases hvs
    rfl
  | @cons op a ops us ha hus ih =>
    cases hvs with
    | @cons _ b _ vs hb hvs =>
      rw [List.flatMap_cons, List.flatMap_cons] at h
      obtain ⟨hown, hothers⟩ := List.append_inj h (ha.params.trans hb.params.symm)
      rw [ih hvs hothers]
      obtain ⟨spec, params, wires⟩ := a
      obtain ⟨spec', params', wires'⟩ := b
      obtain rfl : spec = spec' := ha.spec.trans hb.spec.symm
      obtain rfl : wires = wires' := ha.wires.trans hb.wires.symm
      obtain rfl : params = params' := hown
      rfl

/-- A trace is determined by its values, once all else is given. -/
theorem eq_of_boundTo (hu : t.BoundTo xs u) (hv : t.BoundTo xs v) : u = v := by
  have hparams : u.params = v.params :=
    jets_ext (hu.values.trans hv.values.symm) (hu.derivatives.trans hv.derivatives.symm)
  have hops : u.operations = v.operations :=
    reparametrized_ext hu.operations hv.operations hparams
  have hms : u.measurements = v.measurements := hu.measurements.trans hv.measurements.symm
  have hregister : u.register = v.register := hu.settings.register.trans hv.settings.register.symm
  have hshots : u.shots = v.shots := hu.settings.shots.trans hv.settings.shots.symm
  have hlayout : u.layout = v.layout := hu.settings.layout.trans hv.settings.layout.symm
  cases u
  cases v
  congr

end Bound

/-! ## Writing -/

section Writing

variable {t : Trace α} {ops : List (Operation α)}

theorem modify_append {β : Type} (f : β → β) (xs ys : List β) (i : ℕ) :
    (xs ++ ys).modify i f =
      if i < xs.length then xs.modify i f ++ ys else xs ++ ys.modify (i - xs.length) f := by
  induction xs generalizing i with
  | nil => simp
  | cons x xs ih =>
    cases i with
    | zero => simp
    | succ i =>
      simp only [List.cons_append, List.modify_succ_cons, ih, List.length_cons,
        Nat.add_lt_add_iff_right, Nat.add_sub_add_right]
      split <;> rfl

theorem values_modify (ps : List (Jet α)) (i : ℕ) (x : α) :
    (ps.modify i (·.withValue x)).map (·.value) = (ps.map (·.value)).set i x := by
  induction ps generalizing i with
  | nil => rw [List.modify_nil, List.map_nil, List.set_nil]
  | cons p ps ih =>
    cases i with
    | zero => rfl
    | succ i => rw [List.modify_succ_cons, List.map_cons, ih, List.map_cons, List.set_cons_succ]

theorem derivatives_modify (ps : List (Jet α)) (i : ℕ) (x : α) :
    (ps.modify i (·.withValue x)).map (·.derivatives) = ps.map (·.derivatives) := by
  induction ps generalizing i with
  | nil => rw [List.modify_nil]
  | cons p ps ih =>
    cases i with
    | zero => rfl
    | succ i => rw [List.modify_succ_cons, List.map_cons, ih, List.map_cons]

/-- Writing to the slot of a flat index writes to the entry of the concatenated list. -/
theorem params_modify {i o p : ℕ} (h : Trace.locate? ops i = some (o, p)) (x : α) :
    (ops.modify o (·.withParam p x)).flatMap (·.params) =
      (ops.flatMap (·.params)).modify i (·.withValue x) := by
  induction ops generalizing i o with
  | nil => cases h
  | cons op rest ih =>
    rw [Trace.locate?] at h
    by_cases hi : i < op.params.length
    · rw [if_pos hi] at h
      obtain ⟨rfl, rfl⟩ := Prod.mk.inj (Option.some.inj h)
      rw [List.modify_zero_cons, List.flatMap_cons, List.flatMap_cons, modify_append, if_pos hi]
      rfl
    · rw [if_neg hi] at h
      obtain ⟨⟨o', p'⟩, hlocate, heq⟩ := Option.map_eq_some_iff.mp h
      obtain ⟨rfl, rfl⟩ := Prod.mk.inj heq
      rw [List.modify_succ_cons, List.flatMap_cons, List.flatMap_cons, ih hlocate, modify_append,
        if_neg hi]

/-- Writing changes one value. -/
theorem withParam_boundTo {i : ℕ} (hi : i < t.paramCount) (x : α) :
    ∃ u, t.withParam i x = .ok u ∧ t.BoundTo (t.values.set i x) u := by
  obtain ⟨o, p, -, -, hlocate, -⟩ := exists_slot hi
  have hparams := params_modify hlocate x
  refine ⟨{ t with operations := t.operations.modify o (·.withParam p x) }, ?_, ?_⟩
  · rw [Trace.withParam, hlocate]
  · exact { sameCircuit_operations (reparametrized_modify _ _ _ _) with
      derivatives := (congrArg (List.map Jet.derivatives) hparams).trans (derivatives_modify ..)
      values := (congrArg (List.map Jet.value) hparams).trans (values_modify ..) }

/-- A sequence of writes leaves behind what it leaves behind in the list of values. -/
theorem foldlM_withParam {writes : List (ℕ × α)} (h : ∀ w ∈ writes, w.1 < t.paramCount) :
    ∃ u, writes.foldlM (fun v (i, x) => v.withParam i x) t = .ok u ∧
      t.BoundTo (writes.foldl (fun acc (i, x) => acc.set i x) t.values) u := by
  induction writes generalizing t with
  | nil => exact ⟨t, rfl, boundTo_refl t⟩
  | cons w writes ih =>
    obtain ⟨i, x⟩ := w
    obtain ⟨hi, hwrites⟩ := List.forall_mem_cons.mp h
    obtain ⟨u, hu, hfirst⟩ := withParam_boundTo hi x
    rw [← paramCount_of_boundTo hfirst] at hwrites
    obtain ⟨v, hv, hrest⟩ := ih hwrites
    rw [hfirst.values] at hrest
    refine ⟨v, ?_, boundTo_trans hfirst hrest⟩
    rw [List.foldlM_cons]
    dsimp only
    rw [hu, ok_bind, hv]

/-- Sequences of writes that leave the same values behind give the same trace. -/
theorem foldlM_withParam_congr (writes writes' : List (ℕ × α))
    (h : ∀ w ∈ writes, w.1 < t.paramCount) (h' : ∀ w ∈ writes', w.1 < t.paramCount)
    (hvalues : writes.foldl (fun acc (i, x) => acc.set i x) t.values =
      writes'.foldl (fun acc (i, x) => acc.set i x) t.values) :
    writes.foldlM (fun v (i, x) => v.withParam i x) t =
      writes'.foldlM (fun v (i, x) => v.withParam i x) t := by
  obtain ⟨u, hu, hbound⟩ := foldlM_withParam h
  obtain ⟨v, hv, hbound'⟩ := foldlM_withParam h'
  rw [hvalues] at hbound
  rw [hu, hv, eq_of_boundTo hbound hbound']

theorem withValues_boundTo {values : List α} (h : values.length = t.paramCount) :
    ∃ u, t.withValues values = .ok u ∧ t.BoundTo values u := by
  obtain ⟨ops, hu, hops, hderivatives, hvalues⟩ := withValues_eq_ok h
  exact ⟨_, hu, { sameCircuit_operations hops with derivatives := hderivatives, values := hvalues }⟩

/-- Writing to all places leaves what is written. -/
theorem foldl_set_range {xs values : List α} (h : values.length = xs.length) :
    ((List.range xs.length).zip values).foldl (fun acc (i, x) => acc.set i x) xs = values := by
  have hwritten : ((List.range xs.length).zip values).map (·.1) = List.range xs.length :=
    List.map_fst_zip (by rw [List.length_range, h])
  refine List.ext_getElem? fun i => ?_
  by_cases hi : i < xs.length
  · have hvalue := List.getElem?_eq_getElem (hi.trans_eq h.symm)
    have hmem : (i, values[i]) ∈ (List.range xs.length).zip values :=
      List.mem_iff_getElem?.mpr ⟨i, List.getElem?_zip_eq_some.mpr ⟨List.getElem?_range hi, hvalue⟩⟩
    rw [hvalue]
    exact getElem?_foldl_set_of_mem (by rw [hwritten]; exact List.nodup_range) hi hmem
  · rw [List.getElem?_eq_none_iff.mpr (by rw [length_foldl_set]; omega),
      List.getElem?_eq_none_iff.mpr (by omega)]

theorem writable (t : Trace α) : t.Writable where
  write i x hi := withParam_boundTo hi x
  beyond i x hi := by
    rw [Trace.withParam, Trace.paramLocation?, locate?_eq_none hi]
    rfl
  again i x y hi := by
    have h := foldlM_withParam_congr (t := t) [(i, x), (i, y)] [(i, y)] (by simp [hi])
      (by simp [hi]) (List.set_set ..)
    simpa using h
  commute i j x y hi hj hij := by
    have h := foldlM_withParam_congr (t := t) [(i, x), (j, y)] [(j, y), (i, x)]
      (by simp [hi, hj]) (by simp [hi, hj]) (List.set_comm _ _ hij)
    simpa using h
  all values hlength := by
    obtain ⟨u, hu, hbound⟩ := withValues_boundTo hlength
    have hrange : ∀ w ∈ (List.range t.paramCount).zip values, w.1 < t.paramCount :=
      fun w hw => List.mem_range.mp (List.of_mem_zip hw).1
    obtain ⟨v, hv, hwritten⟩ := foldlM_withParam hrange
    rw [← length_values, foldl_set_range (hlength.trans (length_values t).symm)] at hwritten
    obtain ⟨w, hw, hrestored⟩ := withValues_boundTo
      ((length_values t).trans (paramCount_of_boundTo hbound).symm)
    -- Two traces that are bound to the same values are equal.
    refine ⟨u, hu, hbound, ?_, ?_⟩
    · rw [hv, eq_of_boundTo hwritten hbound]
    · rw [hw, eq_of_boundTo (boundTo_trans hbound hrestored) (boundTo_refl t)]
  length values h := if_pos h

end Writing

/-! ## Marking -/

section Marking

variable {t : Trace α} {ops : List (Operation α)} {flags : List Bool}

/-- A parameter with its trainability replaced. -/
def marked (p : Jet α) (flag : Bool) : Jet α :=
  if flag then (if p.isTrainable then p else .trainable p.value)
  else (if p.isTrainable then p.frozen else p)

theorem value_marked (p : Jet α) (flag : Bool) : (marked p flag).value = p.value := by
  unfold marked
  split <;> split <;> rfl

theorem isTrainable_marked (p : Jet α) (flag : Bool) : (marked p flag).isTrainable = flag := by
  obtain ⟨value, _ | derivatives⟩ := p <;> cases flag <;> rfl

theorem marked_of_isTrainable {p : Jet α} (hp : p.isTrainable) : marked p true = p := if_pos hp

/-- Handing out flags to the operations marks the concatenated list. -/
theorem params_deal_flags (h : flags.length = (ops.flatMap (·.params)).length) :
    (Trace.deal Operation.withTrainability ops flags).flatMap (·.params) =
      List.zipWith marked (ops.flatMap (·.params)) flags := by
  induction ops generalizing flags with
  | nil => rfl
  | cons op rest ih =>
    rw [List.flatMap_cons, List.length_append] at h
    have hown : op.params.length = (flags.take op.params.length).length := by
      rw [List.length_take]
      omega
    have hothers : (flags.drop op.params.length).length = (rest.flatMap (·.params)).length := by
      rw [List.length_drop]
      omega
    rw [Trace.deal, List.flatMap_cons, ih hothers, List.flatMap_cons]
    conv_rhs => rw [← List.take_append_drop op.params.length flags]
    exact (List.zipWith_append hown).symm

/-- Trainable indices rise. -/
theorem pairwise_trainableIndices (t : Trace α) : t.trainableIndices.Pairwise (· < ·) := by
  have hsub : t.trainableIndices.Sublist (t.params.zipIdx.map (·.2)) := List.filter_sublist.map _
  rw [List.zipIdx_map_snd] at hsub
  exact (List.pairwise_lt_range' ..).sublist hsub

theorem mem_trainableIndices_iff {i : ℕ} :
    i ∈ t.trainableIndices ↔ ∃ p, t.params[i]? = some p ∧ p.isTrainable := by
  constructor
  · intro h
    obtain ⟨⟨p, j⟩, hp, rfl⟩ := List.mem_map.mp h
    obtain ⟨hp, htrainable⟩ := List.mem_filter.mp hp
    exact ⟨p, List.mem_zipIdx_iff_getElem?.mp hp, htrainable⟩
  · rintro ⟨p, hp, htrainable⟩
    exact List.mem_map.mpr ⟨(p, i), List.mem_filter.mpr
      ⟨List.mem_zipIdx_iff_getElem?.mpr hp, htrainable⟩, rfl⟩

/-- A flag of each index, handed out to the parameters, marks each with its own. -/
theorem getElem?_zipWith_marked (t : Trace α) (flag : ℕ → Bool) (i : ℕ) :
    (List.zipWith marked t.params ((List.range t.paramCount).map flag))[i]? =
      (t.params[i]?).map (marked · (flag i)) := by
  rw [List.getElem?_zipWith, List.getElem?_map]
  by_cases hi : i < t.paramCount
  · rw [List.getElem?_range hi, Option.map_some]
    cases t.params[i]? <;> rfl
  · rw [getElem?_params_eq_none (not_lt.mp hi)]
    rfl

/-- Marking replaces trainability and keeps values. -/
theorem withTrainable_markedAt [Scalar α] {indices : List ℕ}
    (h : ∀ i ∈ indices, i < t.paramCount) :
    ∃ u, t.withTrainable indices = .ok u ∧ t.MarkedAt indices u := by
  let flags := (List.range t.paramCount).map fun i => indices.contains i
  let u : Trace α :=
    { t with operations := Trace.deal Operation.withTrainability t.operations flags }
  have hflags : flags.length = t.paramCount := by rw [List.length_map, List.length_range]
  have hnone : indices.find? (· ≥ t.paramCount) = none :=
    List.find?_eq_none.mpr fun i hi => by simpa using h i hi
  have hparams : u.params = List.zipWith marked t.params flags :=
    params_deal_flags (hflags.trans (length_params t).symm)
  have hparam (i : ℕ) : u.params[i]? = (t.params[i]?).map (marked · (indices.contains i)) := by
    rw [hparams]
    exact getElem?_zipWith_marked t _ i
  have hmem (i : ℕ) : i ∈ u.trainableIndices ↔ i ∈ indices := by
    rw [mem_trainableIndices_iff, ← List.contains_iff_mem]
    constructor
    · rintro ⟨p, hp, htrainable⟩
      obtain ⟨q, -, rfl⟩ := Option.map_eq_some_iff.mp ((hparam i).symm.trans hp)
      rwa [isTrainable_marked] at htrainable
    · intro hi
      have hlt : i < t.params.length := (h i (List.contains_iff_mem.mp hi)).trans_eq
        (length_params t).symm
      refine ⟨marked t.params[i] true, ?_, isTrainable_marked _ _⟩
      rw [hparam, List.getElem?_eq_getElem hlt, Option.map_some, hi]
  refine ⟨u, by rw [Trace.withTrainable, hnone], ?_⟩
  refine { sameCircuit_operations (reparametrized_deal_flags hflags) with
    values := ?_
    trainable := ?_
    kept := ?_ }
  · refine List.ext_getElem? fun i => ?_
    show (u.params.map Jet.value)[i]? = (t.params.map Jet.value)[i]?
    rw [List.getElem?_map, List.getElem?_map, hparam, Option.map_map]
    exact congrArg (Option.map · _) (funext fun p => value_marked p _)
  · -- The trainable indices rise, so that they are the sorted list of their set.
    rw [← List.toFinset.ext hmem]
    exact ((List.toFinset_sort _ (nodup_trainableIndices u)).mpr
      ((pairwise_trainableIndices u).imp le_of_lt)).symm
  · intro i hi p hp htrainable
    rw [hparam, hp, Option.map_some, List.contains_iff_mem.mpr hi, marked_of_isTrainable htrainable]

theorem markable [Scalar α] (t : Trace α) : t.Markable where
  mark _ h := withTrainable_markedAt h
  beyond indices h := by
    obtain ⟨i, hi, hbeyond⟩ := h
    have hsome : (indices.find? (· ≥ t.paramCount)).isSome :=
      List.find?_isSome.mpr ⟨i, hi, by simpa using hbeyond⟩
    obtain ⟨j, hj⟩ := Option.isSome_iff_exists.mp hsome
    refine ⟨j, List.mem_of_find?_eq_some hj, by simpa using List.find?_some hj, ?_⟩
    rw [Trace.withTrainable, hj]
    rfl

end Marking

/-- **Flat parameters.**  Flat indices number the slots of the operations in order and agree with
    the lists of parameters and values.  Writing at an index changes this value and nothing else,
    the last write wins, writes at different indices commute, and binding all values is writing
    one after another and can be undone.  Marking makes exactly the given indices trainable and
    keeps values, gates, wires, and the derivatives of what stays trainable.  An index out of
    range or a wrong number of values is refused. -/
theorem flat_parameters [Scalar α] (t : Trace α) : t.Numbered ∧ t.Writable ∧ t.Markable :=
  ⟨numbered_of_locate t, writable t, markable t⟩

/-- A gate without parameters between one with one parameter and one with three. -/
noncomputable def gapped : Trace ℝ :=
  ⟨[⟨StandardGate.rx.spec, [.trainable 0.1], [0]⟩, ⟨StandardGate.hadamard.spec, [], [0]⟩,
      ⟨StandardGate.rot.spec, [.constant 0.2, ⟨0.3, some ⟨[0.5], none, false⟩⟩, .constant 0.4],
        [0]⟩],
    [.ofObservable .expectation (.word (.single 0 .Z))], 1, .analytic, .empty⟩

/-- The third index is that of the second angle of the last gate, and is marked with the
    derivatives that it had. -/
theorem flat_parameters_gapped :
    gapped.paramLocation? 2 = some (2, 1) ∧
    (∃ u, gapped.withParam 2 0.7 = .ok u ∧ u.values = [0.1, 0.2, 0.7, 0.4]) ∧
    (∃ u, gapped.withValues [0.5, 0.6, 0.7, 0.8] = .ok u ∧ u.values = [0.5, 0.6, 0.7, 0.8] ∧
      u.withValues [0.1, 0.2, 0.3, 0.4] = .ok gapped) ∧
    (∃ u, gapped.withTrainable [3, 2, 3] = .ok u ∧ u.trainableIndices = [2, 3] ∧
      u.params[2]? = some ⟨0.3, some ⟨[0.5], none, false⟩⟩) ∧
    gapped.withParam 4 0 = .error (.invalidArgument (.parameterIndex 4)) := by
  obtain ⟨hnumbered, hwritable, hmarkable⟩ := flat_parameters gapped
  refine ⟨rfl, ?_, ?_, ?_, hwritable.beyond 4 0 (by decide)⟩
  · obtain ⟨u, hu, hbound⟩ := hwritable.write 2 0.7 (by decide)
    exact ⟨u, hu, hbound.values⟩
  · obtain ⟨u, hu, hbound, -, hrestored⟩ := hwritable.all [0.5, 0.6, 0.7, 0.8] rfl
    exact ⟨u, hu, hbound.values, hrestored⟩
  · obtain ⟨u, hu, hmarked⟩ := hmarkable.mark [3, 2, 3] (by decide)
    have hsorted : [3, 2, 3].toFinset.sort = [2, 3] :=
      (List.toFinset_sort (l := [2, 3]) _ (by decide)).mpr (by decide)
    exact ⟨u, hu, hmarked.trainable.trans hsorted, hmarked.kept 2 (by decide) _ rfl rfl⟩

end Proofs

end CircuitGrad
