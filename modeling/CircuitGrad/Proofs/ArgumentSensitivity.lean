import CircuitGrad.Proofs.ArgumentDerivative
import CircuitGrad.Proofs.PipelineDerivative
import CircuitGrad.Proofs.SmoothOutput

/-! # Derivatives in the arguments

    The derivatives that a binding computes for a recorded trace are those of
    the exact outputs of that trace, when the inputs move and the parameters
    move along their slopes and bends (`derivativePlan_run`).  What the trace
    was expanded to on the way has other parameters and another Jacobian, and
    is not seen in the result.
-/

namespace CircuitGrad

/-- The parameters after a displacement. -/
noncomputable def Trace.pointAt (t : Trace ℝ) (c : Displacement) (i : ℕ) : ℝ :=
  (t.params.map c.value).getD i 0

/-- Derivative of an output when input `i` moves. -/
noncomputable def Trace.slopeAlong (t : Trace ℝ) (o i : ℕ) : ℝ :=
  deriv (fun s => Proofs.output t o (t.pointAt (.along i i false s 0))) 0

/-- Second derivative of an output when inputs `i` and `j` move; the bends of the
    parameters are left out when all of them are affine. -/
noncomputable def Trace.bendAlong (t : Trace ℝ) (o i j : ℕ) : ℝ :=
  deriv (fun w => deriv (fun s => Proofs.output t o
    (t.pointAt (.along i j (!t.trainable.all (·.isAffine)) s w))) 0) 0

/-- The first or the second derivatives of the outputs in the entries of an argument. -/
noncomputable def Trace.argumentDerivative (t : Trace ℝ) (r : InputRange) (order : ℕ) :
    Tensor ℝ :=
  if order = 1 then
    .ofFn ((Proofs.layoutOf t).shape ++ r.shape) fun p =>
      t.slopeAlong (p / r.size) (r.start + p % r.size)
  else
    .ofFn ((Proofs.layoutOf t).shape ++ r.shape ++ r.shape) fun p =>
      t.bendAlong (p / r.size / r.size) (r.start + p / r.size % r.size) (r.start + p % r.size)

namespace Proofs

/-! ## Trainable parameters -/

section Trainable

variable (t : Trace ℝ)

/-- The trainable parameters with their flat indices. -/
def indexed : List (Jet ℝ × ℕ) := t.params.zipIdx.filter fun e => e.1.isTrainable

theorem trainable_eq_indexed : t.trainable = (indexed t).map (·.1) := by
  have hfilter : indexed t = t.params.zipIdx.filter ((·.isTrainable) ∘ Prod.fst) := rfl
  rw [hfilter, ← List.filter_map, List.zipIdx_map_fst]
  rfl

theorem trainableIndices_eq_indexed : t.trainableIndices = (indexed t).map (·.2) := rfl

theorem length_trainableIndices : t.trainableIndices.length = t.trainable.length := by
  rw [trainable_eq_indexed, trainableIndices_eq_indexed, List.length_map, List.length_map]

/-- The flat index of a trainable parameter. -/
def trainableIndex (k : Fin t.trainable.length) : ℕ :=
  t.trainableIndices.get (k.cast (length_trainableIndices t).symm)

theorem getElem?_trainableIndex (k : Fin t.trainable.length) :
    t.params[trainableIndex t k]? = some (t.trainable.get k) := by
  have hk : k.val < (indexed t).length := by
    simpa [trainable_eq_indexed] using k.isLt
  have hmem : (indexed t)[k.val] ∈ t.params.zipIdx :=
    (List.mem_filter.mp (List.getElem_mem hk)).1
  have hindex : trainableIndex t k = (indexed t)[k.val].2 := by
    unfold trainableIndex
    rw [List.get_eq_getElem]
    exact List.getElem_map ..
  have hvalue : t.trainable.get k = (indexed t)[k.val].1 := by
    simp [trainable_eq_indexed]
  rw [hindex, hvalue]
  exact List.mem_zipIdx_iff_getElem?.mp hmem

theorem trainableIndex_injective : Function.Injective (trainableIndex t) :=
  (List.nodup_iff_injective_get.mp (nodup_trainableIndices t)).comp (Fin.cast_injective _)

/-- All other parameters are constants. -/
theorem constant_of_notMem {i : ℕ} (hi : i ∉ Set.range (trainableIndex t)) {x : Jet ℝ}
    (hx : t.params[i]? = some x) : x = .constant x.value := by
  obtain ⟨v, _ | d⟩ := x
  · rfl
  · refine absurd ?_ hi
    have hmem : i ∈ t.trainableIndices := by
      rw [trainableIndices_eq_indexed]
      exact List.mem_map.mpr ⟨(⟨v, some d⟩, i),
        List.mem_filter.mpr ⟨List.mem_zipIdx_iff_getElem?.mpr hx, rfl⟩, rfl⟩
    obtain ⟨k, hk⟩ := List.get_of_mem hmem
    exact ⟨k.cast (length_trainableIndices t), hk⟩

theorem pointAt_trainableIndex (c : Displacement) (k : Fin t.trainable.length) :
    t.pointAt c (trainableIndex t k) = c.value (t.trainable.get k) := by
  unfold Trace.pointAt
  rw [List.getD_eq_getElem?_getD, List.getElem?_map, getElem?_trainableIndex]
  rfl

/-- Displacements leave constants alone. -/
theorem pointAt_of_notMem (c : Displacement) {i : ℕ} (hi : i ∉ Set.range (trainableIndex t)) :
    t.pointAt c i = t.point i := by
  unfold Trace.pointAt Trace.point Trace.values
  rw [List.getD_eq_getElem?_getD, List.getD_eq_getElem?_getD, List.getElem?_map, List.getElem?_map]
  cases hx : t.params[i]? with
  | none => rfl
  | some x =>
    have hconstant := constant_of_notMem t hi hx
    rw [Option.map_some, Option.map_some, hconstant, c.constant]
    rfl

theorem pointAt_zero (i j : ℕ) (bent : Bool) :
    t.pointAt (.along i j bent 0 0) = t.point := by
  unfold Trace.pointAt Trace.point Trace.values
  have hvalue : (Displacement.along i j bent 0 0).value = fun x => x.value := by
    funext x
    simp [Displacement.along]
  rw [hvalue]

end Trainable

/-! ## The chain rule -/

section Chain

variable {t u : Trace ℝ} {f : (ℕ → ℝ) → ℝ}

/-- A smooth function of displaced parameters is differentiated by the chain rule. -/
theorem hasDerivAt_pointAt (hf : Smooth f) {c : ℝ → Displacement} {x : ℝ}
    {speed part : Fin t.trainable.length → ℝ}
    (hspeed : ∀ k, HasDerivAt (fun y => (c y).value (t.trainable.get k)) (speed k) x)
    (hpart : ∀ k, HasPartialAt f (trainableIndex t k) (part k) (t.pointAt (c x))) :
    HasDerivAt (fun y => f (t.pointAt (c y))) (∑ k, part k * speed k) x := by
  refine hf.hasDerivAt_along (trainableIndex_injective t) (fun i hi y => ?_) (fun k => ?_) hpart
  · rw [pointAt_of_notMem t _ hi, pointAt_of_notMem t _ hi]
  · simpa only [pointAt_trainableIndex] using hspeed k

/-- The speed of a parameter when the first input moves. -/
theorem hasDerivAt_along_first (x : Jet ℝ) (i j : ℕ) (bent : Bool) (s w : ℝ) :
    HasDerivAt (fun y => (Displacement.along i j bent y w).value x)
      (x.slope i + if bent then w * x.bend i j else 0) s := by
  have hvalue : ∀ y, (Displacement.along i j bent y w).value x = (x.value + w * x.slope j) +
      y * (x.slope i + if bent then w * x.bend i j else 0) := by
    intro y
    show x.value + y * x.slope i + w * x.slope j + (if bent then y * w * x.bend i j else 0) = _
    split <;> ring
  simp only [hvalue]
  exact (((hasDerivAt_id' s).mul_const _).const_add _).congr_deriv (one_mul _)

/-- The speed of a parameter when the second input moves and the first is at rest. -/
theorem hasDerivAt_along_second (x : Jet ℝ) (i j : ℕ) (bent : Bool) (w : ℝ) :
    HasDerivAt (fun y => (Displacement.along i j bent 0 y).value x) (x.slope j) w := by
  simpa [Displacement.along] using ((hasDerivAt_id' w).mul_const (x.slope j)).const_add x.value

/-- What the second input adds to the speed of a parameter when the first input moves. -/
theorem hasDerivAt_speed (x : Jet ℝ) (i j : ℕ) (bent : Bool) (w : ℝ) :
    HasDerivAt (fun y => x.slope i + if bent then y * x.bend i j else 0)
      (if bent then x.bend i j else 0) w := by
  cases bent with
  | false => simpa using hasDerivAt_const w (x.slope i)
  | true => simpa using ((hasDerivAt_id' w).mul_const (x.bend i j)).const_add (x.slope i)

/-- The partial derivative in a parameter. -/
noncomputable def partialOf (f : (ℕ → ℝ) → ℝ) (i : ℕ) (v : ℕ → ℝ) : ℝ :=
  deriv (fun x => f (Function.update v i x)) (v i)

theorem eq_partialOf {i : ℕ} {f' : (ℕ → ℝ) → ℝ} (h : IsPartial f i f') : f' = partialOf f i :=
  funext fun v => (h v).deriv.symm

/-- The derivative when the first input moves. -/
theorem deriv_along_first (hf : Smooth f)
    (hpartial : ∀ k, IsPartial f (trainableIndex t k) (partialOf f (trainableIndex t k)))
    (i j : ℕ) (bent : Bool) (w : ℝ) :
    deriv (fun s => f (t.pointAt (.along i j bent s w))) 0 =
      ∑ k, partialOf f (trainableIndex t k) (t.pointAt (.along i j bent 0 w)) *
        ((t.trainable.get k).slope i + if bent then w * (t.trainable.get k).bend i j else 0) :=
  (hasDerivAt_pointAt hf (fun _ => hasDerivAt_along_first _ i j bent 0 w)
    fun k => hpartial k _).deriv

/-- The derivative of that when the second input moves. -/
theorem deriv_along_second (hf : Smooth f)
    (hpartial : ∀ k, IsPartial f (trainableIndex t k) (partialOf f (trainableIndex t k)))
    {second : Fin t.trainable.length → Fin t.trainable.length → ℝ}
    (hsecond : ∀ k l, HasPartialAt (partialOf f (trainableIndex t k)) (trainableIndex t l)
      (second k l) t.point) (i j : ℕ) (bent : Bool) :
    deriv (fun w => deriv (fun s => f (t.pointAt (.along i j bent s w))) 0) 0 =
      ∑ k, ∑ l, second k l * ((t.trainable.get k).slope i * (t.trainable.get l).slope j) +
        if bent then ∑ k, partialOf f (trainableIndex t k) t.point * (t.trainable.get k).bend i j
        else 0 := by
  have hfirst : ∀ k, Smooth (partialOf f (trainableIndex t k)) :=
    fun k => hf.of_isPartial (hpartial k)
  simp only [deriv_along_first hf hpartial]
  -- Each summand is a product: the partial derivative, and the speed of its parameter.
  have hsummand : ∀ k, HasDerivAt (fun w =>
      partialOf f (trainableIndex t k) (t.pointAt (.along i j bent 0 w)) *
        ((t.trainable.get k).slope i + if bent then w * (t.trainable.get k).bend i j else 0))
      ((∑ l, second k l * (t.trainable.get l).slope j) * (t.trainable.get k).slope i +
        partialOf f (trainableIndex t k) t.point *
          if bent then (t.trainable.get k).bend i j else 0) 0 := by
    intro k
    have hpart : HasDerivAt
        (fun w => partialOf f (trainableIndex t k) (t.pointAt (.along i j bent 0 w)))
        (∑ l, second k l * (t.trainable.get l).slope j) 0 :=
      hasDerivAt_pointAt (hfirst k) (fun _ => hasDerivAt_along_second _ i j bent 0)
        fun l => by
          rw [pointAt_zero]
          exact hsecond k l
    refine (hpart.mul (hasDerivAt_speed _ i j bent 0)).congr_deriv ?_
    simp [pointAt_zero]
  rw [(HasDerivAt.fun_sum fun k _ => hsummand k).deriv, Finset.sum_add_distrib]
  congr 1
  · refine Finset.sum_congr rfl fun k _ => ?_
    rw [Finset.sum_mul]
    exact Finset.sum_congr rfl fun l _ => by ring
  · cases bent <;> simp

end Chain

/-! ## Contracted derivatives -/

section Contracted

variable {u : Trace ℝ} {D : Tensor ℝ} {o : ℕ}

theorem first_of_isDerivative (hD : IsDerivative u u.trainableIndices 1 D)
    (ho : o < Tensor.volume (layoutOf u).shape) (k : Fin u.trainable.length) :
    IsPartial (output u o) (trainableIndex u k) (partialOf (output u o) (trainableIndex u k)) ∧
      D.entry (o * u.trainable.length + k) =
        partialOf (output u o) (trainableIndex u k) u.point := by
  obtain ⟨g, ⟨f', hpartial, rfl⟩, hvalue⟩ :=
    hD.entry o ho [k.cast (length_trainableIndices u).symm] rfl
  obtain rfl := eq_partialOf hpartial
  have hentry : D.entry (o * u.trainableIndices.length + k) =
      partialOf (output u o) (trainableIndex u k) u.point := hvalue
  rw [length_trainableIndices] at hentry
  exact ⟨hpartial, hentry⟩

theorem second_of_isDerivative (hD : IsDerivative u u.trainableIndices 2 D)
    (ho : o < Tensor.volume (layoutOf u).shape) (k l : Fin u.trainable.length) :
    IsPartial (output u o) (trainableIndex u k) (partialOf (output u o) (trainableIndex u k)) ∧
      HasPartialAt (partialOf (output u o) (trainableIndex u k)) (trainableIndex u l)
        (D.entry ((o * u.trainable.length + k) * u.trainable.length + l)) u.point := by
  obtain ⟨g, ⟨f', hpartial, _, hsecond, rfl⟩, hvalue⟩ :=
    hD.entry o ho [k.cast (length_trainableIndices u).symm,
      l.cast (length_trainableIndices u).symm] rfl
  obtain rfl := eq_partialOf hpartial
  have hentry : D.entry ((o * u.trainableIndices.length + k) * u.trainableIndices.length + l) =
      g u.point := hvalue
  rw [length_trainableIndices] at hentry
  rw [hentry]
  exact ⟨hpartial, hsecond u.point⟩

/-- Without trainable parameters nothing moves. -/
theorem pointAt_of_nothing (hnone : u.trainable = []) (c : Displacement) :
    u.pointAt c = u.point := by
  funext i
  refine pointAt_of_notMem u c ?_
  rintro ⟨k, -⟩
  rw [hnone] at k
  exact k.elim0

theorem slopeAlong_eq (hu : u.Exact ∨ u.trainable = [])
    (hD : IsDerivative u u.trainableIndices 1 D) (ho : o < Tensor.volume (layoutOf u).shape)
    (i : ℕ) : u.slopeAlong o i = ∑ k : Fin u.trainable.length,
      D.entry (o * u.trainable.length + k) * (u.trainable.get k).slope i := by
  unfold Trace.slopeAlong
  rcases hu with hu | hnone
  · rw [deriv_along_first (smooth_output hu o) fun k => (first_of_isDerivative hD ho k).1]
    refine Finset.sum_congr rfl fun k _ => ?_
    rw [pointAt_zero, (first_of_isDerivative hD ho k).2, if_neg Bool.false_ne_true, add_zero]
  · simp only [pointAt_of_nothing hnone, deriv_const]
    rw [hnone]
    exact (Fin.sum_univ_zero _).symm

theorem bendAlong_eq (hu : u.Exact ∨ u.trainable = [])
    (hD : IsDerivative u u.trainableIndices 2 D) (ho : o < Tensor.volume (layoutOf u).shape)
    (i j : ℕ) : u.bendAlong o i j =
      ∑ k : Fin u.trainable.length, ∑ l : Fin u.trainable.length,
        D.entry ((o * u.trainable.length + k) * u.trainable.length + l) *
          ((u.trainable.get k).slope i * (u.trainable.get l).slope j) +
        if u.trainable.all (·.isAffine) then 0
        else ∑ k, partialOf (output u o) (trainableIndex u k) u.point *
          (u.trainable.get k).bend i j := by
  unfold Trace.bendAlong
  rcases hu with hu | hnone
  · rw [deriv_along_second (smooth_output hu o) (fun k => (second_of_isDerivative hD ho k k).1)
      fun k l => (second_of_isDerivative hD ho k l).2]
    cases u.trainable.all (·.isAffine) <;> rfl
  · have hempty : IsEmpty (Fin u.trainable.length) := by
      rw [hnone]
      exact Fin.isEmpty
    simp [pointAt_of_nothing hnone]

end Contracted

/-! ## Expanded traces -/

section Expanded

variable {ρ : Type} {t u : Trace ℝ}

theorem layoutOf_expands (h : Expands t u) : layoutOf u = layoutOf t := by
  rw [h.same]
  rfl

/-- After every displacement the expanded trace has the outputs of the trace. -/
theorem output_expands (sampler : Sampler ℝ ρ) (h : Expands t u) (ht : t.Exact)
    (c : Displacement) (o : ℕ) : output u o (u.pointAt c) = output t o (t.pointAt c) := by
  obtain ⟨T, hT, -, hentry⟩ := simulate_assign ht sampler (t.pointAt c)
  obtain ⟨S, hS, -, hentry'⟩ := simulate_assign (exact_of_expands h ht) sampler (u.pointAt c)
  have hsame := h.simulate_displaced sampler ht.analytic
    (fun m hm => statistical_of_differentiable (ht.measurements m hm)) c
  rw [trace_displaced_eq_assign, trace_displaced_eq_assign] at hsame
  obtain rfl : S = T := Except.ok.inj (hS.symm.trans (hsame.trans hT))
  rw [← hentry, ← hentry']

theorem trainable_eq_nil_iff (h : Expands t u) : u.trainable = [] ↔ t.trainable = [] := by
  have hparams : ∀ w : Trace ℝ, w.trainable = [] ↔
      ∀ op ∈ w.operations, ∀ x ∈ op.params, ¬x.isTrainable := by
    intro w
    unfold Trace.trainable Trace.params
    rw [List.filter_eq_nil_iff]
    constructor
    · exact fun hw op hop x hx => hw x (List.mem_flatMap.mpr ⟨op, hop, hx⟩)
    · intro hw x hx
      obtain ⟨op, hop, hx⟩ := List.mem_flatMap.mp hx
      exact hw op hop x hx
  rw [hparams, hparams]
  exact h.params (fun x => ¬x.isTrainable) (fun x k => by
    rw [show (x.scale k).isTrainable = x.isTrainable from Option.isSome_map]) fun v =>
      Bool.false_ne_true

theorem argumentDerivative_expands (sampler : Sampler ℝ ρ) (h : Expands t u)
    (ht : t.Exact ∨ t.trainable = []) (r : InputRange) (order : ℕ) :
    u.argumentDerivative r order = t.argumentDerivative r order := by
  have haffine : u.trainable.all (·.isAffine) = t.trainable.all (·.isAffine) := by
    rw [Bool.eq_iff_iff, List.all_eq_true, List.all_eq_true]
    exact h.isAffine_iff
  have houtput : (∀ (c : Displacement) (o : ℕ), output u o (u.pointAt c) =
      output t o (t.pointAt c)) ∨ t.trainable = [] :=
    ht.imp_left fun ht c o => output_expands sampler h ht c o
  have hslope : u.slopeAlong = t.slopeAlong := by
    funext o i
    unfold Trace.slopeAlong
    rcases houtput with houtput | hnone
    · simp only [houtput]
    · simp only [pointAt_of_nothing hnone, pointAt_of_nothing ((trainable_eq_nil_iff h).mpr hnone),
        deriv_const]
  have hbend : u.bendAlong = t.bendAlong := by
    funext o i j
    unfold Trace.bendAlong
    rcases houtput with houtput | hnone
    · simp only [houtput, haffine]
    · simp only [pointAt_of_nothing hnone, pointAt_of_nothing ((trainable_eq_nil_iff h).mpr hnone),
        deriv_const]
  unfold Trace.argumentDerivative
  rw [layoutOf_expands h, hslope, hbend]

end Expanded

/-! ## Carried derivatives -/

/-- A tensor is known from the entries of its rows. -/
theorem eq_ofFn_of_rows {T : Tensor ℝ} {lead shape : List ℕ} {f : ℕ → ℕ → ℝ}
    (hshape : T.shape = lead ++ shape) (h : ∀ o < Tensor.volume lead, ∀ a < Tensor.volume shape,
      T.entry (o * Tensor.volume shape + a) = f o a) :
    T = .ofFn (lead ++ shape) fun p => f (p / Tensor.volume shape) (p % Tensor.volume shape) := by
  refine Tensor.ext_entry hshape fun p hp => ?_
  rw [hshape] at hp
  rw [Tensor.entry_ofFn hp]
  rw [Tensor.volume_append] at hp
  have hpos : 0 < Tensor.volume shape := Nat.pos_of_mul_pos_left (Nat.zero_lt_of_lt hp)
  rw [← h _ ((Nat.div_lt_iff_lt_mul hpos).mpr hp) _ (Nat.mod_lt p hpos), Nat.div_add_mod']

section Carried

variable {u : Trace ℝ} {D first : Tensor ℝ}

theorem shape_of_isDerivative {k : ℕ} (hD : IsDerivative u u.trainableIndices k D) :
    D.shape = (layoutOf u).shape ++ List.replicate k u.trainable.length := by
  rw [hD.shape, length_trainableIndices]

/-- First derivatives, carried to the entries of an argument. -/
theorem carry_first (hu : u.Exact ∨ u.trainable = [])
    (hD : IsDerivative u u.trainableIndices 1 D) (r : InputRange) :
    ChainRule.carry r (u.slopes r).data 1 D = .ok (u.argumentDerivative r 1) := by
  obtain ⟨T, hcarry, hshape, hentry⟩ :=
    carry_eq (shape_of_isDerivative hD) (size_slopes u r) (getD_slopes u r)
  have hreplicate : (List.replicate 1 r.shape).flatten = r.shape := List.append_nil _
  rw [hreplicate] at hshape
  rw [hcarry]
  unfold Trace.argumentDerivative
  rw [if_pos rfl]
  refine congrArg Except.ok (eq_ofFn_of_rows (f := fun o a => u.slopeAlong o (r.start + a)) hshape
    fun o ho a ha => ?_)
  have hvalue := hentry o ho fun _ => ⟨a, ha⟩
  rw [contraction_one] at hvalue
  rw [slopeAlong_eq hu hD ho]
  exact hvalue

/-- A tensor of second derivatives is known from its entries. -/
theorem eq_argumentDerivative {T : Tensor ℝ} {r : InputRange}
    (hshape : T.shape = (layoutOf u).shape ++ r.shape ++ r.shape)
    (h : ∀ o < Tensor.volume (layoutOf u).shape, ∀ a b : Fin r.size,
      T.entry ((o * r.size + a) * r.size + b) = u.bendAlong o (r.start + a) (r.start + b)) :
    T = u.argumentDerivative r 2 := by
  refine eq_ofFn_of_rows (f := fun o b =>
    u.bendAlong (o / r.size) (r.start + o % r.size) (r.start + b)) hshape fun o ho b hb => ?_
  rw [Tensor.volume_append] at ho
  have hpos : 0 < r.size := Nat.zero_lt_of_lt hb
  have hvalue := h (o / r.size) ((Nat.div_lt_iff_lt_mul hpos).mpr ho)
    ⟨o % r.size, Nat.mod_lt o hpos⟩ ⟨b, hb⟩
  rw [← hvalue]
  simp only [Nat.div_add_mod']
  rfl

/-- Second derivatives, carried to the entries of an argument by affine parameters. -/
theorem carry_affine (hu : u.Exact ∨ u.trainable = [])
    (haffine : u.trainable.all (·.isAffine) = true)
    (hD : IsDerivative u u.trainableIndices 2 D) (r : InputRange) :
    ChainRule.carry r (u.slopes r).data 2 D = .ok (u.argumentDerivative r 2) := by
  obtain ⟨T, hcarry, hshape, hentry⟩ :=
    carry_eq (shape_of_isDerivative hD) (size_slopes u r) (getD_slopes u r)
  have hreplicate : (List.replicate 2 r.shape).flatten = r.shape ++ r.shape := by
    simp [List.replicate_succ]
  rw [hreplicate, ← List.append_assoc] at hshape
  rw [hcarry]
  refine congrArg Except.ok (eq_argumentDerivative hshape fun o ho a b => ?_)
  have hvalue := hentry o ho ![a, b]
  rw [contraction_two] at hvalue
  rw [bendAlong_eq hu hD ho, if_pos haffine, add_zero]
  exact hvalue

/-- Second derivatives, carried to the entries of an argument by curved parameters. -/
theorem carry_curved (hu : u.Exact ∨ u.trainable = [])
    (hcurved : ¬u.trainable.all (·.isAffine) = true)
    (hD : IsDerivative u u.trainableIndices 2 D)
    (hfirst : IsDerivative u u.trainableIndices 1 first) (r : InputRange) :
    ChainRule.carrySecond r (u.slopes r).data (u.bends r).data D first =
      .ok (u.argumentDerivative r 2) := by
  obtain ⟨T, hcarry, hshape, hentry⟩ := carrySecond_eq (shape_of_isDerivative hD)
    (shape_of_isDerivative hfirst) (size_slopes u r) (size_bends u r) (getD_slopes u r)
    (getD_bends u r)
  rw [hcarry]
  refine congrArg Except.ok (eq_argumentDerivative hshape fun o ho a b => ?_)
  rw [hentry o ho, bendAlong_eq hu hD ho, if_neg hcurved]
  refine congrArg (_ + ·) (Finset.sum_congr rfl fun k _ => ?_)
  rw [(first_of_isDerivative hfirst ho k).2]
  rfl

end Carried

/-! ## Plans -/

section Plans

variable {ρ σ : Type} {b : Binding ℝ σ} {d : Differentiator ℝ} {c : ShiftConfig ℝ} {t : Trace ℝ}
  {plan : Plan ℝ}

theorem run_map (p : Plan ℝ) (f : Tensor ℝ → Except Error (Tensor ℝ))
    (execute : Trace ℝ → Except Error (Tensor ℝ)) :
    (p.map f).run execute = (do f (← p.run execute)) := by
  unfold Plan.run
  rw [show (p.map f).traces = p.traces from rfl]
  cases p.traces.mapM execute with
  | error e => rfl
  | ok results => exact combine_map p f results

theorem traces_both (p q : Plan ℝ) (g : Tensor ℝ → Tensor ℝ → Except Error (Tensor ℝ)) :
    (ChainRule.both p q g).traces = p.traces ++ q.traces := by
  simp [ChainRule.both, PlanBatch.traces]

theorem run_both {p q : Plan ℝ} {execute : Trace ℝ → Except Error (Tensor ℝ)} {a b : Tensor ℝ}
    (hp : p.run execute = .ok a) (hq : q.run execute = .ok b)
    (g : Tensor ℝ → Tensor ℝ → Except Error (Tensor ℝ)) :
    (ChainRule.both p q g).run execute = g a b := by
  obtain ⟨own, hown, hp⟩ := bind_eq_ok hp
  obtain ⟨rest, hrest, hq⟩ := bind_eq_ok hq
  unfold Plan.run
  rw [traces_both, List.mapM_append, hown, hrest]
  exact combine_both hp hq g

theorem admissible_of_expands {u : Trace ℝ} (h : Expands t u) (ht : t.Admissible) :
    u.Admissible := by
  have hplaced := h.placed ht.placed
  have hsame := h.same
  refine ⟨hplaced, ?_, ?_, ?_⟩ <;> rw [hsame]
  · exact ht.measurements
  · exact ht.analytic
  · exact ht.nonempty

/-- Where each order in the parameters is computed, the chain rule computes the derivative of
    the outputs in the entries of the argument. -/
theorem chainRule_run (sampler : Sampler ℝ ρ) {u : Trace ℝ} (hu : u.Exact ∨ u.trainable = [])
    {derivative : ℕ → Except Error (Plan ℝ)}
    (hderivative : ∀ more p, derivative (more + 1) = .ok p →
      (∃ D, p.run (·.simulate sampler) = .ok D ∧
        IsDerivative u u.trainableIndices (more + 1) D) ∧ ∀ w ∈ p.traces, w.Exact)
    (r : InputRange) {order : ℕ} (horder : order = 1 ∨ order = 2)
    (hplan : ChainRule.plan u r order derivative = .ok plan) :
    plan.run (·.simulate sampler) = .ok (u.argumentDerivative r order) ∧
      ∀ w ∈ plan.traces, w.Exact := by
  obtain ⟨main, hmain, hdirect, hcurved⟩ := plan_cases hplan
  rcases horder with rfl | rfl
  · obtain ⟨⟨D, hrun, hD⟩, htraces⟩ := hderivative 0 main hmain
    obtain rfl := hdirect (.inl rfl)
    refine ⟨?_, htraces⟩
    rw [run_map, hrun]
    exact carry_first hu hD r
  · obtain ⟨⟨D, hrun, hD⟩, htraces⟩ := hderivative 1 main hmain
    by_cases haffine : u.trainable.all (·.isAffine) = true
    · obtain rfl := hdirect (.inr haffine)
      refine ⟨?_, htraces⟩
      rw [run_map, hrun]
      exact carry_affine hu haffine hD r
    · obtain ⟨first, hfirst, rfl⟩ := hcurved (by simpa using haffine)
      obtain ⟨⟨D₁, hrun₁, hD₁⟩, htraces₁⟩ := hderivative 0 first hfirst
      constructor
      · rw [run_both hrun hrun₁]
        exact carry_curved hu haffine hD hD₁ r
      · rw [traces_both]
        exact List.forall_mem_append.mpr ⟨htraces, htraces₁⟩

/-- Executing the plan of a derivative gives the derivative of the outputs of the
    recorded trace in the entries of the argument. -/
theorem derivativePlan_run (sampler : Sampler ℝ ρ) (hd : b.differentiator = some d)
    (hcost : d.cost = trainableOperations) (hmethod : d.method = .parameterShift c)
    (hparameters : c.parameters = none) (ht : t.Admissible)
    (hfits : t.register ≤ StateVector.maxWires ∨ t.trainable = []) (r : InputRange) {order : ℕ}
    (horder : order = 1 ∨ order = 2) (hplan : b.derivativePlan d t r order = .ok plan) :
    plan.run (·.simulate sampler) = .ok (t.argumentDerivative r order) ∧
      ∀ w ∈ plan.traces, w.Exact := by
  obtain ⟨u, hprepared, hplan⟩ := bind_eq_ok hplan
  obtain ⟨hexpands, hdiff⟩ := expands_of_prepare hcost ht.placed hprepared
  have hu := admissible_of_expands hexpands ht
  have hexact : u.Exact ∨ u.trainable = [] := by
    rcases hfits with hfits | hnone
    · exact .inl (exact_of_expands hexpands (ht.exact hfits))
    · exact .inr ((trainable_eq_nil_iff hexpands).mpr hnone)
  have hfits' : u.register ≤ StateVector.maxWires ∨ u.trainableIndices = [] := by
    refine hexact.imp (·.fits) fun hnone => List.eq_nil_of_length_eq_zero ?_
    rw [length_trainableIndices, hnone]
    rfl
  rw [← argumentDerivative_expands sampler hexpands
    (hfits.imp_left fun hfits => ht.exact hfits)]
  exact chainRule_run sampler hexact (fun more p hp =>
    pipeline_isDerivative sampler hd hmethod hparameters hu hdiff hfits' hp) r horder hplan

end Plans

end Proofs

end CircuitGrad
