import CircuitGrad.Binding.Basic
import CircuitGrad.Proofs.Contraction

/-! # Derivatives in the entries of an argument

    A binding differentiates in the parameters of the expanded trace and then
    applies the chain rule: every parameter dimension is contracted with the
    Jacobian of the parameters in the entries of the argument.  Second
    derivatives of curved parameters add the gradient contracted with their
    Hessian, which is executed as a plan of its own.
-/

namespace CircuitGrad

namespace Proofs

section Carry

variable {r : InputRange} {D : Tensor ℝ} {lead : List ℕ} {n order : ℕ}

theorem leadingShape_eq (hshape : D.shape = lead ++ List.replicate order n) :
    ChainRule.leadingShape D order = .ok lead := by
  have hrank : D.rank = lead.length + order := by
    unfold Tensor.rank
    simp [hshape]
  unfold ChainRule.leadingShape
  rw [if_neg (by omega), hrank, hshape]
  simp

/-- Every parameter dimension is contracted with the Jacobian and laid out like the
    argument. -/
theorem carry_eq (hshape : D.shape = lead ++ List.replicate order n) {jacobian : Array ℝ}
    (hsize : jacobian.size = n * r.size) {J : Fin n → Fin r.size → ℝ}
    (hJ : ∀ (k : Fin n) (a : Fin r.size), jacobian.getD (k.val * r.size + a) 0 = J k a) :
    ∃ T, ChainRule.carry r jacobian order D = .ok T ∧
      T.shape = lead ++ (List.replicate order r.shape).flatten ∧
      ∀ o < Tensor.volume lead, ∀ a : Fin order → Fin r.size,
        T.entry (position r.size o (List.ofFn fun i => (a i).val)) = contraction D J o a := by
  obtain ⟨C, hfold, hC, hentry⟩ := contract_dimensions hsize order 0 hshape
  have hvolume : Tensor.volume C.shape =
      Tensor.volume (lead ++ (List.replicate order r.shape).flatten) := by
    rw [hC, List.replicate_zero, List.append_nil, volume_append_replicate, Tensor.volume_append,
      volume_flatten_replicate]
    rfl
  obtain ⟨T, hreshape, hT, hsame⟩ := reshape_eq hvolume
  refine ⟨T, ?_, hT, ?_⟩
  · unfold ChainRule.carry
    rw [leadingShape_eq hshape, ok_bind, hfold, ok_bind, hreshape]
  · intro o ho a
    have hvalue := hentry o ho a 0 (by simp)
    simp only [pow_zero, mul_one, add_zero, hJ] at hvalue
    rw [hsame, hvalue]
    rfl

end Carry

/-! ## Parameters as functions of the entries -/

end Proofs

namespace Trace

variable (t : Trace ℝ) (r : InputRange)

/-- First partial derivative of a trainable parameter in an entry of an argument. -/
noncomputable def slopeIn (k : Fin t.trainable.length) (a : Fin r.size) : ℝ :=
  (t.trainable.get k).slope (r.start + a)

/-- Second partial derivative of a trainable parameter in two entries of an
    argument. -/
noncomputable def bendIn (k : Fin t.trainable.length) (a b : Fin r.size) : ℝ :=
  (t.trainable.get k).bend (r.start + a) (r.start + b)

end Trace

namespace Proofs

theorem size_slopes (t : Trace ℝ) (r : InputRange) :
    (t.slopes r).data.size = t.trainable.length * r.size := by
  rw [← Tensor.size, Tensor.size_eq_volume]
  rfl

theorem size_bends (t : Trace ℝ) (r : InputRange) :
    (t.bends r).data.size = t.trainable.length * (r.size * r.size) := by
  rw [← Tensor.size, Tensor.size_eq_volume]
  unfold Trace.bends InputRange.size
  rw [Tensor.shape_ofFn, List.cons_append, Tensor.volume_cons, Tensor.volume_append,
    List.size_toArray]

theorem getD_slopes (t : Trace ℝ) (r : InputRange) (k : Fin t.trainable.length)
    (a : Fin r.size) : (t.slopes r).data.getD (k.val * r.size + a) 0 = t.slopeIn r k a := by
  have hlt : k.val * r.size + a < Tensor.volume (t.trainable.length :: r.shape) :=
    row_add_lt k.isLt a.isLt
  show (t.slopes r).entry _ = _
  unfold Trace.slopes
  rw [Tensor.entry_ofFn (by simpa using hlt), row_add_div a.isLt, row_add_mod a.isLt]
  simp [Trace.slopeIn]

theorem getD_bends (t : Trace ℝ) (r : InputRange) (k : Fin t.trainable.length)
    (a b : Fin r.size) : (t.bends r).data.getD (k.val * (r.size * r.size) + (a * r.size + b)) 0 =
      t.bendIn r k a b := by
  have hrow : k.val * (r.size * r.size) + (a * r.size + b) = (k * r.size + a) * r.size + b := by
    ring
  have hlt : (k.val * r.size + a) * r.size + b <
      Tensor.volume (t.trainable.length :: r.shape ++ r.shape) := by
    rw [Tensor.volume_append, Tensor.volume_cons]
    exact row_add_lt (row_add_lt k.isLt a.isLt) b.isLt
  show (t.bends r).entry _ = _
  unfold Trace.bends
  rw [hrow, Tensor.entry_ofFn (by simpa using hlt)]
  simp only [row_add_div b.isLt, row_add_mod b.isLt, row_add_div a.isLt, row_add_mod a.isLt]
  simp [Trace.bendIn]

section Second

variable {r : InputRange} {second first : Tensor ℝ} {lead : List ℕ} {n : ℕ}

/-- The second derivative in the entries has a part from each derivative in the
    parameters. -/
theorem carrySecond_eq (hsecond : second.shape = lead ++ List.replicate 2 n)
    (hfirst : first.shape = lead ++ [n]) {jacobian hessian : Array ℝ}
    (hjacobian : jacobian.size = n * r.size) (hhessian : hessian.size = n * (r.size * r.size))
    {J : Fin n → Fin r.size → ℝ} {H : Fin n → Fin r.size → Fin r.size → ℝ}
    (hJ : ∀ (k : Fin n) (a : Fin r.size), jacobian.getD (k.val * r.size + a) 0 = J k a)
    (hH : ∀ (k : Fin n) (a b : Fin r.size),
      hessian.getD (k.val * (r.size * r.size) + (a * r.size + b)) 0 = H k a b) :
    ∃ T, ChainRule.carrySecond r jacobian hessian second first = .ok T ∧
      T.shape = lead ++ r.shape ++ r.shape ∧
      ∀ o < Tensor.volume lead, ∀ a b : Fin r.size,
        T.entry ((o * r.size + a) * r.size + b) =
          ∑ k : Fin n, ∑ l : Fin n, second.entry ((o * n + k) * n + l) * (J k a * J l b) +
            ∑ k : Fin n, first.entry (o * n + k) * H k a b := by
  obtain ⟨C, hcarry, hC, hcarried⟩ := carry_eq hsecond hjacobian hJ
  obtain ⟨K, hcontract, hK, hcurved⟩ := contract_eq hfirst hhessian
  have hvolume : Tensor.volume K.shape = Tensor.volume (lead ++ r.shape ++ r.shape) := by
    rw [hK]
    simp [Tensor.volume_append, InputRange.size]
  obtain ⟨L, hreshape, hL, hsame⟩ := reshape_eq hvolume
  have hshapes : C.shape = L.shape := by
    rw [hC, hL]
    simp
  have hcheck : Tensor.checkShape "add" C.shape L.shape = .ok () := if_pos hshapes
  refine ⟨.ofFn C.shape fun i => C.entry i + L.entry i, ?_, hshapes.trans hL, ?_⟩
  · unfold ChainRule.carrySecond Tensor.add
    rw [leadingShape_eq hsecond, ok_bind, hcarry, ok_bind, hcontract, ok_bind, hreshape, ok_bind,
      hcheck]
    rfl
  · intro o ho a b
    have hlt : (o * r.size + a) * r.size + b < Tensor.volume C.shape := by
      rw [hshapes, hL, Tensor.volume_append, Tensor.volume_append]
      exact row_add_lt (row_add_lt ho a.isLt) b.isLt
    have hmain := hcarried o ho ![a, b]
    have hcurve := hcurved o ho (a * r.size + b) (row_add_lt a.isLt b.isLt) 0 (by simp)
    simp only [Tensor.volume_nil, mul_one, add_zero, hH] at hcurve
    have hposition : o * (r.size * r.size) + (a.val * r.size + b) =
        (o * r.size + a) * r.size + b := by
      ring
    rw [hposition] at hcurve
    rw [contraction_two] at hmain
    rw [Tensor.entry_ofFn hlt, hsame, hcurve]
    simp only [mul_comm (H _ a b)]
    rw [← hmain]
    simp [position]

end Second

/-! ## Plans of derivatives -/

section Plans

variable {p q : Plan ℝ}

/-- Two plans executed together take their own results each. -/
theorem combine_both {own rest : List (Tensor ℝ)} {a b : Tensor ℝ} (hp : p.combine own = .ok a)
    (hq : q.combine rest = .ok b) (g : Tensor ℝ → Tensor ℝ → Except Error (Tensor ℝ)) :
    (ChainRule.both p q g).combine (own ++ rest) = g a b := by
  have hown := length_of_combine hp
  have hrest := length_of_combine hq
  have htraces : (PlanBatch.mk [p, q]).traces = p.traces ++ q.traces := by
    simp [PlanBatch.traces]
  have hlength : (own ++ rest).length = (p.traces ++ q.traces).length := by
    rw [List.length_append, List.length_append, hown, hrest]
    rfl
  have hfold : Plan.foldEach [p, q] (own ++ rest) = .ok [a, b] := by
    refine foldEach_cons_eq_ok hp ?_
    have hnone : Plan.foldEach ([] : List (Plan ℝ)) [] = .ok [] := rfl
    have hlast := foldEach_cons_eq_ok hq hnone
    rwa [List.append_nil] at hlast
  have hbatch : (PlanBatch.mk [p, q]).combine (own ++ rest) = .ok [a, b] := by
    unfold PlanBatch.combine Plan.checkArity
    rw [htraces, if_pos hlength.symm]
    exact hfold
  have hsize : (own ++ rest).length = (ChainRule.both p q g).size :=
    hlength.trans (congrArg List.length htraces.symm)
  rw [combine_of_length hsize]
  unfold ChainRule.both
  simp only [hbatch, ok_bind]

end Plans

/-! ## Derivatives in the entries of an argument -/

section Jobs

variable {t : Trace ℝ} {r : InputRange} {order : ℕ} {derivative : ℕ → Except Error (Plan ℝ)}
  {plan : Plan ℝ}

/-- The plan of a derivative folds that of the same order and, where a parameter is
    curved, that of the first order. -/
theorem plan_cases (h : ChainRule.plan t r order derivative = .ok plan) :
    ∃ main, derivative order = .ok main ∧
      ((order = 1 ∨ t.trainable.all (·.isAffine)) →
        plan = main.map (ChainRule.carry r (t.slopes r).data order)) ∧
      (¬(order = 1 ∨ t.trainable.all (·.isAffine)) → ∃ first, derivative 1 = .ok first ∧
        plan = ChainRule.both main first
          (ChainRule.carrySecond r (t.slopes r).data (t.bends r).data)) := by
  unfold ChainRule.plan at h
  obtain ⟨main, hmain, h⟩ := bind_eq_ok h
  refine ⟨main, hmain, ?_, ?_⟩
  · intro hdirect
    have hflag : (decide (order = 1) || t.trainable.all (·.isAffine)) = true := by
      simpa using hdirect
    rw [if_pos hflag] at h
    exact (Except.ok.inj h).symm
  · intro hcurved
    have hflag : ¬(decide (order = 1) || t.trainable.all (·.isAffine)) = true := by
      simpa using hcurved
    rw [if_neg hflag] at h
    by_cases horder : order > 2
    · rw [if_pos horder] at h
      cases h
    · rw [if_neg horder] at h
      obtain ⟨_, -, h⟩ := bind_eq_ok h
      obtain ⟨first, hfirst, h⟩ := bind_eq_ok h
      exact ⟨first, hfirst, (Except.ok.inj h).symm⟩

end Jobs

/-- A rotation about the first axis with a shift rule of its own. -/
noncomputable def turn : GateSpec ℝ :=
  { StandardGate.rx.spec with rule := some (.fixed .pauliRotation) }

/-- The square of the only input, at three. -/
def square : Jet ℝ := ⟨9, some ⟨[6], some [((0, 0), 2)], false⟩⟩

end Proofs

end CircuitGrad
