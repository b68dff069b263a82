import Mathlib
import CircuitGrad.Proofs.DecompositionTree
import CircuitGrad.Proofs.GivenAnswers
import CircuitGrad.Proofs.PlanAlgebra

/-! # Nothing to differentiate

    When no trainable parameter of an expanded trace is selected, its
    derivatives have no entries, and a differentiator gives them without
    asking the method of first derivatives.  The method would have given the
    same for a trace that it accepts (`plan_of_accepts`), but it refuses some
    traces before it looks at the parameters: where the state or samples are
    measured, where the variance of a Hamiltonian is to be shifted, and where
    the step of a difference quotient is no positive number
    (`refused_of_not_accepts`).  Those the differentiator lets pass.

    So a first derivative is that of the method exactly if something is
    selected, or the method accepts the trace, or the trace has no result and
    both fail (`derivative_agrees_iff`).
-/

namespace CircuitGrad

variable {α : Type} [Scalar α]

/-- The method takes first derivatives of what is measured, with the step that it has. -/
structure GradientMethod.Accepts (method : GradientMethod α) (t : Trace α) : Prop where
  smooth : ∀ m ∈ t.measurements, m.readout ≠ .state ∧ m.readout ≠ .sample
  linear : ∀ c, method = .parameterShift c →
    ∀ m ∈ t.measurements, m.readout = .variance → m.ofHamiltonian = false
  step   : ∀ c, method = .finiteDifference c → Scalar.isFinite c.step ∧ Scalar.lt 0 c.step

/-- The step answers with an error. -/
def Refused {β : Type} (x : Except Error β) : Prop := ∃ e, e ≠ .aborted ∧ x = .error e

namespace Proofs

/-! ## Checks of the method -/

section Checks

omit [Scalar α]

theorem checkDifferentiable_eq_ok_iff (t : Trace α) : t.checkDifferentiable = .ok () ↔
    ∀ m ∈ t.measurements, m.readout ≠ .state ∧ m.readout ≠ .sample := by
  unfold Trace.checkDifferentiable
  cases hfound : t.measurements.find? fun m => m.readout == .state || m.readout == .sample with
  | none =>
    refine ⟨fun _ m hm => ?_, fun _ => rfl⟩
    simpa using List.find?_eq_none.mp hfound m hm
  | some m =>
    refine ⟨nofun, fun h => ?_⟩
    obtain ⟨hstate, hsample⟩ := h m (List.mem_of_find?_eq_some hfound)
    simpa [hstate, hsample] using List.find?_some hfound

theorem exists_variances_iff (t : Trace α) : (∃ vs, t.variances = .ok vs) ↔
    ∀ m ∈ t.measurements, m.readout = .variance → m.ofHamiltonian = false := by
  unfold Trace.variances
  dsimp only
  split
  · next hany =>
    obtain ⟨⟨m, j⟩, hmem, hhamiltonian⟩ := List.any_eq_true.mp hany
    obtain ⟨hzip, hvariance⟩ := List.mem_filter.mp hmem
    refine ⟨nofun, fun h => ?_⟩
    have hword := h m (List.fst_mem_of_mem_zipIdx hzip) (by simpa using hvariance)
    exact absurd hhamiltonian (by simp [hword])
  · next hany =>
    refine ⟨fun _ m hm hvariance => ?_, fun _ => ⟨_, rfl⟩⟩
    obtain ⟨j, hj, rfl⟩ := List.getElem_of_mem hm
    have hzip : (t.measurements[j], j) ∈ t.measurements.zipIdx :=
      List.mem_zipIdx_iff_getElem?.mpr (List.getElem?_eq_getElem hj)
    by_contra hhamiltonian
    exact hany (List.any_eq_true.mpr ⟨_, List.mem_filter.mpr ⟨hzip, by simpa using hvariance⟩,
      by simpa using hhamiltonian⟩)

theorem exists_withMeans {t : Trace α} (ht : t.Valid) : ∃ base, t.withMeans = .ok base := by
  refine ⟨_, check_eq_ok_iff.mpr ⟨rfl, ?_, ht.operations, ?_⟩⟩
  · simpa using ht.measured
  · refine List.forall_mem_map.mpr fun m hm => ?_
    split
    · exact ht.measurements m hm
    · exact ht.measurements m hm

end Checks

variable {t u : Trace α} {method : GradientMethod α}

/-! ## First derivatives in no parameter -/

theorem shifts_of_none {c : ShiftConfig α} (ht : t.Valid) (hcheck : t.checkDifferentiable = .ok ())
    {vs : List ℕ} (hvs : t.variances = .ok vs) (hselect : t.selectTrainable c.parameters = .ok []) :
    ∃ p : List ℕ → Plan α, ParameterShift.plan t c =
        (t.outputShape >>= fun shape => .ok (p shape)) ∧
      ∀ shape, (Plan.known (.zeros (shape ++ [0]))).Alike (p shape) := by
  unfold ParameterShift.plan
  rw [hcheck, ok_bind, hselect, ok_bind, hvs, ok_bind]
  extract_lets rest
  -- Whichever trace would be shifted, there is no rule to shift it by.
  have hrest : ∀ base, ∃ p : List ℕ → Plan α, rest base =
      (t.outputShape >>= fun shape => .ok (p shape)) ∧
      ∀ shape, (Plan.known (.zeros (shape ++ [0]))).Alike (p shape) := by
    intro base
    refine ⟨_, rfl, fun shape => alike_of_fold ?_ fun results hlength => ?_⟩
    · simp [Plan.known]
    · have hnil : results = [] := List.length_eq_zero_iff.mp hlength
      subst hnil
      have hzeros : Agree Eq (.ok (.zeros (shape ++ [0])) : Except Error (Tensor α))
          (pure (.zeros (shape ++ [0]))) := .ok rfl
      simpa [Plan.known] using hzeros
  split
  · exact hrest t
  · obtain ⟨base, hbase⟩ := exists_withMeans ht
    rw [hbase, ok_bind]
    exact hrest base

/-- The plan of a trace that the method accepts: no trace, and a result without entries. -/
theorem plan_of_accepts (ht : t.Valid) (haccepts : method.Accepts t)
    (hselect : t.selectTrainable method.parameters = .ok []) :
    ∃ p : List ℕ → Plan α, method.plan t = (t.outputShape >>= fun shape => .ok (p shape)) ∧
      ∀ shape, (Plan.known (.zeros (shape ++ [0]))).Alike (p shape) := by
  have hcheck := (checkDifferentiable_eq_ok_iff t).mpr haccepts.smooth
  cases method with
  | parameterShift c =>
    obtain ⟨vs, hvs⟩ := (exists_variances_iff t).mpr (haccepts.linear c rfl)
    exact shifts_of_none ht hcheck hvs hselect
  | finiteDifference c =>
    obtain ⟨hfinite, hpositive⟩ := haccepts.step c rfl
    refine ⟨fun shape => .known (.zeros (shape ++ [0])), ?_, fun shape => .refl _⟩
    show FiniteDifference.plan t c = _
    unfold FiniteDifference.plan
    rw [hcheck, ok_bind, hfinite, hpositive]
    show (t.selectTrainable c.parameters >>= _) = _
    rw [show t.selectTrainable c.parameters = .ok [] from hselect]
    rfl

theorem refused_bind_left {β γ : Type} {x : Except Error β} (h : Refused x)
    (f : β → Except Error γ) : Refused (x >>= f) := by
  obtain ⟨e, he, rfl⟩ := h
  exact ⟨e, he, rfl⟩

theorem refused_bind {β γ : Type} {x : Except Error β} {f : β → Except Error γ}
    (hx : x ≠ .error .aborted) (hf : ∀ a, x = .ok a → Refused (f a)) : Refused (x >>= f) := by
  cases x with
  | error e => exact ⟨e, fun he => hx (congrArg Except.error he), rfl⟩
  | ok a => exact hf a rfl

theorem refused_of_ne_ok {β : Type} {x : Except Error β} (hx : x ≠ .error .aborted)
    (hok : ∀ a, x ≠ .ok a) : Refused x := by
  cases x with
  | error e => exact ⟨e, fun he => hx (congrArg Except.error he), rfl⟩
  | ok a => exact absurd rfl (hok a)

theorem refused_fault {β : Type} (fault : ArgumentFault) :
    Refused (fault.error : Except Error β) := ⟨.invalidArgument fault, nofun, rfl⟩

/-- What the method does not accept, it refuses whether or not something is selected. -/
theorem refused_of_not_accepts (hnot : ¬method.Accepts t) : Refused (method.plan t) := by
  cases method with
  | parameterShift c =>
    refine refused_bind (checkDifferentiable_answers t) fun _ hcheck =>
      refused_bind (selectTrainable_answers t _) fun selected _ => refused_bind_left ?_ _
    refine refused_of_ne_ok (variances_answers t) fun vs hvs => hnot ?_
    exact ⟨(checkDifferentiable_eq_ok_iff t).mp hcheck,
      fun _ _ => (exists_variances_iff t).mp ⟨vs, hvs⟩, nofun⟩
  | finiteDifference c =>
    refine refused_bind (checkDifferentiable_answers t) fun _ hcheck => ?_
    have hstep : (!(Scalar.isFinite c.step && Scalar.lt 0 c.step)) = true := by
      by_contra hstep
      refine hnot ⟨(checkDifferentiable_eq_ok_iff t).mp hcheck, nofun, ?_⟩
      rintro _ ⟨⟩
      simpa using hstep
    rw [if_pos hstep]
    exact refused_fault _

theorem refused_of_select {e : Error} (hselect : t.selectTrainable method.parameters = .error e) :
    Refused (method.plan t) := by
  have hrefused : Refused (t.selectTrainable method.parameters) :=
    ⟨e, fun he => selectTrainable_answers t _ (he ▸ hselect), hselect⟩
  cases method with
  | parameterShift c =>
    exact refused_bind (checkDifferentiable_answers t) fun _ _ => refused_bind_left hrefused _
  | finiteDifference c =>
    refine refused_bind (checkDifferentiable_answers t) fun _ _ => ?_
    split
    · exact refused_fault _
    · exact refused_bind_left hrefused _

/-! ## The derivative of order one -/

theorem derivative_one {d : Differentiator α} (hmax : 1 ≤ d.maxOrder)
    (hexpand : d.expand t = .ok u) : d.derivative t 1 = (do
      let selected ← u.selectTrainable d.method.parameters
      if selected.isEmpty then
        u.outputShape >>= fun shape => .ok (.known (.zeros (shape ++ [0])))
      else d.firstOrder u) := by
  unfold Differentiator.derivative
  rw [if_neg (by omega), if_neg one_ne_zero, if_neg (by simp), hexpand, ok_bind]
  rfl

/-- The first derivative of a trace is what the method gives of the expanded one, exactly if
    something is selected, the method accepts the trace, or the shape of its result is refused. -/
theorem derivative_agrees_iff (d : Differentiator α) (hmax : 1 ≤ d.maxOrder) (ht : t.Valid)
    (hexpand : d.expand t = .ok u) :
    (Agree Plan.Alike (d.derivative t 1) (d.firstOrder u) ∧
      (d.derivative t 1 = .error .aborted ↔ d.firstOrder u = .error .aborted)) ↔
    (u.selectTrainable d.method.parameters = .ok [] →
      d.method.Accepts u ∨ Refused u.outputShape) := by
  have hu := valid_of_expandDifferentiable ht hexpand
  have hfirst : d.firstOrder u = d.method.plan u := rfl
  rw [derivative_one hmax hexpand, hfirst]
  cases hselect : u.selectTrainable d.method.parameters with
  | error e =>
    -- Neither selects, and both answer.
    obtain ⟨e', he', hplan⟩ := refused_of_select hselect
    have he : e ≠ .aborted := fun he => selectTrainable_answers u _ (he ▸ hselect)
    rw [hplan, error_bind]
    refine ⟨fun _ => nofun, fun _ => ⟨.error, ?_⟩⟩
    simp [he, he']
  | ok selected =>
    rw [ok_bind]
    cases selected with
    | cons i rest =>
      refine ⟨fun _ => nofun, fun _ => ⟨.refl .refl _, Iff.rfl⟩⟩
    | nil =>
      rw [List.isEmpty_nil, if_pos rfl]
      by_cases haccepts : d.method.Accepts u
      · obtain ⟨p, hplan, halike⟩ := plan_of_accepts hu haccepts hselect
        rw [hplan]
        refine ⟨fun _ _ => .inl haccepts, fun _ => ?_⟩
        cases u.outputShape with
        | error e => exact ⟨.error, Iff.rfl⟩
        | ok shape => exact ⟨.ok (halike shape), ⟨nofun, nofun⟩⟩
      · -- The method refuses the trace; the derivative fails only for want of a shape.
        obtain ⟨e', he', hplan⟩ := refused_of_not_accepts haccepts
        rw [hplan]
        cases u.outputShape with
        | error e =>
          constructor
          · rintro ⟨-, haborted⟩ -
            refine .inr ⟨e, fun he => he' ?_, rfl⟩
            exact Except.error.inj (haborted.mp (congrArg Except.error he))
          · intro hrefused
            obtain ⟨_, he, heq⟩ := (hrefused rfl).resolve_left haccepts
            obtain rfl := Except.error.inj heq
            refine ⟨.error, ⟨fun h => absurd (Except.error.inj h) he, fun h => ?_⟩⟩
            exact absurd (Except.error.inj h) he'
        | ok shape =>
          constructor
          · rintro ⟨hagree, -⟩
            cases hagree
          · intro hrefused
            obtain ⟨_, -, heq⟩ := (hrefused rfl).resolve_left haccepts
            cases heq

/-! ## Traces without trainable parameters -/

/-- A rotation by a constant. -/
noncomputable def constantRotation (measurements : List (Measurement ℝ)) : Trace ℝ :=
  { operations := [⟨StandardGate.rx.spec, [.constant 0.5], [0]⟩]
    measurements, register := 1, shots := .analytic, layout := .empty }

/-- A differentiator without gates of its own. -/
noncomputable def takenBy (method : GradientMethod ℝ) : Differentiator ℝ := .ofMethod method ⟨#[]⟩

/-- The mean of a word after a rotation by a constant. -/
noncomputable def constantMean : Trace ℝ :=
  constantRotation [.ofObservable .expectation (.word (.single 0 .Z))]

theorem derivative_agrees_iff_mean :
    (takenBy (.parameterShift .standard)).derivative constantMean 1 =
      .ok (.known (.zeros [0])) ∧
    Agree Plan.Alike ((takenBy (.parameterShift .standard)).derivative constantMean 1)
      ((takenBy (.parameterShift .standard)).firstOrder constantMean) := by
  have hvalid : constantMean.Valid := ⟨by decide, by decide, by decide⟩
  have hexpand : (takenBy (.parameterShift .standard)).expand constantMean =
      .ok constantMean := rfl
  have haccepts : (takenBy (.parameterShift .standard)).method.Accepts constantMean :=
    ⟨by decide, fun _ _ => by decide, nofun⟩
  exact ⟨rfl, ((derivative_agrees_iff _ (by decide) hvalid hexpand).mpr
    fun _ => .inl haccepts).1⟩

/-- The state has no derivative, and the method says so; the differentiator does not. -/
theorem derivative_of_state :
    (takenBy (.parameterShift .standard)).expand (constantRotation [.state]) =
      .ok (constantRotation [.state]) ∧
    (takenBy (.parameterShift .standard)).derivative (constantRotation [.state]) 1 =
      .ok (.known (.zeros [2, 2, 0])) ∧
    (takenBy (.parameterShift .standard)).firstOrder (constantRotation [.state]) =
      .error (.gradientUndefined "state" .noDerivative) :=
  ⟨rfl, rfl, rfl⟩

end Proofs

end CircuitGrad
