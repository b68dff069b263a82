import CircuitGrad.Proofs.ExactTrace
import CircuitGrad.Proofs.Shares

/-! # Results of shares

    On one state, the exact results of the shares of a measurement, weighted
    and summed in any order, are the result of the measurement, and one can
    be evaluated when the other can (`linearCombination_shares`).  For the
    mean of a Hamiltonian this is linearity in its words (`mean_hamiltonian`).
-/

namespace CircuitGrad

/-- The measurement has an exact result in the state. -/
def Measurement.Evaluates (m : Measurement ℝ) (s : StateVector ℝ) : Prop :=
  ∃ r, Simulation.exact s m = .ok r

/-- The exact result in the state, if there is one. -/
noncomputable def Measurement.resultIn (m : Measurement ℝ) (s : StateVector ℝ) : Tensor ℝ :=
  (Simulation.exact s m).toOption.getD (.scalar 0)

/-- The measurement has exact results: it asks for the state, for
    probabilities, or for a mean or a variance of an observable. -/
def Measurement.Analytic (m : Measurement ℝ) : Prop :=
  m.readout = .state ∨ m.readout = .probability ∨
    ∃ o, m = .ofObservable .expectation o ∨ m = .ofObservable .variance o

namespace Proofs

variable {n : ℕ} {s : StateVector ℝ} {m : Measurement ℝ}

theorem exact_of_evaluates (h : m.Evaluates s) : Simulation.exact s m = .ok (m.resultIn s) := by
  obtain ⟨r, hr⟩ := h
  unfold Measurement.resultIn
  rw [hr]
  rfl

/-- Measurements can be evaluated together when each of them can. -/
theorem mapM_exact_eq_ok_iff {ms : List (Measurement ℝ)} {rs : List (Tensor ℝ)} :
    ms.mapM (Simulation.exact s) = .ok rs ↔
      (∀ m ∈ ms, m.Evaluates s) ∧ rs = ms.map (·.resultIn s) := by
  have hall (h : ∀ m ∈ ms, m.Evaluates s) :
      ms.mapM (Simulation.exact s) = .ok (ms.map (·.resultIn s)) :=
    mapM_ok fun m hm => exact_of_evaluates (h m hm)
  constructor
  · intro h
    have hevaluates : ∀ m ∈ ms, m.Evaluates s := fun m hm => ok_of_mapM h hm
    exact ⟨hevaluates, Except.ok.inj (h.symm.trans (hall hevaluates))⟩
  · rintro ⟨h, rfl⟩
    exact hall h

/-- Whether statistics have an exact result depends on the register only. -/
theorem evaluates_iff (hm : m.Statistical) {ψ : Wave n} :
    m.Evaluates (ofWave ψ) ↔ checkMeasurement n m = .ok () := by
  unfold Measurement.Evaluates
  rw [exact_ofWave hm]
  cases checkMeasurement n m with
  | error e =>
    constructor
    · rintro ⟨_, h⟩
      cases h
    · intro h
      cases h
  | ok _ => exact ⟨fun _ => rfl, fun _ => ⟨_, rfl⟩⟩

theorem resultIn_of_statistical (hm : m.Statistical) {ψ : Wave n} (h : m.Evaluates (ofWave ψ)) :
    m.resultIn (ofWave ψ) = outcome m ψ := by
  have hr := exact_of_evaluates h
  rw [exact_ofWave hm, (evaluates_iff hm).mp h] at hr
  exact (Except.ok.inj hr).symm

/-- The exact result has the shape that the measurement announces. -/
theorem outputShape_of_evaluates (h : m.Evaluates s) :
    m.outputShape s.wires none = .ok (m.resultIn s).shape := by
  obtain ⟨n, ψ, rfl⟩ := eq_ofWave s
  unfold Measurement.outputShape
  cases hreadout : m.readout with
  | expectation =>
    rw [resultIn_of_statistical (.inl hreadout) h]
    unfold outcome
    cases m.observable <;> simp only [hreadout] <;> rfl
  | variance =>
    rw [resultIn_of_statistical (.inr (.inl hreadout)) h]
    unfold outcome
    cases m.observable <;> simp only [hreadout] <;> rfl
  | probability =>
    rw [resultIn_of_statistical (.inr (.inr hreadout)) h]
    unfold outcome
    simp only [hreadout]
    show _ = Except.ok [(Array.ofFn _).size]
    rw [Array.size_ofFn]
    rfl
  | state =>
    have hr := exact_of_evaluates h
    unfold Simulation.exact at hr
    simp only [hreadout] at hr
    rw [← Except.ok.inj hr]
    rfl
  | sample =>
    have hr := exact_of_evaluates h
    unfold Simulation.exact at hr
    simp only [hreadout] at hr
    cases hobservable : m.observable <;> simp only [hobservable] at hr <;> cases hr

theorem analytic_of_differentiable (hm : m.Differentiable) : m.Analytic := by
  rcases hm with ⟨o, h⟩ | ⟨word, h⟩ | ⟨wires, rfl⟩
  · exact .inr (.inr ⟨o, .inl h⟩)
  · exact .inr (.inr ⟨.word word, .inr h⟩)
  · exact .inr (.inl rfl)

/-- A measurement that has exact results has them in every state of a register
    with its wires. -/
theorem evaluates_of_analytic (hm : m.Analytic) (hwires : ∀ w ∈ m.wires, w < n) (ψ : Wave n) :
    m.Evaluates (ofWave ψ) := by
  rcases hm with hreadout | hreadout | ⟨o, rfl | rfl⟩
  · exact ⟨_, by unfold Simulation.exact; rw [hreadout]; rfl⟩
  · refine (evaluates_iff (.inr (.inr hreadout))).mpr ?_
    unfold checkMeasurement
    rw [hreadout]
    exact checkMeasuredWires_eq_ok hwires
  · exact (evaluates_iff (.inl rfl)).mpr (checkObservable_eq_ok hwires)
  · exact (evaluates_iff (.inr (.inl rfl))).mpr (checkObservable_eq_ok hwires)

/-! ## Means -/

theorem form_add (L M : Wave n →ₗ[ℂ] Wave n) (ψ : Wave n) :
    form (L + M) ψ = form L ψ + form M ψ := by
  unfold form
  rw [LinearMap.add_apply, braket_add_right, Complex.add_re]

theorem form_real_smul (c : ℝ) (L : Wave n →ₗ[ℂ] Wave n) (ψ : Wave n) :
    form ((c : ℂ) • L) ψ = c * form L ψ := by
  unfold form
  rw [LinearMap.smul_apply, braket_real_smul_right, Complex.re_ofReal_mul]

theorem form_sum {ι : Type} (items : List ι) (c : ι → ℝ) (L : ι → Wave n →ₗ[ℂ] Wave n)
    (ψ : Wave n) : form (items.map fun i => (c i : ℂ) • L i).sum ψ =
      (items.map fun i => c i * form (L i) ψ).sum := by
  induction items with
  | nil => exact form_zero ψ
  | cons i items ih =>
    rw [List.map_cons, List.sum_cons, form_add, form_real_smul, ih, List.map_cons, List.sum_cons]

/-- The mean is linear in the words. -/
theorem mean_hamiltonian (h : Hamiltonian ℝ) (ψ : Wave n) :
    mean (.hamiltonian h) ψ = (h.terms.map fun e => e.1 * mean (.word e.2) ψ).sum := by
  simp only [mean_eq_form, observableAction_word]
  exact form_sum h.terms _ _ ψ

/-- A mean can be taken when all words lie in the register. -/
theorem evaluates_mean_iff {o : Observable ℝ} (hreadout : m.readout = .expectation)
    (hobservable : m.observable = some o) {ψ : Wave n} :
    m.Evaluates (ofWave ψ) ↔ ∀ e ∈ o.terms, ∀ w ∈ e.2.wires, w < n := by
  have hcheck : checkMeasurement n m = checkObservable n o := by
    unfold checkMeasurement
    rw [hreadout, hobservable]
  rw [evaluates_iff (.inl hreadout), hcheck]
  exact foldlM_checkWires_eq_ok_iff

theorem resultIn_mean {o : Observable ℝ} (hreadout : m.readout = .expectation)
    (hobservable : m.observable = some o) {ψ : Wave n} (h : m.Evaluates (ofWave ψ)) :
    m.resultIn (ofWave ψ) = .scalar (mean o ψ) := by
  rw [resultIn_of_statistical (.inl hreadout) h]
  unfold outcome
  rw [hreadout, hobservable]

/-! ## Shares -/

variable {parent : ℕ} {own : List (Share ℝ)}

/-- The shares can be evaluated when the measurement can. -/
theorem evaluates_shares_iff (h : m.SharedAs parent own) :
    (∀ share ∈ own, share.measurement.Evaluates s) ↔ m.Evaluates s := by
  cases h with
  | whole => exact List.forall_mem_singleton
  | @terms hamiltonian hreadout hobservable =>
    obtain ⟨n, ψ, rfl⟩ := eq_ofWave s
    rw [evaluates_mean_iff hreadout hobservable, List.forall_mem_map]
    refine forall₂_congr fun e he => ?_
    rw [evaluates_mean_iff rfl rfl]
    exact List.forall_mem_singleton

/-- A weighted sum does not depend on the order. -/
theorem linearCombination_of_perm {ι : Type} {items items' : List ι} (hperm : items'.Perm items)
    (hitems : items ≠ []) {coefficient : ι → ℝ} {tensor : ι → Tensor ℝ} {T : Tensor ℝ}
    (hshape : ∀ i ∈ items, (tensor i).shape = T.shape)
    (hentry : ∀ o < Tensor.volume T.shape,
      (items.map fun i => coefficient i * (tensor i).entry o).sum = T.entry o) :
    Tensor.linearCombination (items'.map coefficient) (items'.map tensor) = .ok T := by
  have hitems' : items' ≠ [] := fun hnil => hitems (List.perm_nil.mp (hnil ▸ hperm.symm))
  rw [linearCombination_eq hitems' fun i hi => hshape i (hperm.mem_iff.mp hi)]
  refine congrArg Except.ok (Tensor.ext_entry rfl fun o (ho : o < Tensor.volume T.shape) => ?_)
  rw [Tensor.entry_ofFn ho, (hperm.map _).sum_eq]
  exact hentry o ho

/-- In any order, the weighted results of the shares are summed to the result
    of the measurement. -/
theorem linearCombination_shares (h : m.SharedAs parent own) (hown : own ≠ [])
    (hm : m.Evaluates s) {shares : List (Share ℝ)} (hshares : shares.Perm own) :
    Tensor.linearCombination (shares.map (·.coefficient))
      (shares.map fun share => share.measurement.resultIn s) = .ok (m.resultIn s) := by
  have hall := (evaluates_shares_iff h).mpr hm
  cases h with
  | whole =>
    refine linearCombination_of_perm hshares hown (List.forall_mem_singleton.mpr rfl) fun o _ => ?_
    simp
  | @terms hamiltonian hreadout hobservable =>
    obtain ⟨n, ψ, rfl⟩ := eq_ofWave s
    have hresult : ∀ e ∈ hamiltonian.terms,
        (Measurement.ofObservable .expectation (.word e.2)).resultIn (ofWave ψ) =
          .scalar (mean (.word e.2) ψ) := fun e he =>
      resultIn_mean rfl rfl (hall _ (List.mem_map_of_mem he))
    rw [resultIn_mean hreadout hobservable hm, mean_hamiltonian]
    refine linearCombination_of_perm hshares hown ?_ fun o ho => ?_
    · exact List.forall_mem_map.mpr fun e he => (congrArg Tensor.shape (hresult e he)).trans rfl
    · obtain rfl : o = 0 := Nat.lt_one_iff.mp ho
      rw [List.map_map]
      refine congrArg List.sum (List.map_congr_left fun e he => ?_)
      exact congrArg (fun r : Tensor ℝ => e.1 * r.entry 0) (hresult e he)

end Proofs

end CircuitGrad
