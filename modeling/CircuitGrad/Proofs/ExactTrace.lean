import CircuitGrad.Proofs.Assignment
import CircuitGrad.Proofs.Packed

/-! # Exact traces

    The result of a trace of standard gates under exact evaluation, entry by
    entry, as a function of the final wave (`simulate_exact`).  An entry is
    quadratic in the wave, or it is the variance of a word: the length of the
    wave, which never changes, less the square of the mean (`reading_cases`).
-/

namespace CircuitGrad

/-- A mean, the variance of a word, or probabilities. -/
def Measurement.Differentiable (m : Measurement ℝ) : Prop :=
  (∃ o, m = .ofObservable .expectation o) ∨ (∃ w, m = .ofObservable .variance (.word w)) ∨
    ∃ ws, m = .probs ws

/-- A valid trace over the standard gates whose exact results can be
    differentiated, on a register that the simulator can hold. -/
structure Trace.Exact (t : Trace ℝ) : Prop where
  valid        : t.Valid
  standard     : ∀ op ∈ t.operations, op.Standard
  measurements : ∀ m ∈ t.measurements, m.Differentiable
  analytic     : t.shots = .analytic
  nonempty     : t.register ≠ 0
  fits         : t.register ≤ StateVector.maxWires

namespace Proofs

variable {n : ℕ}

theorem statistical_of_differentiable {m : Measurement ℝ} (h : m.Differentiable) :
    m.Statistical := by
  rcases h with ⟨o, rfl⟩ | ⟨w, rfl⟩ | ⟨ws, rfl⟩
  · exact .inl rfl
  · exact .inr (.inl rfl)
  · exact .inr (.inr rfl)

/-! ## Shapes -/

/-- Shape of the exact result of a measurement. -/
def shapeOf (n : ℕ) (m : Measurement ℝ) : List ℕ :=
  if m.readout = .probability then [2 ^ (m.measuredWires n).length] else []

theorem outputShape_eq {m : Measurement ℝ} (h : m.Differentiable) (n : ℕ) :
    m.outputShape n none = .ok (shapeOf n m) := by
  rcases h with ⟨o, rfl⟩ | ⟨w, rfl⟩ | ⟨ws, rfl⟩ <;> rfl

theorem shape_outcome {m : Measurement ℝ} (h : m.Differentiable) (ψ : Wave n) :
    (outcome m ψ).shape = shapeOf n m := by
  rcases h with ⟨o, rfl⟩ | ⟨w, rfl⟩ | ⟨ws, rfl⟩
  · rfl
  · rfl
  · show [(Array.ofFn _).size] = [2 ^ _]
    rw [Array.size_ofFn]

/-- Layout of the results of the measurements. -/
def layoutOf (t : Trace ℝ) : Packing := .ofShapes (t.measurements.map (shapeOf t.register))

section Layout

variable {t : Trace ℝ}

theorem measurementShapes_eq (hms : ∀ m ∈ t.measurements, m.Differentiable) :
    t.measurementShapes none = .ok (t.measurements.map (shapeOf t.register)) :=
  mapM_ok fun m hm => outputShape_eq (hms m hm) _

theorem traceOutputShape_eq (hms : ∀ m ∈ t.measurements, m.Differentiable)
    (hshots : t.shots = .analytic) : t.outputShape = .ok (layoutOf t).shape :=
  outputShape_of_shapes (measurementShapes_eq hms) hshots

theorem packResults_eq (hms : ∀ m ∈ t.measurements, m.Differentiable)
    (hshots : t.shots = .analytic) {rs : List (Tensor ℝ)}
    (hrs : rs.map (·.shape) = t.measurements.map (shapeOf t.register)) :
    ∃ T, t.packResults [rs] = .ok T ∧ T.shape = (layoutOf t).shape ∧
      T.data.toList = rs.flatMap (·.data.toList) :=
  packResults_of_shapes (measurementShapes_eq hms) hshots hrs

theorem unpackResult_eq (hms : ∀ m ∈ t.measurements, m.Differentiable)
    (hshots : t.shots = .analytic) {T : Tensor ℝ} (hT : T.shape = (layoutOf t).shape) :
    ∃ rs, t.unpackResult T = .ok [rs] ∧
      rs.map (·.shape) = t.measurements.map (shapeOf t.register) ∧
      rs.flatMap (·.data.toList) = T.data.toList :=
  unpackResult_of_shapes (measurementShapes_eq hms) hshots hT

end Layout

/-! ## Entries of results -/

/-- An entry of the outcomes of measurements, one after the other. -/
noncomputable def reading (ms : List (Measurement ℝ)) (o : ℕ) (ψ : Wave n) : ℝ :=
  (ms.flatMap fun m => (outcome m ψ).data.toList).getD o 0

/-- An entry belongs to a variance. -/
def isVariance (n : ℕ) : List (Measurement ℝ) → ℕ → Bool
  | [], _ => false
  | m :: ms, o =>
    if o < Tensor.volume (shapeOf n m) then m.readout == .variance
    else isVariance n ms (o - Tensor.volume (shapeOf n m))

/-- The measurement of the mean where a variance is measured. -/
def meanOf {α : Type} (m : Measurement α) : Measurement α :=
  if m.readout = .variance then m.withReadout .expectation else m

theorem differentiable_meanOf {m : Measurement ℝ} (h : m.Differentiable) :
    (meanOf m).Differentiable := by
  rcases h with ⟨o, rfl⟩ | ⟨w, rfl⟩ | ⟨ws, rfl⟩
  · exact .inl ⟨o, rfl⟩
  · exact .inl ⟨.word w, rfl⟩
  · exact .inr (.inr ⟨ws, rfl⟩)

theorem shapeOf_meanOf (n : ℕ) {m : Measurement ℝ} (h : m.Differentiable) :
    shapeOf n (meanOf m) = shapeOf n m := by
  rcases h with ⟨o, rfl⟩ | ⟨w, rfl⟩ | ⟨ws, rfl⟩ <;> rfl

theorem wires_meanOf (m : Measurement ℝ) : (meanOf m).wires = m.wires := by
  unfold meanOf
  split <;> rfl

theorem reading_cons {m : Measurement ℝ} (hm : m.Differentiable) (ms : List (Measurement ℝ))
    (o : ℕ) (ψ : Wave n) : reading (m :: ms) o ψ =
      if o < Tensor.volume (shapeOf n m) then (outcome m ψ).entry o
      else reading ms (o - Tensor.volume (shapeOf n m)) ψ := by
  have hmap : ∀ ms : List (Measurement ℝ), reading ms o ψ =
      ((ms.map fun m => outcome m ψ).flatMap (·.data.toList)).getD o 0 := by
    intro ms
    rw [List.flatMap_map]
    rfl
  rw [hmap, List.map_cons, getD_data_cons, shape_outcome hm]
  unfold reading
  rw [List.flatMap_map]

theorem form_zero (ψ : Wave n) : form 0 ψ = 0 := by
  simp [form, braket]

/-- A word is measured by its own action. -/
theorem observableAction_word (w : PauliWord) :
    (observableAction (.word w) : Wave n →ₗ[ℂ] Wave n) = wordAction w := by
  show (((1 : ℝ) : ℂ) • wordAction w : Wave n →ₗ[ℂ] Wave n) + 0 = _
  rw [Complex.ofReal_one, one_smul, add_zero]

theorem variance_word (w : PauliWord) (ψ : Wave n) : variance (.word w) ψ =
    weight ψ - form (wordAction w) ψ * form (wordAction w) ψ := by
  unfold variance
  rw [mean_eq_form, observableAction_word, weight_wordAction]

/-- An entry of one measurement. -/
theorem entry_outcome_cases {m : Measurement ℝ} (hm : m.Differentiable) {o : ℕ}
    (ho : o < Tensor.volume (shapeOf n m)) : ∃ L : Wave n →ₗ[ℂ] Wave n,
      (∀ ψ, (outcome (meanOf m) ψ).entry o = form L ψ) ∧
      (m.readout ≠ .variance → ∀ ψ, (outcome m ψ).entry o = form L ψ) ∧
      (m.readout = .variance → ∀ ψ : Wave n, (outcome m ψ).entry o =
        weight ψ - form L ψ * form L ψ) := by
  rcases hm with ⟨obs, rfl⟩ | ⟨w, rfl⟩ | ⟨ws, rfl⟩
  · obtain rfl : o = 0 := Nat.lt_one_iff.mp ho
    exact ⟨observableAction obs, fun _ => rfl, fun _ _ => rfl, fun h => by cases h⟩
  · obtain rfl : o = 0 := Nat.lt_one_iff.mp ho
    refine ⟨wordAction w, fun ψ => ?_, fun h => absurd rfl h, fun _ ψ => variance_word w ψ⟩
    rw [← observableAction_word]
    rfl
  -- A probability is quadratic in the part of the wave that spells its number.
  · have hentry : ∀ ψ : Wave n, (outcome (.probs ws) ψ).entry o =
        form (spelled ((Measurement.probs (α := ℝ) ws).measuredWires n) o) ψ := by
      intro ψ
      have ho' : o < 2 ^ ((Measurement.probs (α := ℝ) ws).measuredWires n).length := by
        rw [← Nat.mul_one (2 ^ _)]
        exact ho
      rw [← chance_eq_form]
      unfold Tensor.entry
      show (Array.ofFn _).getD o 0 = _
      rw [Array.getD_eq_getD_getElem?, Array.getElem?_ofFn, dif_pos ho', Option.getD_some]
    exact ⟨_, hentry, fun _ => hentry, fun h => by cases h⟩

/-- An entry is quadratic in the wave, or a length less the square of what is. -/
theorem reading_cases {ms : List (Measurement ℝ)} (hms : ∀ m ∈ ms, m.Differentiable) (o : ℕ) :
    ∃ L : Wave n →ₗ[ℂ] Wave n, (∀ ψ, reading (ms.map meanOf) o ψ = form L ψ) ∧
      (isVariance n ms o = false → ∀ ψ, reading ms o ψ = form L ψ) ∧
      (isVariance n ms o = true → ∀ ψ : Wave n, reading ms o ψ =
        weight ψ - form L ψ * form L ψ) := by
  induction ms generalizing o with
  | nil =>
    exact ⟨0, fun ψ => (form_zero ψ).symm, fun _ ψ => (form_zero ψ).symm, fun h => by cases h⟩
  | cons m ms ih =>
    obtain ⟨hm, hrest⟩ := List.forall_mem_cons.mp hms
    -- The mean has the shape of what it replaces, so both are read at one position.
    have hmean := fun ψ : Wave n => reading_cons (differentiable_meanOf hm) (ms.map meanOf) o ψ
    rw [shapeOf_meanOf n hm] at hmean
    rw [List.map_cons, isVariance]
    by_cases ho : o < Tensor.volume (shapeOf n m)
    · simp only [if_pos ho] at hmean ⊢
      obtain ⟨L, hL, hplain, hvariance⟩ := entry_outcome_cases hm ho
      refine ⟨L, fun ψ => (hmean ψ).trans (hL ψ), fun h ψ => ?_, fun h ψ => ?_⟩
      · rw [reading_cons hm, if_pos ho]
        exact hplain (by simpa using h) ψ
      · rw [reading_cons hm, if_pos ho]
        exact hvariance (by simpa using h) ψ
    · simp only [if_neg ho] at hmean ⊢
      obtain ⟨L, hL, hplain, hvariance⟩ := ih hrest (o - Tensor.volume (shapeOf n m))
      refine ⟨L, fun ψ => (hmean ψ).trans (hL ψ), fun h ψ => ?_, fun h ψ => ?_⟩
      · rw [reading_cons hm, if_neg ho]
        exact hplain h ψ
      · rw [reading_cons hm, if_neg ho]
        exact hvariance h ψ

/-! ## Execution -/

/-- All words must lie in the register. -/
theorem foldlM_checkWires_eq_ok_iff {terms : List (ℝ × PauliWord)} :
    terms.foldlM (fun _ e => (ofWave (0 : Wave n)).checkWires e.2.wires) () = .ok () ↔
      ∀ e ∈ terms, ∀ w ∈ e.2.wires, w < n := by
  induction terms with
  | nil => exact ⟨fun _ e he => absurd he List.not_mem_nil, fun _ => rfl⟩
  | cons e terms ih =>
    rw [List.foldlM_cons, List.forall_mem_cons, ← ih, ← stateCheckWires_eq_ok_iff 0]
    constructor
    · intro h
      obtain ⟨_, he, hrest⟩ := bind_eq_ok h
      exact ⟨he, hrest⟩
    · rintro ⟨he, hrest⟩
      rw [he]
      exact hrest

theorem checkObservable_eq_ok {o : Observable ℝ} (h : ∀ w ∈ o.wires, w < n) :
    checkObservable n o = .ok () := by
  have hword : ∀ e ∈ o.terms, e.2 ∈ o.words := by
    intro e he
    cases o with
    | word v =>
      obtain rfl := List.mem_singleton.mp he
      exact List.mem_singleton.mpr rfl
    | hamiltonian h => exact List.mem_map_of_mem he
  exact foldlM_checkWires_eq_ok_iff.mpr fun e he w hw => h w (mem_wires_of_word (hword e he) hw)

theorem checkMeasuredWires_eq_ok {m : Measurement ℝ} (h : ∀ w ∈ m.wires, w < n) :
    (ofWave (0 : Wave n)).checkWires (m.measuredWires n) = .ok () := by
  refine (stateCheckWires_eq_ok_iff _ _).mpr fun w hw => ?_
  unfold Measurement.measuredWires at hw
  split at hw
  · exact List.mem_range.mp hw
  · exact h w hw

theorem checkMeasurement_eq_ok {m : Measurement ℝ} (hm : m.Differentiable)
    (h : ∀ w ∈ m.wires, w < n) : checkMeasurement n m = .ok () := by
  rcases hm with ⟨o, rfl⟩ | ⟨w, rfl⟩ | ⟨ws, rfl⟩
  · exact checkObservable_eq_ok h
  · exact checkObservable_eq_ok h
  · exact checkMeasuredWires_eq_ok h

/-- The packed result of an exact trace, entry by entry. -/
theorem simulate_exact {ρ : Type} (sampler : Sampler ℝ ρ) {t : Trace ℝ} (ht : t.Exact)
    {ψ : Wave t.register} (hfinal : Simulation.finalState t = .ok (ofWave ψ)) :
    ∃ T, t.simulate sampler = .ok T ∧ T.shape = (layoutOf t).shape ∧
      ∀ o, T.entry o = reading t.measurements o ψ := by
  have hchecks : t.measurements.mapM (checkMeasurement t.register) =
      .ok (t.measurements.map fun _ => ()) :=
    mapM_ok fun m hm => checkMeasurement_eq_ok (ht.measurements m hm) (ht.valid.measurements m hm)
  have hshapes : (t.measurements.map fun m => outcome m ψ).map (·.shape) =
      t.measurements.map (shapeOf t.register) := by
    rw [List.map_map]
    exact List.map_congr_left fun m hm => shape_outcome (ht.measurements m hm) ψ
  have hstatistical : ∀ m ∈ t.measurements, m.Statistical := fun m hm =>
    statistical_of_differentiable (ht.measurements m hm)
  obtain ⟨T, hpack, hshape, hdata⟩ := packResults_eq ht.measurements ht.analytic hshapes
  refine ⟨T, ?_, hshape, fun o => ?_⟩
  · rw [simulate_eq sampler ht.analytic hstatistical hfinal, hchecks]
    exact hpack
  · rw [entry_eq_getD, hdata, List.flatMap_map]
    rfl

end Proofs

end CircuitGrad
