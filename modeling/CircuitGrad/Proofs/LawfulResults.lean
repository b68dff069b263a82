import Mathlib
import CircuitGrad.Proofs.DecomposedState
import CircuitGrad.Proofs.Eigenbasis

/-! # Results that obey the laws of probability

    The standard gates prepare states of length one.  So the exact results of a
    trace are lawful: probabilities are not negative and add up to one, the
    mean of a Pauli word is between minus one and one, its variance is one less
    the squared mean, and no variance is negative (`simulate_lawful`).

    The bounds are the inequality of Cauchy and Schwarz for the wave and its
    image under the observable; a Pauli word keeps the length of its wave.
-/

namespace CircuitGrad

/-- What the exact result of a measurement in a state obeys. -/
structure Measurement.Lawful (m : Measurement ℝ) (s : StateVector ℝ) (r : Tensor ℝ) : Prop where
  probabilities : m.readout = .probability →
    (∀ p ∈ r.data, 0 ≤ p) ∧ Scalar.sum r.data.toList = 1
  mean : ∀ word, m.readout = .expectation → m.observable = some (.word word) →
    ∃ e, r = .scalar e ∧ -1 ≤ e ∧ e ≤ 1
  wordVariance : ∀ word, m.readout = .variance → m.observable = some (.word word) →
    ∃ e, s.wordExpectation word = .ok e ∧ r = .scalar (1 - e ^ 2) ∧ 0 ≤ 1 - e ^ 2 ∧ 1 - e ^ 2 ≤ 1
  variance : ∀ o, m.readout = .variance → m.observable = some o →
    ∃ v, r = .scalar v ∧ 0 ≤ v

namespace Proofs

variable {n : ℕ} {ψ : Wave n} {m : Measurement ℝ}

/-! ## Waves of length one -/

theorem sq_mean_le (hψ : weight ψ = 1) (o : Observable ℝ) :
    mean o ψ ^ 2 ≤ weight (observableAction o ψ) := by
  have h := sq_re_braket_le ψ (observableAction o ψ)
  rwa [hψ, one_mul] at h

theorem variance_nonneg (hψ : weight ψ = 1) (o : Observable ℝ) : 0 ≤ variance o ψ := by
  unfold variance
  rw [← sq]
  exact sub_nonneg.mpr (sq_mean_le hψ o)

/-- A word has no mean beyond one. -/
theorem sq_mean_word_le (hψ : weight ψ = 1) (word : PauliWord) : mean (.word word) ψ ^ 2 ≤ 1 := by
  have h := sq_mean_le hψ (.word word)
  rwa [observableAction_word, weight_wordAction, hψ] at h

theorem variance_word_of_weight (hψ : weight ψ = 1) (word : PauliWord) :
    variance (.word word) ψ = 1 - mean (.word word) ψ ^ 2 := by
  rw [variance_word, hψ, mean_eq_form, observableAction_word, sq]

/-! ## Results -/

theorem data_chances (hψ : weight ψ = 1) (wires : List ℕ) :
    let weights := Array.ofFn fun j : Fin (2 ^ wires.length) => chance wires j ψ
    (∀ p ∈ weights, 0 ≤ p) ∧ Scalar.sum weights.toList = 1 := by
  refine ⟨fun p hp => ?_, (sum_chances wires ψ).trans hψ⟩
  obtain ⟨j, rfl⟩ := Array.mem_ofFn.mp hp
  exact chance_nonneg _ _ _

/-- Where the variance of a word can be evaluated, so can its mean. -/
theorem wordExpectation_of_evaluates {word : PauliWord} (hreadout : m.readout = .variance)
    (hobservable : m.observable = some (.word word)) (h : m.Evaluates (ofWave ψ)) :
    (ofWave ψ).wordExpectation word = .ok (mean (.word word) ψ) := by
  have hcheck := (evaluates_iff (.inr (.inl hreadout))).mp h
  unfold checkMeasurement at hcheck
  rw [hreadout, hobservable] at hcheck
  have hwires := foldlM_checkWires_eq_ok_iff.mp hcheck (1, word) List.mem_cons_self
  rw [wordExpectation_ofWave, (stateCheckWires_eq_ok_iff 0 _).mpr hwires, mean_eq_form,
    observableAction_word]
  rfl

/-- Exact results in a state of length one are lawful. -/
theorem resultIn_lawful (hψ : weight ψ = 1) (h : m.Evaluates (ofWave ψ)) :
    m.Lawful (ofWave ψ) (m.resultIn (ofWave ψ)) where
  probabilities := by
    intro hreadout
    rw [resultIn_of_statistical (.inr (.inr hreadout)) h]
    unfold outcome
    rw [hreadout]
    exact data_chances hψ _
  mean := by
    intro word hreadout hobservable
    refine ⟨mean (.word word) ψ, resultIn_mean hreadout hobservable h, ?_⟩
    exact abs_le.mp ((sq_le_one_iff_abs_le_one _).mp (sq_mean_word_le hψ word))
  wordVariance := by
    intro word hreadout hobservable
    have hle := sq_mean_word_le hψ word
    have hnonneg := sq_nonneg (mean (.word word) ψ)
    refine ⟨mean (.word word) ψ, wordExpectation_of_evaluates hreadout hobservable h, ?_,
      by linarith, by linarith⟩
    rw [resultIn_of_statistical (.inr (.inl hreadout)) h, ← variance_word_of_weight hψ]
    unfold outcome
    rw [hreadout, hobservable]
  variance := by
    intro o hreadout hobservable
    refine ⟨Proofs.variance o ψ, ?_, variance_nonneg hψ o⟩
    rw [resultIn_of_statistical (.inr (.inl hreadout)) h]
    unfold outcome
    rw [hreadout, hobservable]

/-- A trace over the standard gates, with any parameters, on a register that can
    be held ends in a state of length one.  Without a number of shots it can be
    executed if its measurements have exact results, and whenever it is, all
    results are lawful. -/
theorem simulate_lawful {t : Trace ℝ} (hvalid : t.Valid)
    (hstandard : ∀ op ∈ t.operations, op.Standard) (hnonempty : t.register ≠ 0)
    (hfits : t.register ≤ 30) :
    ∃ s, Simulation.finalState t = .ok s ∧ Scalar.sum s.probabilities.toList = 1 ∧
      (t.shots = .analytic → ∀ (ρ : Type) (sampler : Sampler ℝ ρ),
        ((∀ m ∈ t.measurements, m.Analytic) → ∃ T, t.simulate sampler = .ok T) ∧
        ∀ T, t.simulate sampler = .ok T → ∃ rs, t.unpackResult T = .ok [rs] ∧
          List.Forall₂ (fun m r => m.Lawful s r) t.measurements rs) := by
  obtain ⟨ψ, hfinal⟩ := exists_finalState hvalid hstandard hnonempty hfits
  have hψ : weight ψ = 1 := weight_of_finalState hvalid hstandard hfinal
  refine ⟨ofWave ψ, hfinal, (probabilities_ofWave ψ).trans hψ, fun hshots ρ sampler =>
    ⟨fun hms => ?_, fun T hT => ?_⟩⟩
  · exact exists_simulate_eq_ok sampler hvalid hstandard hshots hnonempty hfits hms
  · obtain ⟨s, hs, hevaluates, hpack⟩ := (simulate_eq_ok_iff sampler hshots).mp hT
    obtain rfl : ofWave ψ = s := Except.ok.inj (hfinal.symm.trans hs)
    obtain ⟨T', hpack', -, hunpack⟩ := packResults_of_evaluates hshots hfinal hevaluates
    obtain rfl : T' = T := Except.ok.inj (hpack'.symm.trans hpack)
    refine ⟨_, hunpack, List.forall₂_map_right_iff.mpr (List.forall₂_same.mpr fun m hm => ?_)⟩
    exact resultIn_lawful hψ (hevaluates m hm)

/-- Probabilities, a mean and the variances of a word and of a Hamiltonian after
    a rotation and a controlled flip. -/
noncomputable def surveyed : Trace ℝ :=
  ⟨[⟨StandardGate.ry.spec, [.constant 1], [0]⟩, ⟨StandardGate.cnot.spec, [], [0, 1]⟩],
    [.probs [1, 0], .ofObservable .expectation (.word (.single 0 .Z)),
      .ofObservable .variance (.word (.single 1 .X)),
      .ofObservable .variance (.hamiltonian ⟨[(2, .single 0 .Z), (1, .single 0 .X)]⟩)],
    2, .analytic, .empty⟩

theorem simulate_lawful_surveyed : surveyed.Valid ∧ (∀ op ∈ surveyed.operations, op.Standard) ∧
    surveyed.register ≠ 0 ∧ surveyed.register ≤ 30 ∧
    ∀ sampler : Sampler ℝ Unit, ∃ T p e v w, surveyed.simulate sampler = .ok T ∧
      surveyed.unpackResult T = .ok [[p, .scalar e, .scalar (1 - v ^ 2), .scalar w]] ∧
      (∀ x ∈ p.data, 0 ≤ x) ∧ Scalar.sum p.data.toList = 1 ∧ -1 ≤ e ∧ e ≤ 1 ∧
      0 ≤ 1 - v ^ 2 ∧ 1 - v ^ 2 ≤ 1 ∧ 0 ≤ w := by
  have hvalid : surveyed.Valid := by
    refine ⟨List.cons_ne_nil _ _, ?_, ?_⟩
    · simp [surveyed]
    · have hwords : (∀ w ∈ (PauliWord.single 0 .Z).wires, w < 2) ∧
          ∀ w ∈ (PauliWord.single 1 .X).wires, w < 2 := by decide
      simpa [surveyed, Measurement.ofObservable, Measurement.probs, Observable.wires,
        wires_of_two_terms] using hwords
  have hstandard : ∀ op ∈ surveyed.operations, op.Standard :=
    List.forall_mem_cons.mpr ⟨⟨.ry, rfl⟩, List.forall_mem_singleton.mpr ⟨.cnot, rfl⟩⟩
  have hms : ∀ m ∈ surveyed.measurements, m.Analytic := by
    refine List.forall_mem_cons.mpr ⟨.inr (.inl rfl), List.forall_mem_cons.mpr ⟨?_, ?_⟩⟩
    · exact .inr (.inr ⟨_, .inl rfl⟩)
    · exact List.forall_mem_cons.mpr ⟨.inr (.inr ⟨_, .inr rfl⟩),
        List.forall_mem_singleton.mpr (.inr (.inr ⟨_, .inr rfl⟩))⟩
  refine ⟨hvalid, hstandard, by decide, by decide, fun sampler => ?_⟩
  obtain ⟨s, -, -, hresults⟩ := simulate_lawful hvalid hstandard (by decide) (by decide)
  obtain ⟨hexecutes, hlawful⟩ := hresults rfl Unit sampler
  obtain ⟨T, hT⟩ := hexecutes hms
  obtain ⟨rs, hunpack, hrs⟩ := hlawful T hT
  -- One result for each of the four measurements.
  obtain ⟨p, _, hp, hrs₁, rfl⟩ := List.forall₂_cons_left_iff.mp hrs
  obtain ⟨_, _, hmean, hrs₂, rfl⟩ := List.forall₂_cons_left_iff.mp hrs₁
  obtain ⟨_, _, hword, hrs₃, rfl⟩ := List.forall₂_cons_left_iff.mp hrs₂
  obtain ⟨_, _, hhamiltonian, hrs₄, rfl⟩ := List.forall₂_cons_left_iff.mp hrs₃
  obtain rfl := List.forall₂_nil_left_iff.mp hrs₄
  obtain ⟨hnonneg, hsum⟩ := hp.probabilities rfl
  obtain ⟨e, rfl, hbelow, habove⟩ := hmean.mean _ rfl rfl
  obtain ⟨v, -, rfl, hv, hvone⟩ := hword.wordVariance _ rfl rfl
  obtain ⟨w, rfl, hw⟩ := hhamiltonian.variance _ rfl rfl
  exact ⟨T, p, e, v, w, hT, hunpack, hnonneg, hsum, hbelow, habove, hv, hvone, hw⟩

end Proofs

end CircuitGrad
