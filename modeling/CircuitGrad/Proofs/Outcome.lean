import Mathlib
import CircuitGrad.Simulation
import CircuitGrad.Proofs.Wave

/-! # Outcomes of exact measurements

    The exact result of an expectation value, a variance or a probability as a
    function of the wave that is measured.  Whether the measurement succeeds
    does not depend on the wave (`exact_ofWave`), and the result is built from sums
    over basis states of products of two amplitudes, one of them conjugate.
-/

namespace CircuitGrad

/-- A mean, a variance or probabilities are read out. -/
def Measurement.Statistical {α : Type} (m : Measurement α) : Prop :=
  m.readout = .expectation ∨ m.readout = .variance ∨ m.readout = .probability

namespace Proofs

variable {n : ℕ}

/-! ## Probabilities -/

/-- Probability that some wires spell a number. -/
noncomputable def chance (wires : List ℕ) (j : ℕ) (ψ : Wave n) : ℝ :=
  ∑ x : Bits n, if Basis.restrict n wires (index x) = j then Complex.normSq (ψ x) else 0

theorem getD_modify_add (acc : Array ℝ) (i : ℕ) (v : ℝ) {j : ℕ} (hj : j < acc.size) :
    (acc.modify i (· + v)).getD j 0 = acc.getD j 0 + if i = j then v else 0 := by
  rw [Array.getD_eq_getD_getElem?, Array.getD_eq_getD_getElem?, Array.getElem?_modify,
    Array.getElem?_eq_getElem hj]
  by_cases h : i = j <;> simp [h]

/-- Adding each item to the entry of its key sums the items of every key. -/
theorem foldl_modify_add {ι : Type} (items : List ι) (key : ι → ℕ) (weight : ι → ℝ)
    (acc : Array ℝ) :
    (items.foldl (fun acc i => acc.modify (key i) (· + weight i)) acc).size = acc.size ∧
      ∀ j < acc.size, (items.foldl (fun acc i => acc.modify (key i) (· + weight i)) acc).getD j 0 =
        acc.getD j 0 + (items.map fun i => if key i = j then weight i else 0).sum := by
  induction items generalizing acc with
  | nil => simp
  | cons i items ih =>
    have hsize : (acc.modify (key i) (· + weight i)).size = acc.size := Array.size_modify
    obtain ⟨hsize', hentry⟩ := ih (acc.modify (key i) (· + weight i))
    rw [List.foldl_cons]
    refine ⟨hsize'.trans hsize, fun j hj => ?_⟩
    rw [hentry j (hsize ▸ hj), getD_modify_add _ _ _ hj, List.map_cons, List.sum_cons, add_assoc]

theorem eq_ofFn {a : Array ℝ} {N : ℕ} {f : ℕ → ℝ} (hsize : a.size = N)
    (h : ∀ j < N, a.getD j 0 = f j) : a = Array.ofFn fun j : Fin N => f j := by
  subst hsize
  apply Array.ext
  · rw [Array.size_ofFn]
  · intro j hj hj'
    rw [Array.getElem_ofFn, ← h j hj]
    simp [hj]

/-- The check of wires looks at the register only. -/
theorem checkWires_congr (ψ φ : Wave n) (wires : List ℕ) :
    (ofWave ψ).checkWires wires = (ofWave φ).checkWires wires := rfl

theorem marginal_ofWave (wires : List ℕ) (ψ : Wave n) :
    (ofWave ψ).marginal wires = ((ofWave (0 : Wave n)).checkWires wires).map fun _ =>
      Array.ofFn fun j : Fin (2 ^ wires.length) => chance wires j ψ := by
  unfold StateVector.marginal
  rw [checkWires_congr ψ 0]
  cases (ofWave (0 : Wave n)).checkWires wires with
  | error e => rfl
  | ok _ =>
    obtain ⟨hsize, hentry⟩ := foldl_modify_add (List.range (2 ^ n)) (Basis.restrict n wires)
      (fun i => ((ofWave ψ).amplitude i).normSq) (Array.replicate (2 ^ wires.length) 0)
    rw [Array.size_replicate] at hsize hentry
    -- Summed by positions or by basis states, the same probabilities are added.
    have hchance : ∀ j, ((List.range (2 ^ n)).map fun i => if Basis.restrict n wires i = j then
        ((ofWave ψ).amplitude i).normSq else 0).sum = chance wires j ψ := by
      intro j
      rw [sum_map_range, sum_range_eq_sum_bits]
      simp only [amplitude_ofWave, normSq_eq, toComplex_ofComplex]
      rfl
    refine congrArg Except.ok (eq_ofFn (f := fun j => chance wires j ψ) hsize fun j hj => ?_)
    refine (hentry j hj).trans ?_
    rw [hchance, Array.getD_eq_getD_getElem?, Array.getElem?_replicate, if_pos hj, Option.getD_some,
      zero_add]

/-! ## Pauli words -/

/-- The basis state with the bits of a word flipped. -/
def flipped (word : PauliWord) (x : Bits n) : Bits n :=
  fun w => x w ^^ Basis.bit n (StateVector.flips n word) w

/-- The factor that a word brings to a basis state. -/
noncomputable def wordPhase (word : PauliWord) (x : Bits n) : ℂ :=
  toComplex (word.factors.foldl (StateVector.pauliPhase n (index x)) 1)

/-- What a Pauli word does to a wave. -/
noncomputable def wordAction (word : PauliWord) : Wave n →ₗ[ℂ] Wave n where
  toFun ψ x := wordPhase word (flipped word x) * ψ (flipped word x)
  map_add' _ _ := funext fun _ => mul_add _ _ _
  map_smul' _ _ := funext fun _ => mul_left_comm _ _ _

theorem wordAction_apply (word : PauliWord) (ψ : Wave n) (x : Bits n) :
    wordAction word ψ x = wordPhase word (flipped word x) * ψ (flipped word x) := rfl

theorem stateCheckWires_eq_ok_iff (ψ : Wave n) (wires : List ℕ) :
    (ofWave ψ).checkWires wires = .ok () ↔ ∀ w ∈ wires, w < n := by
  unfold StateVector.checkWires
  cases h : wires.find? (· ≥ (ofWave ψ).wires) with
  | none => simpa using List.find?_eq_none.mp h
  | some w =>
    have hw : w ≥ n := by simpa using List.find?_some h
    have hmem : w ∈ wires := List.mem_of_find?_eq_some h
    simp only [reduceCtorEq, false_iff]
    intro hall
    have := hall w hmem
    omega

theorem foldl_flips_lt {factors : List PauliFactor} (h : ∀ f ∈ factors, f.1 < n) {acc : ℕ}
    (hacc : acc < 2 ^ n) :
    factors.foldl (fun acc (w, p) => match p with
      | .X | .Y => acc ||| Basis.unit n w
      | _ => acc) acc < 2 ^ n := by
  induction factors generalizing acc with
  | nil => exact hacc
  | cons f factors ih =>
    obtain ⟨hf, hrest⟩ := List.forall_mem_cons.mp h
    have hunit : acc ||| Basis.unit n f.1 < 2 ^ n :=
      Nat.or_lt_two_pow hacc (unit_lt (⟨f.1, hf⟩ : Fin n))
    refine ih hrest ?_
    obtain ⟨w, p⟩ := f
    cases p <;> assumption

theorem flips_lt {word : PauliWord} (h : ∀ w ∈ word.wires, w < n) :
    StateVector.flips n word < 2 ^ n :=
  foldl_flips_lt (fun f hf => h f.1 (List.mem_map_of_mem hf)) (Nat.two_pow_pos n)

theorem applyWord_ofWave (word : PauliWord) (ψ : Wave n) :
    (ofWave ψ).applyWord word = ((ofWave (0 : Wave n)).checkWires word.wires).map fun _ =>
      ofWave (wordAction word ψ) := by
  unfold StateVector.applyWord
  rw [checkWires_congr ψ 0]
  cases hcheck : (ofWave (0 : Wave n)).checkWires word.wires with
  | error e => rfl
  | ok _ =>
    have hflips := flips_lt ((stateCheckWires_eq_ok_iff _ _).mp hcheck)
    refine congrArg Except.ok (ofFn_eq_ofWave fun (x : Bits n) => ?_)
    -- Flipping bits of the position is flipping bits of the basis state.
    have hflip : index x ^^^ StateVector.flips n word = index (flipped word x) := by
      refine eq_of_bit_eq (Nat.xor_lt_two_pow (index_lt x) hflips) (index_lt _) fun w => ?_
      rw [bit_xor, bit_index, bit_index]
      rfl
    show word.factors.foldl (StateVector.pauliPhase n (index x ^^^ StateVector.flips n word)) 1 *
      (ofWave ψ).amplitude (index x ^^^ StateVector.flips n word) = _
    apply toComplex_injective
    rw [hflip, toComplex_mul, amplitude_ofWave]
    rfl

/-! ## Observables -/

/-- What an observable does to a wave. -/
noncomputable def observableAction (o : Observable ℝ) : Wave n →ₗ[ℂ] Wave n :=
  (o.terms.map fun e => (e.1 : ℂ) • wordAction e.2).sum

/-- Whether all words of an observable lie in the register. -/
noncomputable def checkObservable (n : ℕ) (o : Observable ℝ) : Except SimulatorError Unit :=
  o.terms.foldlM (fun _ e => (ofWave (0 : Wave n)).checkWires e.2.wires) ()

/-- Adding a scaled image to what is summed already. -/
theorem add_scale_ofWave (φ χ : Wave n) (a : ℝ) : StateVector.ofFn n (fun i =>
    (ofWave φ).amplitude i + ((ofWave χ).amplitude i).scale a) = ofWave (φ + (a : ℂ) • χ) := by
  refine ofFn_eq_ofWave fun x => toComplex_injective ?_
  rw [toComplex_add, toComplex_scale, amplitude_ofWave, amplitude_ofWave]
  rfl

/-- The images under the words are added up, unless a word leaves the register. -/
theorem foldlM_applyWord (terms : List (ℝ × PauliWord)) (ψ φ : Wave n) :
    terms.foldlM (fun acc e => do
      let image ← (ofWave ψ).applyWord e.2
      return .ofFn n fun i => acc.amplitude i + (image.amplitude i).scale e.1) (ofWave φ) =
    (terms.foldlM (fun _ e => (ofWave (0 : Wave n)).checkWires e.2.wires) ()).map fun _ =>
      ofWave (φ + (terms.map fun e => (e.1 : ℂ) • wordAction e.2).sum ψ) := by
  induction terms generalizing φ with
  | nil =>
    have hzero : (([] : List (ℝ × PauliWord)).map fun e =>
        (e.1 : ℂ) • (wordAction e.2 : Wave n →ₗ[ℂ] Wave n)).sum ψ = 0 := rfl
    rw [hzero, add_zero]
    rfl
  | cons e terms ih =>
    rw [List.foldlM_cons, List.foldlM_cons, applyWord_ofWave]
    cases hcheck : (ofWave (0 : Wave n)).checkWires e.2.wires with
    | error e => rfl
    | ok _ =>
      have hnext := ih (φ + (e.1 : ℂ) • wordAction e.2 ψ)
      rw [← add_scale_ofWave] at hnext
      rw [List.map_cons, List.sum_cons, LinearMap.add_apply, LinearMap.smul_apply, ← add_assoc]
      exact hnext

theorem applyObservable_ofWave (o : Observable ℝ) (ψ : Wave n) :
    (ofWave ψ).applyObservable o = (checkObservable n o).map fun _ =>
      ofWave (observableAction o ψ) := by
  have hzero : StateVector.ofFn n (fun _ => (0 : Amplitude ℝ)) = ofWave 0 :=
    ofFn_eq_ofWave fun _ => rfl
  have h := foldlM_applyWord o.terms ψ 0
  rw [zero_add, ← hzero] at h
  exact h

/-! ## Means and variances -/

/-- Inner product, conjugate in the first factor. -/
noncomputable def braket (ψ φ : Wave n) : ℂ := ∑ x, (starRingEnd ℂ) (ψ x) * φ x

/-- Squared length. -/
noncomputable def weight (ψ : Wave n) : ℝ := ∑ x, Complex.normSq (ψ x)

/-- Expectation value. -/
noncomputable def mean (o : Observable ℝ) (ψ : Wave n) : ℝ := (braket ψ (observableAction o ψ)).re

/-- Variance: the squared length of the image less the squared mean. -/
noncomputable def variance (o : Observable ℝ) (ψ : Wave n) : ℝ :=
  weight (observableAction o ψ) - mean o ψ * mean o ψ

theorem inner_ofWave (ψ φ : Wave n) : (ofWave ψ).inner (ofWave φ) = ofComplex (braket ψ φ) := by
  apply toComplex_injective
  unfold StateVector.inner
  rw [toComplex_sum, List.map_map, sum_map_range]
  refine (sum_range_eq_sum_bits _).trans (Finset.sum_congr rfl fun (x : Bits n) _ => ?_)
  show toComplex (((ofWave ψ).amplitude (index x)).conj * (ofWave φ).amplitude (index x)) = _
  rw [amplitude_ofWave, amplitude_ofWave, toComplex_mul, toComplex_conj]
  rfl

theorem probabilities_ofWave (ψ : Wave n) :
    Scalar.sum (ofWave ψ).probabilities.toList = weight ψ := by
  rw [sum_eq_sum]
  unfold StateVector.probabilities ofWave StateVector.ofFn
  rw [Array.toList_map, Array.toList_ofFn, List.map_ofFn, List.sum_ofFn]
  have h := Finset.sum_range (n := 2 ^ n) fun i => Complex.normSq (ψ (bits n i))
  rw [sum_range_eq_sum_bits] at h
  simp only [bits_index] at h
  exact h.symm

theorem expectation_ofWave (o : Observable ℝ) (ψ : Wave n) :
    (ofWave ψ).expectation o = (checkObservable n o).map fun _ => mean o ψ := by
  unfold StateVector.expectation
  rw [applyObservable_ofWave]
  cases checkObservable n o with
  | error e => rfl
  | ok _ => exact congrArg (fun z => Except.ok z.re) (inner_ofWave ψ _)

theorem variance_ofWave (o : Observable ℝ) (ψ : Wave n) :
    (ofWave ψ).variance o = (checkObservable n o).map fun _ => variance o ψ := by
  unfold StateVector.variance
  rw [applyObservable_ofWave]
  cases checkObservable n o with
  | error e => rfl
  | ok _ =>
    show Except.ok _ = Except.ok _
    rw [inner_ofWave, probabilities_ofWave]
    rfl

/-! ## Results of measurements -/

/-- The exact result of a measurement. -/
noncomputable def outcome (m : Measurement ℝ) (ψ : Wave n) : Tensor ℝ :=
  match m.readout, m.observable with
  | .probability, _ => .vector <|
    .ofFn fun j : Fin (2 ^ (m.measuredWires n).length) => chance (m.measuredWires n) j ψ
  | .expectation, some o => .scalar (mean o ψ)
  | .variance, some o => .scalar (variance o ψ)
  | _, _ => .scalar 0

/-- Whether a measurement can be evaluated on an `n`-wire register. -/
noncomputable def checkMeasurement (n : ℕ) (m : Measurement ℝ) : Except SimulatorError Unit :=
  match m.readout, m.observable with
  | .probability, _ => (ofWave (0 : Wave n)).checkWires (m.measuredWires n)
  | _, none => Simulation.refuse m .noObservable
  | _, some o => checkObservable n o

/-- Whether an exact measurement succeeds does not depend on the wave, and what
    it gives is its outcome. -/
theorem exact_ofWave {m : Measurement ℝ} (hm : m.Statistical) (ψ : Wave n) :
    Simulation.exact (ofWave ψ) m = (checkMeasurement n m).map fun _ => outcome m ψ := by
  unfold Simulation.exact checkMeasurement outcome
  -- A mean and a variance ask for an observable, probabilities only for wires.
  rcases hm with h | h | h <;> rw [h]
  · cases m.observable with
    | none => rfl
    | some o =>
      show (do return Tensor.scalar (← (ofWave ψ).expectation o)) =
        (checkObservable n o).map fun _ => Tensor.scalar (mean o ψ)
      rw [expectation_ofWave]
      cases checkObservable n o <;> rfl
  · cases m.observable with
    | none => rfl
    | some o =>
      show (do return Tensor.scalar (← (ofWave ψ).variance o)) =
        (checkObservable n o).map fun _ => Tensor.scalar (variance o ψ)
      rw [variance_ofWave]
      cases checkObservable n o <;> rfl
  · show (do return Tensor.vector (← (ofWave ψ).marginal (m.measuredWires n))) = _
    rw [marginal_ofWave]
    cases (ofWave (0 : Wave n)).checkWires (m.measuredWires n) <;> rfl

/-! ## Results of traces -/

theorem measure_none {ρ : Type} (sampler : Sampler ℝ ρ) (s : StateVector ℝ) (m : Measurement ℝ)
    (state : ρ) : (Simulation.measure sampler s m none).run state =
      (Simulation.exact s m).map fun r => (r, state) := by
  show (do let r ← Simulation.exact s m; pure (r, state)) = _
  cases Simulation.exact s m <;> rfl

theorem mapM_measure_none {ρ : Type} (sampler : Sampler ℝ ρ) (s : StateVector ℝ)
    (ms : List (Measurement ℝ)) (state : ρ) :
    (ms.mapM fun m => Simulation.measure sampler s m none).run state =
      (ms.mapM (Simulation.exact s)).map fun rs => (rs, state) := by
  induction ms with
  | nil => rfl
  | cons m ms ih =>
    rw [List.mapM_cons, List.mapM_cons, StateT.run_bind, measure_none]
    cases Simulation.exact s m with
    | error e => rfl
    | ok r =>
      show (do let rs ← ms.mapM fun m => Simulation.measure sampler s m none
               pure (r :: rs) : StateT ρ (Except SimulatorError) _).run state = _
      rw [StateT.run_bind, ih]
      cases ms.mapM (Simulation.exact s) <;> rfl

/-- Exact evaluation draws nothing. -/
theorem results_of_analytic {ρ : Type} (sampler : Sampler ℝ ρ) {t : Trace ℝ}
    (hshots : t.shots = .analytic) : Simulation.results sampler t = do
      let s ← Simulation.finalState t
      return [← t.measurements.mapM (Simulation.exact s)] := by
  unfold Simulation.results
  rw [hshots]
  cases Simulation.finalState t with
  | error e => rfl
  | ok s =>
    show (do return (← (do
      let rs ← t.measurements.mapM fun m => Simulation.measure sampler s m none
      pure [rs] : StateT ρ (Except SimulatorError) _).run (sampler.start t.fingerprint)).1) =
      do return [← t.measurements.mapM (Simulation.exact s)]
    rw [StateT.run_bind, mapM_measure_none]
    cases t.measurements.mapM (Simulation.exact s) <;> rfl

theorem mapM_exact_ofWave {ms : List (Measurement ℝ)} (hms : ∀ m ∈ ms, m.Statistical)
    (ψ : Wave n) : ms.mapM (Simulation.exact (ofWave ψ)) =
      (ms.mapM (checkMeasurement n)).map fun _ => ms.map fun m => outcome m ψ := by
  induction ms with
  | nil => rfl
  | cons m ms ih =>
    obtain ⟨hm, hrest⟩ := List.forall_mem_cons.mp hms
    rw [List.mapM_cons, List.mapM_cons, exact_ofWave hm, ih hrest]
    cases checkMeasurement n m with
    | error e => rfl
    | ok _ => cases ms.mapM (checkMeasurement n) <;> rfl

/-- The result of an exact trace is the packed outcomes of its final wave. -/
theorem simulate_eq {ρ : Type} (sampler : Sampler ℝ ρ) {t : Trace ℝ} (hshots : t.shots = .analytic)
    (hstat : ∀ m ∈ t.measurements, m.Statistical) {ψ : Wave n}
    (hfinal : Simulation.finalState t = .ok (ofWave ψ)) :
    t.simulate sampler =
      (SimulatorError.lift (t.measurements.mapM (checkMeasurement n))).bind fun _ =>
        t.packResults [t.measurements.map fun m => outcome m ψ] := by
  unfold Trace.simulate
  rw [results_of_analytic sampler hshots, hfinal]
  show (do t.packResults (← SimulatorError.lift (do
    return [← t.measurements.mapM (Simulation.exact (ofWave ψ))]))) = _
  rw [mapM_exact_ofWave hstat]
  cases t.measurements.mapM (checkMeasurement n) <;> rfl

end Proofs

end CircuitGrad
