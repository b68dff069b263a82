import Mathlib
import CircuitGrad.Proofs.WellFormedTrace
import CircuitGrad.Simulation

/-! # States that fit their trace

    A state vector refuses a register of no or too many wires, a wire outside
    the register, a matrix of another size than the wires ask for, and an
    operation without a matrix.  These are misfits: what is put together does
    not fit, whatever the amplitudes are.

    The simulation of a well-formed trace meets none of them, if the register
    is small enough and every operation has a matrix of the right size
    (`simulate_ne_misfit`).  It may still fail, because a measurement cannot
    be evaluated or nothing can be drawn; so each part of the simulation is
    followed through its failures as well as its results (`Fitting`).
-/

namespace CircuitGrad

/-- Failures of a state vector that does not fit what is asked of it. -/
def SimulatorError.Misfit : SimulatorError → Prop
  | .invalidWire _ _ | .invalidDimension _ | .dimensionMismatch _ _ | .missingMatrix _ => True
  | .unsupportedMeasurement _ _ | .sampling _ | .capabilityExceeded _ => False

/-- The matrix of an operation on `k` wires has `2 ^ k` rows and columns. -/
def Operation.HasMatrix {α : Type} (op : Operation α) : Prop :=
  ∃ matrix, op.matrix? = some matrix ∧
    matrix.size = 2 ^ op.wires.length * 2 ^ op.wires.length

namespace Proofs

variable {β γ : Type}

/-! ## Failures other than misfits -/

/-- What is given satisfies the condition, and a failure is no misfit. -/
def Fitting (Q : β → Prop) : Except SimulatorError β → Prop
  | .ok a => Q a
  | .error e => ¬e.Misfit

section Fitting

variable {Q : β → Prop} {R : γ → Prop} {x : Except SimulatorError β}
  {f : β → Except SimulatorError γ}

theorem Fitting.bind (hx : Fitting Q x) (hf : ∀ a, Q a → Fitting R (f a)) :
    Fitting R (x >>= f) := by
  cases x with
  | error e => exact hx
  | ok a => exact hf a hx

theorem Fitting.mono {Q' : β → Prop} (hx : Fitting Q x) (h : ∀ a, Q a → Q' a) : Fitting Q' x := by
  cases x with
  | error e => exact hx
  | ok a => exact h a hx

/-- A fold is fitting if each step of it is, from every state that satisfies the condition. -/
theorem fitting_foldlM {step : β → γ → Except SimulatorError β} {items : List γ} {s : β} (hs : Q s)
    (hstep : ∀ item ∈ items, ∀ s, Q s → Fitting Q (step s item)) :
    Fitting Q (items.foldlM step s) := by
  induction items generalizing s with
  | nil => exact hs
  | cons item rest ih =>
    obtain ⟨hfirst, hrest⟩ := List.forall_mem_cons.mp hstep
    rw [List.foldlM_cons]
    exact (hfirst s hs).bind fun s' hs' => ih hs' hrest

end Fitting

/-- The same of a step with random choices, whatever they are. -/
def FittingAlways {ρ : Type} (x : StateT ρ (Except SimulatorError) β) : Prop :=
  ∀ state, Fitting (fun _ => True) (x.run state)

section FittingAlways

variable {ρ : Type} {x : StateT ρ (Except SimulatorError) β}
  {f : β → StateT ρ (Except SimulatorError) γ}

theorem always_pure (a : β) : FittingAlways (pure a : StateT ρ (Except SimulatorError) β) :=
  fun _ => trivial

theorem FittingAlways.bind (hx : FittingAlways x) (hf : ∀ a, FittingAlways (f a)) :
    FittingAlways (x >>= f) := by
  intro state
  rw [StateT.run_bind]
  exact (hx state).bind fun a _ => hf a.1 a.2

/-- A step without random choices. -/
theorem always_lift {y : Except SimulatorError β} (hy : Fitting (fun _ => True) y) :
    FittingAlways (liftM y : StateT ρ (Except SimulatorError) β) := by
  intro state
  show Fitting _ (y >>= fun a => pure (a, state))
  exact hy.bind fun _ _ => trivial

theorem always_mapM {f : β → StateT ρ (Except SimulatorError) γ} {items : List β}
    (h : ∀ item ∈ items, FittingAlways (f item)) : FittingAlways (items.mapM f) := by
  induction items with
  | nil => exact always_pure _
  | cons item rest ih =>
    obtain ⟨hfirst, hrest⟩ := List.forall_mem_cons.mp h
    rw [List.mapM_cons]
    exact hfirst.bind fun _ => (ih hrest).bind fun _ => always_pure _

theorem always_foldlM {f : γ → β → StateT ρ (Except SimulatorError) γ} {items : List β} {s : γ}
    (h : ∀ item ∈ items, ∀ s, FittingAlways (f s item)) : FittingAlways (items.foldlM f s) := by
  induction items generalizing s with
  | nil => exact always_pure _
  | cons item rest ih =>
    obtain ⟨hfirst, hrest⟩ := List.forall_mem_cons.mp h
    rw [List.foldlM_cons]
    exact (hfirst s).bind fun _ => ih hrest

end FittingAlways

/-! ## States -/

section States

variable {α : Type} [Scalar α] {s : StateVector α} {wires : List ℕ}

omit [Scalar α] in
theorem stateCheckWires_eq_ok (h : ∀ w ∈ wires, w < s.wires) : s.checkWires wires = .ok () := by
  unfold StateVector.checkWires
  have hnone : wires.find? (· ≥ s.wires) = none := by simpa using h
  rw [hnone]

theorem fitting_zero {n : ℕ} (hpos : 0 < n) (hmax : n ≤ StateVector.maxWires) :
    Fitting (fun s : StateVector α => s.wires = n) (StateVector.zero n) := by
  have hn : ¬(n = 0 || n > StateVector.maxWires) := by
    simp only [Bool.or_eq_true, decide_eq_true_eq, not_or]
    omega
  unfold StateVector.zero
  rw [if_neg hn]
  rfl

theorem fitting_applyMatrix {matrix : Array (Amplitude α)} (hwires : ∀ w ∈ wires, w < s.wires)
    (hsize : matrix.size = 2 ^ wires.length * 2 ^ wires.length) :
    Fitting (fun s' => s'.wires = s.wires) (s.applyMatrix matrix wires) := by
  unfold StateVector.applyMatrix
  rw [stateCheckWires_eq_ok hwires, ok_bind]
  dsimp only
  rw [if_neg (not_not.mpr hsize)]
  exact StateVector.wires_applyBlocks ..

theorem fitting_applyOperation {op : Operation α} (hwires : ∀ w ∈ op.wires, w < s.wires)
    (hop : op.HasMatrix) : Fitting (fun s' => s'.wires = s.wires) (s.applyOperation op) := by
  obtain ⟨matrix, hmatrix, hsize⟩ := hop
  unfold StateVector.applyOperation
  rw [hmatrix]
  exact fitting_applyMatrix hwires hsize

/-- Operations on wires of the register leave the register as it is. -/
theorem fitting_applyAll {ops : List (Operation α)}
    (hops : ∀ op ∈ ops, (∀ w ∈ op.wires, w < s.wires) ∧ op.HasMatrix) :
    Fitting (fun s' => s'.wires = s.wires) (s.applyAll ops) := by
  refine fitting_foldlM rfl fun op hop s' hs' => ?_
  obtain ⟨hwires, hmatrix⟩ := hops op hop
  rw [← hs'] at hwires
  exact (fitting_applyOperation hwires hmatrix).mono fun _ h => h.trans hs'

theorem fitting_marginal (hwires : ∀ w ∈ wires, w < s.wires) :
    Fitting (fun _ => True) (s.marginal wires) := by
  unfold StateVector.marginal
  rw [stateCheckWires_eq_ok hwires, ok_bind]
  trivial

theorem fitting_applyWord {word : PauliWord} (hwires : ∀ w ∈ word.wires, w < s.wires) :
    Fitting (fun _ => True) (s.applyWord word) := by
  unfold StateVector.applyWord
  rw [stateCheckWires_eq_ok hwires, ok_bind]
  trivial

theorem fitting_applyObservable {o : Observable α} (hwires : ∀ w ∈ o.wires, w < s.wires) :
    Fitting (fun _ => True) (s.applyObservable o) := by
  refine fitting_foldlM trivial ?_
  rintro ⟨c, word⟩ hterm acc -
  have hword : word ∈ o.words := by
    cases o with
    | word v =>
      obtain ⟨-, rfl⟩ := Prod.mk.inj (List.mem_singleton.mp hterm)
      exact List.mem_singleton_self _
    | hamiltonian h => exact List.mem_map.mpr ⟨(c, word), hterm, rfl⟩
  have hwords : ∀ w ∈ word.wires, w < s.wires := fun w hw =>
    hwires w (mem_wires_of_word hword hw)
  exact (fitting_applyWord hwords).bind fun _ _ => trivial

theorem fitting_expectation {o : Observable α} (hwires : ∀ w ∈ o.wires, w < s.wires) :
    Fitting (fun _ => True) (s.expectation o) :=
  (fitting_applyObservable hwires).bind fun _ _ => trivial

theorem fitting_variance {o : Observable α} (hwires : ∀ w ∈ o.wires, w < s.wires) :
    Fitting (fun _ => True) (s.variance o) :=
  (fitting_applyObservable hwires).bind fun _ _ => trivial

end States

/-! ## Measurements -/

section Measurements

variable {α ρ : Type} [Scalar α] {s : StateVector α} {m : Measurement α}

omit [Scalar α] in
theorem mem_measuredWires (hwires : ∀ w ∈ m.wires, w < s.wires) :
    ∀ w ∈ m.measuredWires s.wires, w < s.wires := by
  intro w hw
  unfold Measurement.measuredWires at hw
  split at hw
  · exact List.mem_range.mp hw
  · exact hwires w hw

omit [Scalar α] in
/-- A measurement that can be made measures its observable on its own wires. -/
theorem observable_wires (hmade : m.Made) (hwires : ∀ w ∈ m.wires, w < s.wires)
    {o : Observable α} (ho : m.observable = some o) : ∀ w ∈ o.wires, w < s.wires :=
  wires_of_made hmade ho ▸ hwires

theorem fitting_exact (hmade : m.Made) (hwires : ∀ w ∈ m.wires, w < s.wires) :
    Fitting (fun _ => True) (Simulation.exact s m) := by
  unfold Simulation.exact
  split
  · trivial
  · exact (fitting_marginal (mem_measuredWires hwires)).bind fun _ _ => trivial
  · split
    · exact not_false
    · next o ho =>
      have ho := observable_wires hmade hwires ho
      split
      · exact (fitting_expectation ho).bind fun _ _ => trivial
      · exact (fitting_variance ho).bind fun _ _ => trivial
      · exact not_false

/-- The gates that turn the eigenbasis of a word act on its wires, one at a time. -/
theorem diagonalizingGates_fit {word : PauliWord} {op : Operation α}
    (hop : op ∈ word.diagonalizingGates) : (∀ w ∈ op.wires, w ∈ word.wires) ∧ op.HasMatrix := by
  obtain ⟨⟨w, p⟩, hfactor, hop⟩ := List.mem_flatMap.mp hop
  have hw : w ∈ word.wires := List.mem_map_of_mem hfactor
  have hgate : ∃ g : StandardGate, op = ⟨g.spec, [], [w]⟩ ∧ ∀ params : List α,
      (g.matrix params).size = 4 := by
    cases p with
    | I | Z => cases hop
    | X =>
      obtain rfl := List.mem_singleton.mp hop
      exact ⟨.hadamard, rfl, fun _ => rfl⟩
    | Y =>
      simp only [Pauli.diagonalizingGates, List.mem_cons, List.not_mem_nil, or_false] at hop
      rcases hop with rfl | rfl | rfl
      · exact ⟨.pauliZ, rfl, fun _ => rfl⟩
      · exact ⟨.s, rfl, fun _ => rfl⟩
      · exact ⟨.hadamard, rfl, fun _ => rfl⟩
  obtain ⟨g, rfl, hsize⟩ := hgate
  exact ⟨List.forall_mem_singleton.mpr hw, _, rfl, hsize _⟩

theorem always_draw (sampler : Sampler α ρ) (weights : List α) (shots : ℕ) :
    FittingAlways (sampler.draw weights shots) := by
  intro state
  unfold Sampler.draw
  split
  · exact not_false
  · trivial

theorem always_sampleWord (sampler : Sampler α ρ) {word : PauliWord} (shots : ℕ)
    (hwires : ∀ w ∈ word.wires, w < s.wires) :
    FittingAlways (Simulation.sampleWord sampler s word shots) := by
  refine (always_lift ?_).bind fun weights => (always_draw sampler _ shots).bind fun drawn =>
    always_pure _
  have hops : ∀ op ∈ (word.diagonalizingGates : List (Operation α)),
      (∀ w ∈ op.wires, w < s.wires) ∧ op.HasMatrix := by
    intro op hop
    obtain ⟨hmem, hmatrix⟩ := diagonalizingGates_fit hop
    exact ⟨fun w hw => hwires w (hmem w hw), hmatrix⟩
  refine (fitting_applyAll hops).bind fun s' hs' => fitting_marginal fun w hw => ?_
  rw [hs']
  exact hwires w hw

theorem always_sampled (sampler : Sampler α ρ) (shots : ℕ) (hmade : m.Made)
    (hwires : ∀ w ∈ m.wires, w < s.wires) :
    FittingAlways (Simulation.sampled sampler s m shots) := by
  have hword : ∀ {o : Observable α}, m.observable = some o → ∀ word ∈ o.words,
      FittingAlways (Simulation.sampleWord sampler s word shots) := by
    intro o ho word hword
    exact always_sampleWord sampler shots fun w hw =>
      observable_wires hmade hwires ho w (mem_wires_of_word hword hw)
  unfold Simulation.sampled
  split
  · exact always_pure _
  · exact (always_lift (fitting_marginal (mem_measuredWires hwires))).bind fun weights =>
      (always_draw sampler _ shots).bind fun drawn => always_pure _
  · split
    · exact fun _ => not_false
    · next h _ ho =>
      refine (always_foldlM fun term hterm total => ?_).bind fun total => always_pure _
      exact (hword ho term.2 (List.mem_map_of_mem hterm)).bind fun _ => always_pure _
    · exact fun _ => not_false
    · next w _ ho => exact (hword ho w (List.mem_singleton_self w)).bind fun _ => always_pure _
    · next w _ ho => exact (hword ho w (List.mem_singleton_self w)).bind fun _ => always_pure _
    · next w ho _ _ =>
      exact (hword ho w (List.mem_singleton_self w)).bind fun _ => always_pure _

theorem always_measure (sampler : Sampler α ρ) (shots : Option ℕ) (hmade : m.Made)
    (hwires : ∀ w ∈ m.wires, w < s.wires) :
    FittingAlways (Simulation.measure sampler s m shots) := by
  cases shots with
  | none => exact always_lift (fitting_exact hmade hwires)
  | some shots => exact always_sampled sampler shots hmade hwires

end Measurements

/-! ## Traces -/

section Traces

variable {α ρ : Type} [Scalar α] {t : Trace α}

theorem fitting_results (sampler : Sampler α ρ) (ht : t.WellFormed)
    (hmax : t.register ≤ StateVector.maxWires) (hops : ∀ op ∈ t.operations, op.HasMatrix) :
    Fitting (fun _ => True) (Simulation.results sampler t) := by
  have hfinal : Fitting (fun s => s.wires = t.register) (Simulation.finalState t) := by
    refine (fitting_zero ht.register_pos hmax).bind fun s hs => ?_
    refine (fitting_applyAll fun op hop => ⟨?_, hops op hop⟩).mono fun s' hs' => hs'.trans hs
    rw [hs]
    exact ht.operations op hop
  refine hfinal.bind fun s hs => ?_
  have hbatches : FittingAlways (t.shots.batches.mapM fun shots =>
      t.measurements.mapM fun m => Simulation.measure sampler s m shots) := by
    refine always_mapM fun shots _ => always_mapM fun m hm => ?_
    refine always_measure sampler shots (ht.measurements_made m hm) ?_
    rw [hs]
    exact ht.measurements m hm
  exact (hbatches _).bind fun _ _ => trivial

/-- Packing results does not fail as a backend does. -/
theorem packResults_ne_backend (t : Trace α) (results : List (List (Tensor α)))
    (fault : BackendFault) : t.packResults results ≠ .error (.backend fault) := by
  have hstack : ∀ tensors : List (Tensor α), Tensor.stack tensors ≠ .error (.backend fault) := by
    intro tensors
    unfold Tensor.stack
    split
    · exact nofun
    · refine bind_ne_error (fun h => ?_) fun _ _ => nofun
      obtain ⟨item, -, hitem⟩ := exists_of_forM_error h
      unfold Tensor.checkShape at hitem
      split at hitem <;> cases hitem
  have hbatch : ∀ shots (rs : List (Tensor α)), t.packBatch shots rs ≠ .error (.backend fault) := by
    intro shots rs
    refine bind_ne_error (mapM_ne_error fun m _ => ?_) fun shapes _ =>
      bind_ne_error ?_ fun _ _ => ?_
    · unfold Measurement.outputShape
      split <;> exact nofun
    · unfold Trace.checkResults
      split
      · exact nofun
      · split <;> exact nofun
    · unfold Packing.pack
      split
      · exact nofun
      · exact nofun
      · exact hstack _
      · exact nofun
  unfold Trace.packResults
  dsimp only
  split
  · exact nofun
  · refine bind_ne_error (mapM_ne_error fun e _ => hbatch e.2 e.1) fun packed _ => ?_
    split
    · exact nofun
    · exact hstack _

/-- The simulation of a well-formed trace does not fail for a misfit. -/
theorem simulate_ne_misfit (sampler : Sampler α ρ) (ht : t.WellFormed)
    (hmax : t.register ≤ StateVector.maxWires) (hops : ∀ op ∈ t.operations, op.HasMatrix)
    {fault : SimulatorError} (hfault : fault.Misfit) :
    t.simulate sampler ≠ .error fault.toError := by
  refine bind_ne_error ?_ fun results _ => packResults_ne_backend t results _
  have hfits := fitting_results sampler ht hmax hops
  intro h
  cases hresults : Simulation.results sampler t with
  | ok results =>
    rw [hresults] at h
    cases h
  | error e =>
    rw [hresults] at h hfits
    obtain rfl : e = fault := by
      have htoError : e.toError = fault.toError := Except.error.inj h
      simpa [SimulatorError.toError] using htoError
    exact hfits hfault

end Traces

end Proofs

end CircuitGrad
