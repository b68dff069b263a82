import CircuitGrad.Sampler
import CircuitGrad.StateVector
import CircuitGrad.Trace.Packing

/-! # Simulation

    Executing a trace on a state vector: run the operations, evaluate every
    measurement for every batch of shots, and pack the results.  Without a
    number of shots a measurement is evaluated exactly; with one it is
    estimated from samples.  All batches of a trace draw from one sequence of
    random choices.
-/

namespace CircuitGrad

/-- Failures of the simulator, as its callers see them. -/
def SimulatorError.lift {β : Type} (x : Except SimulatorError β) : Except Error β :=
  x.mapError (·.toError)

namespace Simulation

variable {α ρ : Type} [Scalar α]

/-- The measurement cannot be evaluated. -/
def refuse {β : Type} (m : Measurement α) (fault : MeasurementFault) : Except SimulatorError β :=
  .error (.unsupportedMeasurement m.text fault)

/-- Real and imaginary part of each amplitude, one row per basis state. -/
def stateTensor (s : StateVector α) : Tensor α :=
  .ofFn [2 ^ s.wires, 2] fun p =>
    let a := s.amplitude (p / 2)
    if p % 2 = 0 then a.re else a.im

/-! ### Exact evaluation -/

/-- The exact result of a measurement. -/
def exact (s : StateVector α) (m : Measurement α) : Except SimulatorError (Tensor α) := do
  match m.readout with
  | .state => return stateTensor s
  | .probability => return .vector (← s.marginal (m.measuredWires s.wires))
  | readout =>
    match m.observable with
    | none => refuse m .noObservable
    | some o =>
      match readout with
      | .expectation => return .scalar (← s.expectation o)
      | .variance => return .scalar (← s.variance o)
      | _ => refuse m .sampleWithoutShots

/-! ### Sampled evaluation -/

/-- Arithmetic mean. -/
def mean (samples : List α) : α := Scalar.sum samples / (samples.length : α)

/-- Mean of the squares less the square of the mean. -/
def spread (samples : List α) : α :=
  Scalar.sum (samples.map fun x => x * x) / (samples.length : α) - mean samples * mean samples

/-- Relative frequency of each index below `size` among the drawn ones. -/
def frequencies (size shots : Nat) (drawn : List Nat) : Array α :=
  let counts := drawn.foldl (fun acc i => acc.modify i (· + 1)) (Array.replicate size 0)
  counts.map (· * (1 / (shots : α)))

/-- Number of ones in the binary form of an index is even. -/
def evenOnes (wires index : Nat) : Bool :=
  (List.range wires).foldl (fun even b => even ^^ index.testBit b) true

/-- Draw eigenvalues of a Pauli word: measure its wires after turning its
    eigenbasis into the computational one. -/
def sampleWord (sampler : Sampler α ρ) (s : StateVector α) (word : PauliWord) (shots : Nat) :
    StateT ρ (Except SimulatorError) (List α) := do
  let weights ← (do (← s.applyAll word.diagonalizingGates).marginal word.wires :
    Except SimulatorError (Array α))
  let drawn ← sampler.draw weights.toList shots
  return drawn.map fun j => if evenOnes word.wires.length j then 1 else -1

/-- The result of a measurement estimated from samples. -/
def sampled (sampler : Sampler α ρ) (s : StateVector α) (m : Measurement α) (shots : Nat) :
    StateT ρ (Except SimulatorError) (Tensor α) := do
  match m.readout with
  | .state => return stateTensor s
  | .probability =>
    let weights ← s.marginal (m.measuredWires s.wires)
    let drawn ← sampler.draw weights.toList shots
    return .vector (frequencies weights.size shots drawn)
  | readout =>
    match readout, m.observable with
    | _, none => refuse m .noObservable
    | .expectation, some (.hamiltonian h) =>
      let total ← h.terms.foldlM (fun acc (c, word) => do
        return acc + c * mean (← sampleWord sampler s word shots)) 0
      return .scalar total
    | _, some (.hamiltonian _) => refuse m .sampledHamiltonian
    | .expectation, some (.word w) => return .scalar (mean (← sampleWord sampler s w shots))
    | .variance, some (.word w) => return .scalar (spread (← sampleWord sampler s w shots))
    | _, some (.word w) => return .vector (← sampleWord sampler s w shots).toArray

/-- The result of a measurement for one batch of shots. -/
def measure (sampler : Sampler α ρ) (s : StateVector α) (m : Measurement α) :
    Option Nat → StateT ρ (Except SimulatorError) (Tensor α)
  | none => exact s m
  | some shots => sampled sampler s m shots

/-- The state that the operations of a trace prepare. -/
def finalState (t : Trace α) : Except SimulatorError (StateVector α) := do
  (← StateVector.zero t.register).applyAll t.operations

/-- Results by batch of shots and measurement. -/
def results (sampler : Sampler α ρ) (t : Trace α) :
    Except SimulatorError (List (List (Tensor α))) := do
  let state ← finalState t
  let batches := t.shots.batches.mapM fun shots =>
    t.measurements.mapM fun m => measure sampler state m shots
  return (← batches.run (sampler.start t.fingerprint)).1

end Simulation

/-- Execute a trace. -/
def Trace.simulate {α ρ : Type} [Scalar α] (t : Trace α) (sampler : Sampler α ρ) :
    Except Error (Tensor α) := do
  t.packResults (← SimulatorError.lift (Simulation.results sampler t))

end CircuitGrad
