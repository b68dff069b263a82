import CircuitGrad.Backend.Dispatch
import CircuitGrad.Simulation

/-! # The state-vector backend

    Executes traces of the standard gates on a dense state vector, and counts
    what it executes.
-/

namespace CircuitGrad

/-- How a state-vector backend is set up. -/
structure SimulatorConfig where
  name           : String := "state_vector"
  wires          : Nat := 24
  seed           : Option Nat := none
  /-- Bound of the result cache; no cache when absent. -/
  cacheSize      : Option Nat := none
  hamiltonian    : Bool := true
  nonCommuting   : Bool := true
  batch          : Bool := true
  shotModel      : ShotModel := .analytic
  readouts       : List Readout := Readout.all
  /-- The native gates, all standard ones when absent. -/
  native         : Option (List String) := none
  expansionDepth : Nat := Backend.defaultExpansionDepth

/-- What a state-vector backend has executed so far. -/
structure ExecutionCounts where
  traces  : Nat
  batches : Nat

namespace SimulatorConfig

def capabilities (c : SimulatorConfig) : Capabilities :=
  let all := Capabilities.simulator c.wires
  { all with
    native := c.native.elim all.native Capabilities.nativeSet
    hamiltonian := c.hamiltonian
    nonCommuting := c.nonCommuting
    batch := c.batch
    shotModel := c.shotModel
    readouts := Readout.all.filter c.readouts.contains
    metadata := ("method", "dense_state_vector") ::
      (c.seed.map fun seed => ("seed", toString seed)).toList }

variable {α ρ : Type} [Scalar α]

/-- The backend, which samples by the given sampler. -/
def backend (c : SimulatorConfig) (gates : GateTable α) (sampler : Sampler α ρ) :
    Backend α ExecutionCounts :=
  { name := c.name
    capabilities := c.capabilities
    expansionDepth := c.expansionDepth
    gates
    execute := fun traces counts =>
      (traces.mapM (·.simulate sampler),
        ⟨counts.traces + traces.length, counts.batches + 1⟩) }

/-- The state in which the backend starts. -/
def session (c : SimulatorConfig) : Session α ExecutionCounts :=
  ⟨⟨0, 0⟩, c.cacheSize.map .empty⟩

end SimulatorConfig

end CircuitGrad
