import CircuitGrad.Expansion
import CircuitGrad.Splitting

/-! # Backends

    A backend executes traces.  What it can execute is stated by its
    capabilities alone: preparing a trace for a backend means to expand its
    operations into native ones, to split its measurements, and to validate
    what comes out.
-/

namespace CircuitGrad

/-- Something that executes traces, with a state of type `σ`. -/
structure Backend (α σ : Type) where
  name           : String
  capabilities   : Capabilities
  /-- How deep operations are expanded to reach native ones. -/
  expansionDepth : Nat
  gates          : GateTable α
  /-- Execute traces; the state changes also when this fails. -/
  execute        : List (Trace α) → σ → Except Error (List (Tensor α)) × σ

namespace Backend

/-- How deep operations are expanded unless the backend says otherwise. -/
def defaultExpansionDepth : Nat := 10

variable {α σ : Type} [Scalar α]

/-- An operation of a trace that is not native. -/
def foreign? (b : Backend α σ) (t : Trace α) : Option (Operation α) :=
  t.operations.find? fun op => !b.capabilities.isNative op.name

/-- Expand operations until all are native. -/
def decompose (b : Backend α σ) (t : Trace α) : Except Error (Trace α) := do
  let expanded ← t.expand b.gates b.expansionDepth (.oneOf b.capabilities.native)
  match b.foreign? expanded with
  | some op => .error (.unsupported op.name (.noNativeForm b.name b.expansionDepth))
  | none => .ok expanded

/-- Expansion into native operations as a plan. -/
def decompositionPlan (b : Backend α σ) (t : Trace α) : Except Error (Plan α) :=
  return .identity (← b.decompose t)

/-- The splitting that the capabilities ask for. -/
def split (b : Backend α σ) (t : Trace α) : Except Error (Plan α) := t.splitFor b.capabilities

/-- Fails unless a measurement can be executed. -/
def validateMeasurement (b : Backend α σ) (shots : Shots) (m : Measurement α) :
    Except Error Unit :=
  if !b.capabilities.supports m.readout then
    .error (.unsupported m.readout.name (.readout b.name))
  else if !b.capabilities.hamiltonian && m.ofHamiltonian then
    .error (.unsupported "Hamiltonian" (.wordsOnly b.name))
  else if m.readout = .sample && shots.isAnalytic then
    .error (.invalidTrace .sampleWithoutShots)
  else .ok ()

/-- Fails unless a trace can be executed as it is. -/
def validate (b : Backend α σ) (t : Trace α) : Except Error Unit := do
  let c := b.capabilities
  let exceeded (fault : CapabilityFault) : Except Error Unit :=
    .error (SimulatorError.toError (.capabilityExceeded fault))
  if t.register > c.wires then exceeded (.wires t.register c.wires)
  if let some op := b.foreign? t then .error (.unsupported op.name (.notNative b.name))
  t.measurements.forM (b.validateMeasurement t.shots)
  if c.shotModel = .sampled && t.shots.isAnalytic then exceeded (.finiteShotsOnly b.name)
  if !c.nonCommuting then
    if (← Measurement.groups t.measurements t.register).length > 1 then
      .error (.unsupported "measurements" (.nonCommuting b.name))

/-- One line about the backend. -/
def description (b : Backend α σ) : String := s!"{b.name} - {b.capabilities.wires} wires"

end Backend

end CircuitGrad
