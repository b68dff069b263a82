import CircuitGrad.Observable

/-! # Measurements

    What is read out at the end of a circuit: an observable or a set of
    wires, together with the kind of result.
-/

namespace CircuitGrad

/-- An observable or some wires, and what is read out of them. -/
structure Measurement (α : Type) where
  readout    : Readout
  observable : Option (Observable α)
  wires      : List Nat
deriving BEq

namespace Measurement

variable {α : Type}

/-- Read an observable out. -/
def ofObservable (readout : Readout) (o : Observable α) : Measurement α :=
  ⟨readout, some o, o.wires⟩

/-- Probabilities of the basis states of `wires`, or of all wires if there
    are none. -/
def probs (wires : List Nat) : Measurement α := ⟨.probability, none, wires⟩

/-- The full state. -/
def state : Measurement α := ⟨.state, none, []⟩

/-- Wires measured in a register of the given size. -/
def measuredWires (m : Measurement α) (register : Nat) : List Nat :=
  if m.wires.isEmpty && m.observable.isNone then List.range register else m.wires

/-- Same readout, different observable. -/
def withObservable (m : Measurement α) (o : Observable α) : Measurement α :=
  ofObservable m.readout o

/-- Same observable, different readout. -/
def withReadout (m : Measurement α) (readout : Readout) : Measurement α := { m with readout }

/-- A Hamiltonian is measured. -/
def ofHamiltonian (m : Measurement α) : Bool := m.observable.any (·.isHamiltonian)

/-- Shape of the result of one batch of shots; without a number of shots the
    evaluation is exact. -/
def outputShape (m : Measurement α) (register : Nat) (shots : Option Nat) :
    Except Error (List Nat) :=
  match m.readout, shots with
  | .expectation, _ | .variance, _ => .ok []
  | .probability, _ => .ok [2 ^ (m.measuredWires register).length]
  | .state, _ => .ok [2 ^ register, 2]
  | .sample, some n => .ok [n]
  | .sample, none => .error (.invalidTrace .sampleWithoutShots)

def text [Scalar α] (m : Measurement α) : String :=
  let inner := match m.observable with
    | some o => o.text
    | none => ", ".intercalate (m.wires.map fun w => s!"w{w}")
  s!"{m.readout.name}({inner})"

end Measurement

end CircuitGrad
