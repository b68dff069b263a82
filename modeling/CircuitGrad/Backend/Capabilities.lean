import CircuitGrad.Gate.Standard
import CircuitGrad.Readout

/-! # Capabilities

    What a backend can execute.
-/

namespace CircuitGrad

/-- Whether a backend can evaluate exactly. -/
inductive ShotModel where
  | analytic
  | sampled
deriving DecidableEq, Repr

def ShotModel.name : ShotModel → String
  | analytic => "Analytic"
  | sampled => "Sampled"

/-- What a backend can execute. -/
structure Capabilities where
  /-- The largest register. -/
  wires        : Nat
  /-- Names of the gates that it executes, in rising order. -/
  native       : List String
  readouts     : List Readout
  shotModel    : ShotModel
  /-- It takes several traces at a time. -/
  batch        : Bool
  /-- It measures Hamiltonians directly. -/
  hamiltonian  : Bool
  /-- It measures observables that do not commute in one trace. -/
  nonCommuting : Bool
  /-- Further facts, by rising key. -/
  metadata     : List (String × String)

namespace Capabilities

/-- The names of a list, each once, in rising order. -/
def nativeSet (names : List String) : List String :=
  (names.mergeSort fun a b => decide (a ≤ b)).eraseReps

/-- A simulator of the standard gates without restrictions. -/
def simulator (wires : Nat) : Capabilities :=
  { wires
    native := nativeSet (StandardGate.all.map (·.name))
    readouts := Readout.all
    shotModel := .analytic
    batch := true
    hamiltonian := true
    nonCommuting := true
    metadata := [] }

def isNative (c : Capabilities) (name : String) : Bool := c.native.contains name

def supports (c : Capabilities) (readout : Readout) : Bool := c.readouts.contains readout

end Capabilities

end CircuitGrad
