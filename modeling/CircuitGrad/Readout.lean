/-! # Readouts

    What a measurement returns.
-/

namespace CircuitGrad

/-- What a measurement returns. -/
inductive Readout where
  /-- Expectation value of an observable. -/
  | expectation
  /-- Variance of an observable. -/
  | variance
  /-- Probabilities of the basis states of some wires. -/
  | probability
  /-- The full state vector. -/
  | state
  /-- One eigenvalue of an observable per shot. -/
  | sample
deriving DecidableEq, Repr

namespace Readout

def name : Readout → String
  | expectation => "expval"
  | variance => "var"
  | probability => "probs"
  | state => "state"
  | sample => "sample"

/-- All readouts in their fixed order. -/
def all : List Readout := [expectation, variance, probability, state, sample]

def ofName? (name : String) : Option Readout := all.find? (·.name == name)

/-- Position in the fixed order. -/
def index : Readout → Nat
  | expectation => 0
  | variance => 1
  | probability => 2
  | state => 3
  | sample => 4

/-- The result is linear in the density matrix of the circuit. -/
def isLinear : Readout → Bool
  | expectation | probability => true
  | _ => false

end Readout

end CircuitGrad
