import CircuitGrad.Trace.Basic

/-! # Fingerprints

    The key under which the result of a trace is cached.  It writes down all
    that a result can depend on: register size, operations with names, wires
    and parameters, measurements with their readouts, wires and observables,
    and the shots.  Trainability and layout do not enter.

    Sizes, wires and choices are words of eight bytes, except that the kind
    of an observable is one byte.  The wires of an operation are not counted;
    a Pauli word is closed by the largest word.
-/

namespace CircuitGrad

open CircuitGrad.Representation

/-- The key of a trace. -/
structure Fingerprint (α : Type) [Representation α] where
  codes : List (Code α)

namespace Fingerprint

variable {α : Type} [Representation α]

instance : DecidableEq (Fingerprint α) := fun a b =>
  decidable_of_iff (a.codes = b.codes) <| by
    constructor
    · intro h
      cases a
      cases b
      cases h
      rfl
    · exact fun h => h ▸ rfl

def ofOperation (op : Operation α) : List (Code α) :=
  label op.name ++ op.wires.flatMap word ++ word op.params.length
    ++ op.params.flatMap fun p => number p.value

def ofPauliWord (w : PauliWord) : List (Code α) :=
  (w.factors.flatMap fun (wire, p) => word wire ++ word p.index) ++ word (2 ^ (64 : Nat) - 1)

def ofObservable : Option (Observable α) → List (Code α)
  | none => [byte 0]
  | some (.word w) => byte 1 :: ofPauliWord w
  | some (.hamiltonian h) =>
    byte 2 :: word h.terms.length ++ h.terms.flatMap fun (c, w) => number c ++ ofPauliWord w

def ofMeasurement (m : Measurement α) : List (Code α) :=
  word m.readout.index ++ word m.wires.length ++ m.wires.flatMap word ++ ofObservable m.observable

def ofShots : Shots → List (Code α)
  | .analytic => word 0
  | .finite n => word 1 ++ word n
  | .vector batches =>
    word 2 ++ word batches.length ++
      batches.flatMap fun b => word b.shots ++ word b.repetitions

end Fingerprint

/-- The key under which the result of a trace is cached. -/
def Trace.fingerprint {α : Type} [Representation α] (t : Trace α) : Fingerprint α :=
  ⟨word t.register
    ++ word t.operations.length ++ t.operations.flatMap Fingerprint.ofOperation
    ++ word t.measurements.length ++ t.measurements.flatMap Fingerprint.ofMeasurement
    ++ Fingerprint.ofShots t.shots⟩

end CircuitGrad
