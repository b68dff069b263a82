import CircuitGrad.Argument

/-! # Recording circuits

    A circuit function is given the traced call arguments and issues
    operations and measurements in program order.  Each call on a recording
    gives the extended recording or fails; a failed call leaves the recording
    it was made on as it was.
-/

namespace CircuitGrad

/-- What a circuit function has issued so far. -/
structure Recording (α : Type) where
  register     : Nat
  operations   : List (Operation α)
  measurements : List (Measurement α)

namespace Recording

variable {α : Type}

def start (register : Nat) : Recording α := ⟨register, [], []⟩

/-- Operations come before measurements, on wires of the register. -/
def checkOperation (r : Recording α) (wires : List Nat) : Except Error Unit :=
  if r.measurements.isEmpty then Trace.checkWires r.register wires
  else .error (.invalidTrace .lateOperation)

/-- Apply a gate. -/
def apply (r : Recording α) (spec : GateSpec α) (params : List (Jet α)) (wires : List Nat) :
    Except Error (Recording α) := do
  r.checkOperation wires
  let op ← Operation.make spec params wires
  return { r with operations := r.operations ++ [op] }

/-- Append an operation. -/
def push (r : Recording α) (op : Operation α) : Except Error (Recording α) := do
  r.checkOperation op.wires
  return { r with operations := r.operations ++ [op] }

/-- Append a measurement. -/
def measure (r : Recording α) (m : Measurement α) : Except Error (Recording α) := do
  Trace.checkWires r.register m.wires
  return { r with measurements := r.measurements ++ [m] }

/-- The trace of all that was issued. -/
def finish (r : Recording α) (shots : Shots) (layout : ArgumentLayout) :
    Except Error (Trace α) := do
  return ((← Trace.make r.register r.operations r.measurements).withShots shots).withLayout layout

end Recording

/-- A function that issues a circuit on traced arguments. -/
abbrev CircuitFunction (α : Type) :=
  List (TracedArgument α) → Recording α → Except Error (Recording α)

/-- Order of the derivatives that a trace carries unless asked otherwise. -/
def defaultTracingOrder : Nat := 2

/-- Run a circuit function once and keep its trace, with derivatives of the
    parameters up to the given order. -/
def Trace.record {α : Type} [Scalar α] (f : CircuitFunction α) (args : List (Argument α))
    (register : Nat) (shots : Shots) (order : Nat) : Except Error (Trace α) := do
  let (traced, layout) ← Argument.seed args order
  (← f traced (.start register)).finish shots layout

end CircuitGrad
