import CircuitGrad.Trace.Basic

/-! # What is differentiated

    A derivative of a trace is taken in some of its trainable parameters, and
    only of measurements whose result depends smoothly on them.
-/

namespace CircuitGrad.Trace

variable {α : Type}

/-- Fails if a measurement has no derivative in the parameters. -/
def checkDifferentiable (t : Trace α) : Except Error Unit :=
  match t.measurements.find? fun m => m.readout == .state || m.readout == .sample with
  | some m => .error (.gradientUndefined m.readout.name .noDerivative)
  | none => .ok ()

/-- Flat indices of the trainable parameters at the given positions, or of
    all trainable parameters. -/
def selectTrainable (t : Trace α) (positions : Option (List Nat)) : Except Error (List Nat) :=
  let trainable := t.trainableIndices
  match positions with
  | none => .ok trainable
  | some positions => positions.mapM fun i =>
    match trainable[i]? with
    | some p => .ok p
    | none => (ArgumentFault.trainableIndex i trainable.length).error

/-- The bound value of a parameter; zero where there is none. -/
def paramValue [Zero α] (t : Trace α) (index : Nat) : α := (t.param? index).elim 0 (·.value)

end CircuitGrad.Trace
