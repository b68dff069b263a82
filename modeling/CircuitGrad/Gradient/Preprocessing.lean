import CircuitGrad.Trace.Basic

/-! # Classical preprocessing

    Gate parameters are computed from the entries of the call arguments, and
    carry the derivatives of that computation.  Laid out as tensors these are
    its Jacobian and its Hessian: one row for each trainable parameter, then
    the entries of an argument, or of all differentiable arguments.
-/

namespace CircuitGrad

/-- Some consecutive inputs, and the shape in which they are laid out. -/
structure InputRange where
  start : Nat
  shape : List Nat
deriving DecidableEq, Repr

/-- Number of inputs. -/
def InputRange.size (r : InputRange) : Nat := Tensor.volume r.shape

namespace ArgumentLayout

/-- The inputs of a differentiable argument. -/
def range (layout : ArgumentLayout) (argument : Nat) : Except Error InputRange :=
  match layout.slots[argument]? with
  | none => (ArgumentFault.argumentIndex argument layout.argumentCount).error
  | some slot => match slot.offset with
    | none => (ArgumentFault.notDifferentiable argument).error
    | some start => .ok ⟨start, slot.shape⟩

/-- All inputs, laid out flat. -/
def allInputs (layout : ArgumentLayout) : InputRange := ⟨0, [layout.inputCount]⟩

end ArgumentLayout

namespace Trace

variable {α : Type} [Scalar α]

/-- First derivatives of the trainable parameters. -/
def slopes (t : Trace α) (r : InputRange) : Tensor α :=
  let rows := t.trainable.toArray
  .ofFn (rows.size :: r.shape) fun p =>
    (rows[p / r.size]?).elim 0 fun x => x.slope (r.start + p % r.size)

/-- Second derivatives of the trainable parameters. -/
def bends (t : Trace α) (r : InputRange) : Tensor α :=
  let rows := t.trainable.toArray
  .ofFn (rows.size :: r.shape ++ r.shape) fun p =>
    let i := p / r.size % r.size
    (rows[p / r.size / r.size]?).elim 0 fun x =>
      x.bend (r.start + i) (r.start + p % r.size)

/-- Fails if a parameter is curved and its second derivatives were not
    recorded. -/
def checkCurved (t : Trace α) : Except Error Unit :=
  if t.trainable.any fun x => !x.isAffine && !x.hasSecondOrder then
    ArgumentFault.noSecondDerivatives.error
  else .ok ()

/-- Jacobian of the trainable parameters in the entries of an argument. -/
def jacobian (t : Trace α) (argument : Nat) : Except Error (Tensor α) :=
  return t.slopes (← t.layout.range argument)

/-- Jacobian of the trainable parameters in all inputs. -/
def jacobianAll (t : Trace α) : Tensor α := t.slopes t.layout.allInputs

/-- Hessian of the trainable parameters in the entries of an argument. -/
def hessian (t : Trace α) (argument : Nat) : Except Error (Tensor α) := do
  let range ← t.layout.range argument
  t.checkCurved
  return t.bends range

/-- Hessian of the trainable parameters in all inputs. -/
def hessianAll (t : Trace α) : Except Error (Tensor α) := do
  t.checkCurved
  return t.bends t.layout.allInputs

end Trace

end CircuitGrad
