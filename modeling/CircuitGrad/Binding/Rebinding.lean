import CircuitGrad.Recording

/-! # Rebinding recorded traces

    A trace recorded at some arguments can be moved to others without running
    the circuit function again, when every parameter is an affine function of
    the inputs: its value changes by its slopes times the changes of the
    inputs.
-/

namespace CircuitGrad

/-- A trace with the arguments it was recorded at. -/
structure RecordedTrace (α : Type) where
  args  : List (Argument α)
  trace : Trace α

variable {α : Type} [Scalar α]

/-- Changes of the inputs of one argument.  There are none to follow when it
    changes in shape or kind, or is a constant with another value. -/
def Argument.changes? (old new : Argument α) : Option (List α) :=
  if old.shape != new.shape || old.differentiable != new.differentiable
      || old.batched != new.batched then none
  else if old.differentiable then some (List.zipWith (fun a b => b - a) old.values new.values)
  else if old.values == new.values then some []
  else none

/-- The value of a parameter after changes of the inputs. -/
def Jet.moved? (x : Jet α) (changes : List α) : Option α :=
  if x.isConstant then some x.value
  else if !x.isAffine then none
  else some (x.value + Scalar.sum (changes.zipIdx.map fun (d, i) => x.slope i * d))

/-- The recorded trace moved to other arguments. -/
def RecordedTrace.moved? (r : RecordedTrace α) (args : List (Argument α)) :
    Option (Trace α) := do
  guard (r.args.length = args.length)
  let changes ← (r.args.zip args).mapM fun (old, new) => old.changes? new
  let values ← r.trace.params.mapM (·.moved? changes.flatten)
  (r.trace.withValues values).toOption

end CircuitGrad
