import CircuitGrad.Display
import CircuitGrad.Gradient.Selection
import CircuitGrad.Plan.Basic
import CircuitGrad.Tensor.Axes
import CircuitGrad.Trace.Packing

/-! # Difference quotients

    The derivative of a result in a gate parameter, approximated from results
    at neighbouring values.  No gate needs a rule for it.
-/

namespace CircuitGrad

/-- On which sides of a point the neighbours lie. -/
inductive DifferenceScheme where
  | forward
  | central
  | backward
deriving DecidableEq, Repr

namespace DifferenceScheme

def name : DifferenceScheme → String
  | forward => "Forward"
  | central => "Central"
  | backward => "Backward"

end DifferenceScheme

/-- Settings of difference quotients. -/
structure DifferenceConfig (α : Type) where
  scheme     : DifferenceScheme
  step       : α
  /-- Positions among the trainable parameters; all of them when absent. -/
  parameters : Option (List Nat)

namespace DifferenceConfig

/-- All parameters, with a small step to both sides. -/
def standard {α : Type} [Scalar α] : DifferenceConfig α := ⟨.central, 1e-7, none⟩

def text (c : DifferenceConfig Float) : String :=
  Display.record "FiniteDiffConfig"
    [("method", c.scheme.name), ("h", Decimal.Style.detailed.text c.step),
      ("argnum", Display.optional (c.parameters.map listText))]

end DifferenceConfig

namespace FiniteDifference

variable {α : Type} [Scalar α]

/-- Where one parameter is evaluated. -/
def neighbours (scheme : DifferenceScheme) (h x : α) : List α :=
  match scheme with
  | .forward => [x + h]
  | .backward => [x + -h]
  | .central => [x + h, x - h]

/-- The traces: the point itself first, unless both sides are used, then the
    neighbours of each parameter. -/
def traces (t : Trace α) (c : DifferenceConfig α) (selected : List Nat) :
    Except Error (List (Trace α)) := do
  let moved ← selected.mapM fun p =>
    (neighbours c.scheme c.step (t.paramValue p)).mapM (t.withParam p)
  return (if c.scheme = .central then [] else [t]) ++ moved.flatten

/-- Quotients of results on both sides, in pairs. -/
def pairs (h : α) : List (Tensor α) → Except Error (List (Tensor α))
  | a :: b :: rest => do
    let d ← Tensor.linearCombination [0.5 / h, -(0.5 / h)] [a, b]
    return d :: (← pairs h rest)
  | [a] => return [← Tensor.linearCombination [0.5 / h, -(0.5 / h)] [a]]
  | [] => .ok []

/-- The difference of two results over the step. -/
def quotient (h : α) (upper lower : Tensor α) : Except Error (Tensor α) := do
  return (← upper.add (lower.scale (-1))).scale (1 / h)

/-- One derivative for each parameter. -/
def columns (scheme : DifferenceScheme) (h : α) (results : List (Tensor α)) :
    Except Error (List (Tensor α)) :=
  match scheme, results with
  | .central, _ => pairs h results
  | .forward, here :: moved => moved.mapM fun there => quotient h there here
  | .backward, here :: moved => moved.mapM fun there => quotient h here there
  | _, [] => .error .aborted

/-- The plan of the first derivatives, as a new trailing dimension with one
    entry for each selected parameter. -/
def plan (t : Trace α) (c : DifferenceConfig α) : Except Error (Plan α) := do
  t.checkDifferentiable
  if !(Scalar.isFinite c.step && Scalar.lt 0 c.step) then
    (ArgumentFault.step (Scalar.text c.step)).error
  else
    let selected ← t.selectTrainable c.parameters
    let shape ← t.outputShape
    if selected.isEmpty then return .known (.zeros (shape ++ [0]))
    else
      let traces ← traces t c selected
      return {
        traces
        fold := fun results => do
          if results.length ≠ traces.length then
            (ShapeFault.differenceArity traces.length results.length).error
          else Tensor.stackTrailing (← columns c.scheme c.step results) }

end FiniteDifference

end CircuitGrad
