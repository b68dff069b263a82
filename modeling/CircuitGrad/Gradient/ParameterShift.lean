import CircuitGrad.Display
import CircuitGrad.Gradient.Selection
import CircuitGrad.Plan.Basic
import CircuitGrad.Tensor.Axes
import CircuitGrad.Trace.Packing

/-! # The parameter-shift rule

    The derivative of a result in a gate parameter is a weighted sum of
    results at shifted values of that parameter, with weights and shifts from
    the shift rule of the gate,

      `∂f/∂θ = ∑ c · f (a · θ + s)`.

    This holds for results that are linear in the state.  The variance of a
    Pauli word is not, but as the square of a word is the identity it is
    `1 - ⟨A⟩²`, whose derivative is `-2 ⟨A⟩ ∂⟨A⟩`: the shifted traces measure
    the mean instead, and one more trace gives the mean at the point itself.
-/

namespace CircuitGrad

/-- Settings of the parameter-shift rule. -/
structure ShiftConfig (α : Type) where
  /-- Positions among the trainable parameters; all of them when absent. -/
  parameters : Option (List Nat)
  /-- Step of the difference quotient for gates without an exact rule. -/
  step       : α
  /-- Shifted traces may be built at the same time; the plan is the same. -/
  concurrent : Bool

namespace ShiftConfig

/-- All parameters, with a small step. -/
def standard {α : Type} [Scalar α] : ShiftConfig α := ⟨none, 1e-7, true⟩

def text (c : ShiftConfig Float) : String :=
  Display.record "ParamShiftConfig"
    [("argnum", Display.optional (c.parameters.map listText)),
      ("h", Decimal.Style.detailed.text c.step), ("parallel", toString c.concurrent)]

end ShiftConfig

namespace Trace

variable {α : Type}

/-- The measurements that are variances, by index. -/
def variances (t : Trace α) : Except Error (List Nat) := do
  let found := t.measurements.zipIdx.filter fun (m, _) => m.readout == .variance
  if found.any fun (m, _) => m.ofHamiltonian then
    .error (.gradientUndefined "var" .hamiltonianSquare)
  return found.map (·.2)

/-- The trace with means in the place of variances. -/
def withMeans (t : Trace α) : Except Error (Trace α) :=
  t.withMeasurements <| t.measurements.map fun m =>
    if m.readout = .variance then m.withReadout .expectation else m

variable [Scalar α]

/-- The shift rule by which a parameter is differentiated. -/
def shiftRule (t : Trace α) (index : Nat) (step : α) : Except Error (ShiftRule α) :=
  match t.paramLocation? index with
  | none => (ArgumentFault.parameterIndex index).error
  | some (o, p) => match t.operations[o]? with
    | none => (ArgumentFault.parameterIndex index).error
    | some op => match op.shiftRule? p, op.spec.gradMethod with
      | some rule, _ => .ok rule
      | none, .numeric => .ok (.centralDifference step)
      | none, _ => .error (.gradientUndefined op.name .noRule)

/-- One trace for each term of a shift rule for a parameter. -/
def shifted (t : Trace α) (index : Nat) (rule : ShiftRule α) : Except Error (List (Trace α)) :=
  rule.terms.mapM fun term => t.withParam index (term.point (t.paramValue index))

end Trace

namespace ParameterShift

variable {α : Type} [Scalar α]

/-- The derivative of the means, made into that of the variances where one is
    measured. -/
def chainVariance (base : Trace α) (variances : List Nat) (mean derivative : Tensor α) :
    Except Error (Tensor α) := do
  let derivatives ← base.unpackResult derivative
  let means ← base.unpackResult mean
  let chained ← (derivatives.zip means).mapM fun (ds, ms) =>
    (ds.zip ms).zipIdx.mapM fun ((d, m), j) =>
      if variances.contains j then return (← d.mul m).scale (-2.0) else return d
  base.packResults chained

/-- The weighted sum of shifted results; zero for a rule without terms. -/
def weighted (shape : List Nat) (rule : ShiftRule α) (results : List (Tensor α)) :
    Except Error (Tensor α) :=
  if rule.terms.isEmpty then .ok (.zeros shape)
  else Tensor.linearCombination (rule.terms.map (·.coefficient)) results

/-- One derivative for each rule, from consecutive stretches of results. -/
def columns (derivative : ShiftRule α → List (Tensor α) → Except Error (Tensor α)) :
    List (ShiftRule α) → List (Tensor α) → Except Error (List (Tensor α))
  | [], _ => .ok []
  | rule :: rest, results => do
    let d ← derivative rule (results.take rule.terms.length)
    return d :: (← columns derivative rest (results.drop rule.terms.length))

/-- The plan of the first derivatives, as a new trailing dimension with one
    entry for each selected parameter. -/
def plan (t : Trace α) (c : ShiftConfig α) : Except Error (Plan α) := do
  t.checkDifferentiable
  let selected ← t.selectTrainable c.parameters
  let variances ← t.variances
  let base ← if variances.isEmpty then pure t else t.withMeans
  let rules ← selected.mapM fun p => t.shiftRule p c.step
  let shifted ← (selected.zip rules).mapM fun (p, rule) => base.shifted p rule
  let chained := !variances.isEmpty && !rules.isEmpty
  let traces := shifted.flatten ++ if chained then [base] else []
  let shape ← t.outputShape
  return {
    traces
    fold := fun results => do
      if results.length ≠ traces.length then
        (ShapeFault.shiftArity traces.length results.length).error
      else if rules.isEmpty then return .zeros (shape ++ [0])
      else
        let derivative (rule : ShiftRule α) (own : List (Tensor α)) :
            Except Error (Tensor α) := do
          let d ← weighted shape rule own
          match results.getLast? with
          | some mean => if chained then chainVariance base variances mean d else return d
          | none => return d
        Tensor.stackTrailing (← columns derivative rules results) }

end ParameterShift

end CircuitGrad
