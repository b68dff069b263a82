import CircuitGrad.Gradient.Preprocessing
import CircuitGrad.Plan.Basic
import CircuitGrad.Tensor.Axes

/-! # From gate parameters to call arguments

    Derivatives in gate parameters become derivatives in the entries of call
    arguments by the chain rule.  With `J` and `H` the first and second
    derivatives of the parameters in the entries, the first order is
    `∑ₖ Dₖ Jₖₐ`, the second is `∑ₖₗ Dₖₗ Jₖₐ Jₗᵦ + ∑ₖ Dₖ Hₖₐᵦ`, and where all
    parameters are affine every order contracts each of its dimensions
    with `J`.
-/

namespace CircuitGrad.ChainRule

/-- Shape of a derivative without its last `order` dimensions. -/
def leadingShape {α : Type} (d : Tensor α) (order : Nat) : Except Error (List Nat) :=
  if d.rank < order then (ShapeFault.derivativeRank order d.rank).error
  else .ok (d.shape.take (d.rank - order))

variable {α : Type} [Scalar α]

/-- Contract each of the last `order` dimensions, which stand for parameters,
    with the Jacobian; they then stand for entries of an argument. -/
def carry (r : InputRange) (jacobian : Array α) (order : Nat) (d : Tensor α) :
    Except Error (Tensor α) := do
  let lead ← leadingShape d order
  let carried ← (List.range order).foldlM (fun out i =>
    out.contract (lead.length + i) jacobian r.size) d
  carried.reshape (lead ++ (List.replicate order r.shape).flatten)

/-- The second derivative in the entries of an argument, from the second and
    the first in the parameters. -/
def carrySecond (r : InputRange) (jacobian hessian : Array α) (second first : Tensor α) :
    Except Error (Tensor α) := do
  let lead ← leadingShape second 2
  let carried ← carry r jacobian 2 second
  let curved ← first.contract lead.length hessian (r.size * r.size)
  carried.add (← curved.reshape (lead ++ r.shape ++ r.shape))

/-- Execute two plans together and fold their results by `f`. -/
def both (p q : Plan α) (f : Tensor α → Tensor α → Except Error (Tensor α)) : Plan α :=
  let batch : PlanBatch α := ⟨[p, q]⟩
  { traces := batch.traces
    fold := fun results => do
      match ← batch.combine results with
      | [a, b] => f a b
      | _ => ShapeFault.missingDerivatives.error }

/-- The plan of the derivatives of an order in some inputs, given the plan of
    each order in the parameters of a trace. -/
def plan (t : Trace α) (r : InputRange) (order : Nat) (derivative : Nat → Except Error (Plan α)) :
    Except Error (Plan α) := do
  let jacobian := (t.slopes r).data
  let main ← derivative order
  if order = 1 || t.trainable.all (·.isAffine) then return main.map (carry r jacobian order)
  else if order > 2 then .error (.gradientUndefined "qnode" .curvedPreprocessing)
  else
    t.checkCurved
    let first ← derivative 1
    return both main first (carrySecond r jacobian (t.bends r).data)

end CircuitGrad.ChainRule
