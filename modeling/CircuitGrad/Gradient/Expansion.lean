import CircuitGrad.Trace.Basic

/-! # Expansion for differentiation

    A trainable operation can be differentiated as it is when every one of
    its parameters has a shift rule, or when its gate asks for difference
    quotients.  Any other is decomposed, by the cheapest of its
    decompositions, until its parts can be differentiated.
-/

namespace CircuitGrad

/-- Cost of replacing an operation by others. -/
abbrev DecompositionCost (α : Type) := List (Operation α) → Nat

/-- The number of trainable operations: each of them is to be differentiated. -/
def trainableOperations {α : Type} : DecompositionCost α := fun ops =>
  ops.countP (·.isTrainable)

variable {α : Type} [Scalar α]

/-- There is nothing to differentiate in the operation, or it can be done. -/
def Operation.isDifferentiable (op : Operation α) : Bool := !op.isTrainable || op.hasOwnGradient

/-- The first of those candidates that cost least. -/
def cheapest? (cost : DecompositionCost α) (candidates : List (List (Operation α))) :
    Option (List (Operation α)) :=
  candidates.foldl (fun best ops =>
    match best with
    | none => some ops
    | some b => if cost ops < cost b then some ops else some b) none

namespace GateTable

/-- All decompositions of an operation. -/
def decompositions (table : GateTable α) (op : Operation α) :
    Except Error (List (List (Operation α))) :=
  (List.range op.spec.decompositions.length).mapM fun choice =>
    (table.decompose? op choice).getD (.ok [])

/-- The cheapest decomposition, the first one among equals. -/
def cheapestDecomposition (table : GateTable α) (cost : DecompositionCost α)
    (op : Operation α) : Except Error (List (Operation α)) := do
  match cheapest? cost (← table.decompositions op) with
  | some ops => return ops
  | none => .error (.gradientUndefined op.name .noDecomposition)

/-- The differentiable operations that an operation is replaced by. -/
def differentiable (table : GateTable α) (cost : DecompositionCost α) :
    Nat → Operation α → Except Error (List (Operation α))
  | 0, op =>
    if op.isDifferentiable then .ok [op]
    else .error (.gradientUndefined op.name .depthReached)
  | depth + 1, op =>
    if op.isDifferentiable then .ok [op]
    else do
      let parts ← table.cheapestDecomposition cost op
      return (← parts.mapM (table.differentiable cost depth)).flatten

end GateTable

/-- How deep operations are expanded unless asked otherwise. -/
def defaultGradientDepth : Nat := 10

/-- The trace with all trainable operations made differentiable.  Operations
    without trainable parameters stay as they are. -/
def Trace.expandDifferentiable (t : Trace α) (table : GateTable α) (depth : Nat)
    (cost : DecompositionCost α) : Except Error (Trace α) := do
  if t.operations.all (·.isDifferentiable) then return t
  else
    t.withOperations (← t.operations.mapM (table.differentiable cost depth)).flatten

end CircuitGrad
