import CircuitGrad.Criterion
import CircuitGrad.Trace.Basic

/-! # Expansion

    Replacing operations by their preferred decompositions, again and again,
    until a criterion holds, nothing is left to decompose, or a depth is
    reached.
-/

namespace CircuitGrad

variable {α : Type} [Scalar α]

/-- The operations that one operation expands to.  An operation that meets
    the criterion, has no decomposition, or sits at the depth bound is kept. -/
def GateTable.expandOperation (table : GateTable α) (stop : Criterion α) :
    Nat → Operation α → Except Error (List (Operation α))
  | 0, op => .ok [op]
  | depth + 1, op =>
    if stop.check op then .ok [op]
    else match table.decompose? op 0 with
      | none => .ok [op]
      | some parts => do
        return (← (← parts).mapM (table.expandOperation stop depth)).flatten

/-- Expand all operations of a list. -/
def GateTable.expandOperations (table : GateTable α) (stop : Criterion α) (depth : Nat)
    (ops : List (Operation α)) : Except Error (List (Operation α)) := do
  return (← ops.mapM (table.expandOperation stop depth)).flatten

/-- Expand the operations of a trace; depth zero changes nothing. -/
def Trace.expand (t : Trace α) (table : GateTable α) (depth : Nat) (stop : Criterion α) :
    Except Error (Trace α) := do
  if depth = 0 then return t
  else t.withOperations (← table.expandOperations stop depth t.operations)

end CircuitGrad
