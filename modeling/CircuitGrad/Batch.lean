import CircuitGrad.Argument
import CircuitGrad.Plan.Basic
import CircuitGrad.Tensor.Axes
import CircuitGrad.Trace.Packing

/-! # Batches

    Arguments may carry a leading batch dimension.  A batched request becomes
    one request for each batch index, with the other arguments held fixed,
    and the results are stacked along a new leading dimension.
-/

namespace CircuitGrad

namespace Argument

variable {α : Type}

/-- The batch size that all batched arguments share, if there are any. -/
def commonBatchSize (args : List (Argument α)) : Except Error (Option Nat) :=
  let sizes := args.zipIdx.filterMap fun (a, i) => a.batchSize?.map (i, ·)
  match sizes with
  | [] => .ok none
  | (first, size) :: rest =>
    match rest.find? (·.2 != size) with
    | some (i, other) => (ShapeFault.batchSizes first size i other).error
    | none => .ok (some size)

/-- The argument at one batch index. -/
def atIndex (a : Argument α) (i : Nat) : Except Error (Argument α) :=
  if a.batched then a.slice i else .ok a

/-- One argument list for each batch index; the list itself when nothing is
    batched. -/
def unbatch (args : List (Argument α)) : Except Error (List (List (Argument α))) := do
  match ← commonBatchSize args with
  | none => return [args]
  | some size => (List.range size).mapM fun i => args.mapM (·.atIndex i)

/-- Number of entries. -/
def size (a : Argument α) : Nat := a.values.length

end Argument

variable {α : Type} [Zero α]

/-- Stack the results of a batch.  An empty one has results of the given
    shape. -/
def Tensor.stackBatch (results : List (Tensor α)) (shape : List Nat) :
    Except Error (Tensor α) :=
  if results.isEmpty then .ok (.zeros (0 :: shape)) else Tensor.stack results

namespace Trace

/-- The values of all parameters, with those at some flat indices replaced. -/
def valuesWith (t : Trace α) (indices : List Nat) (values : List α) : List α :=
  (indices.zip values).foldl (fun acc (i, x) => acc.set i x) t.values

/-- Bind the trainable parameters to one value for each batch index, or to one
    value for all. -/
def bindBatch (t : Trace α) (bindings : List (Argument α)) : Except Error (Plan α) := do
  let trainable := t.trainableIndices
  if bindings.length ≠ trainable.length then
    (ArgumentFault.bindingCount trainable.length bindings.length).error
  else match ← Argument.commonBatchSize bindings with
    | none => ArgumentFault.noBatch.error
    | some size =>
      match bindings.zipIdx.find? fun (b, _) => b.size != (if b.batched then size else 1) with
      | some (b, k) => (ShapeFault.bindingShape k b.shape).error
      | none =>
        let traces ← (List.range size).mapM fun i =>
          t.withValues <| t.valuesWith trainable <|
            bindings.map fun b => b.values.getD (if b.batched then i else 0) 0
        let shape ← t.outputShape
        return ⟨traces, fun results => Tensor.stackBatch results shape⟩

end Trace

end CircuitGrad
