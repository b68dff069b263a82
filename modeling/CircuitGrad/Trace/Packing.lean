import CircuitGrad.Tensor.Axes
import CircuitGrad.Trace.Basic

/-! # Packed results

    The result of a trace is one tensor.  For one batch of shots it is the
    only measurement's result, or the stack of results of equal shape, or all
    results laid out flat; several batches add a leading dimension.
-/

namespace CircuitGrad

/-- How the results of one batch of shots are laid out. -/
inductive Packing where
  | single (shape : List Nat)
  | stacked (count : Nat) (shape : List Nat)
  | flat (shapes : List (List Nat))

namespace Packing

/-- The layout of results of the given shapes. -/
def ofShapes (shapes : List (List Nat)) : Packing :=
  match shapes with
  | [shape] => single shape
  | first :: rest => if rest.all (· == first) then stacked shapes.length first else flat shapes
  | [] => flat []

/-- Shape of the packed result. -/
def shape : Packing → List Nat
  | single shape => shape
  | stacked count shape => count :: shape
  | flat shapes => [(shapes.map Tensor.volume).sum]

variable {α : Type} [Zero α]

/-- Pack results into one tensor. -/
def pack (p : Packing) (results : List (Tensor α)) : Except Error (Tensor α) :=
  match p, results with
  | single _, r :: _ => .ok r
  | single _, [] => .error .aborted
  | stacked _ _, _ => Tensor.stack results
  | flat _, _ => .ok (Tensor.concat results)

/-- Cut flat data into tensors of the given shapes. -/
def cut (data : List α) : List (List Nat) → Except Error (List (Tensor α))
  | [] => .ok []
  | shape :: rest => do
    let n := Tensor.volume shape
    let first ← Tensor.make shape (data.take n).toArray
    return first :: (← cut (data.drop n) rest)

/-- Take a packed tensor apart. -/
def unpack (p : Packing) (packed : Tensor α) : Except Error (List (Tensor α)) :=
  match p with
  | single _ => .ok [packed]
  | stacked _ _ => packed.unstack
  | flat shapes => cut packed.data.toList shapes

end Packing

namespace Trace

variable {α : Type}

/-- Result shape of each measurement for one batch of shots. -/
def measurementShapes (t : Trace α) (shots : Option Nat) : Except Error (List (List Nat)) :=
  t.measurements.mapM (·.outputShape t.register shots)

/-- Layout of the results of one batch of shots. -/
def packing (t : Trace α) (shots : Option Nat) : Except Error Packing :=
  return .ofShapes (← t.measurementShapes shots)

/-- Shape of the packed result under the shots of the trace.  Batches must
    agree in shape, and there must be one. -/
def outputShape (t : Trace α) : Except Error (List Nat) := do
  match t.shots.batches with
  | [] => .error .aborted
  | [batch] => return (← t.packing batch).shape
  | first :: rest =>
    let shape := (← t.packing first).shape
    for batch in rest do
      if (← t.packing batch).shape ≠ shape then ShapeFault.unevenShotBatches.error
    return (rest.length + 1) :: shape

variable [Zero α]

/-- Fails unless results have the shapes of the measurements. -/
def checkResults (shapes : List (List Nat)) (results : List (Tensor α)) : Except Error Unit :=
  if results.length ≠ shapes.length then
    (ShapeFault.resultCount shapes.length results.length).error
  else match (results.zip shapes).find? fun (r, s) => r.shape != s with
    | some (r, s) => (ShapeFault.measurementShape r.shape s).error
    | none => .ok ()

/-- Pack the results of one batch of shots. -/
def packBatch (t : Trace α) (shots : Option Nat) (results : List (Tensor α)) :
    Except Error (Tensor α) := do
  let shapes ← t.measurementShapes shots
  checkResults shapes results
  (Packing.ofShapes shapes).pack results

/-- Pack results, by batch and measurement, into the output of the trace. -/
def packResults (t : Trace α) (results : List (List (Tensor α))) : Except Error (Tensor α) := do
  let batches := t.shots.batches
  if results.length ≠ batches.length then
    (ShapeFault.shotBatchCount batches.length results.length).error
  else
    match ← (results.zip batches).mapM fun (rs, shots) => t.packBatch shots rs with
    | [packed] => return packed
    | packed => Tensor.stack packed

/-- Take an output of the trace apart, by batch and measurement. -/
def unpackResult (t : Trace α) (result : Tensor α) :
    Except Error (List (List (Tensor α))) := do
  let expected ← t.outputShape
  if result.shape ≠ expected then (ShapeFault.packedShape result.shape expected).error
  else
    let batches := t.shots.batches
    let parts ← if batches.length = 1 then pure [result] else result.unstack
    (parts.zip batches).mapM fun (part, shots) => do (← t.packing shots).unpack part

end Trace

end CircuitGrad
