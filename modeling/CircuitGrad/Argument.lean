import CircuitGrad.Error
import CircuitGrad.Jet
import CircuitGrad.Tensor.Basic
import CircuitGrad.Trace.Basic

/-! # Call arguments

    Real arrays that a circuit function is called with, and the jets it sees
    in their place.  Every entry of every differentiable argument is an input
    of its own.
-/

namespace CircuitGrad

/-- A real array, possibly differentiable, possibly with a leading batch
    dimension. -/
structure Argument (α : Type) where
  values         : List α
  /-- Shape, a batch dimension included. -/
  shape          : List Nat
  differentiable : Bool
  batched        : Bool
deriving BEq

namespace Argument

variable {α : Type}

def scalar (x : α) : Argument α := ⟨[x], [], true, false⟩

def vector (xs : List α) : Argument α := ⟨xs, [xs.length], true, false⟩

/-- A differentiable array; the values must fill the shape. -/
def array (shape : List Nat) (values : List α) : Except Error (Argument α) :=
  let needed := Tensor.volume shape
  if needed ≠ values.length then
    (ShapeFault.argumentValueCount shape needed values.length).error
  else .ok ⟨values, shape, true, false⟩

/-- An array whose leading dimension is a batch dimension. -/
def batch (shape : List Nat) (values : List α) : Except Error (Argument α) := do
  if shape.isEmpty then ArgumentFault.scalarBatch.error
  else return { (← array shape values) with batched := true }

/-- Not differentiable. -/
def constant (a : Argument α) : Argument α := { a with differentiable := false }

/-- Size of the batch dimension. -/
def batchSize? (a : Argument α) : Option Nat := if a.batched then a.shape.head? else none

/-- One entry of the batch dimension, as an argument without one. -/
def slice (a : Argument α) (i : Nat) : Except Error (Argument α) :=
  match a.batchSize? with
  | none => ArgumentFault.notBatched.error
  | some size =>
    if i ≥ size then (ArgumentFault.batchIndex i size).error
    else
      let inner := a.values.length / size
      .ok ⟨(a.values.drop (i * inner)).take inner, a.shape.drop 1, a.differentiable, false⟩

/-- Same shape and flags, different values. -/
def withValues (a : Argument α) (values : List α) : Except Error (Argument α) :=
  if values.length ≠ a.values.length then
    (ShapeFault.replacementCount a.values.length values.length).error
  else .ok { a with values }

end Argument

/-- An argument as a circuit function sees it. -/
structure TracedArgument (α : Type) where
  entries : List (Jet α)
  shape   : List Nat

namespace TracedArgument

/-- Row-major position of an index; none when it is out of range. -/
def position? (shape index : List Nat) : Option Nat :=
  if index.length = shape.length && (index.zip shape).all fun (i, d) => i < d then
    some ((index.zip shape).foldl (fun flat (i, d) => flat * d + i) 0)
  else none

/-- The entry at an index. -/
def get? {α : Type} (a : TracedArgument α) (index : List Nat) : Option (Jet α) := do
  a.entries[← position? a.shape index]?

end TracedArgument

section Seeding

variable {α : Type} [Scalar α]

/-- The argument as jets, given its first input and the number of inputs. -/
def Argument.traced (a : Argument α) (offset inputs : Nat) (secondOrder : Bool) :
    TracedArgument α :=
  { entries :=
      if a.differentiable then
        a.values.zipIdx.map fun (v, j) => Jet.seed v (offset + j) inputs secondOrder
      else a.values.map Jet.constant
    shape := a.shape }

/-- Number of inputs that an argument brings. -/
def Argument.inputCount (a : Argument α) : Nat := if a.differentiable then a.values.length else 0

/-- First input of each argument, counting from `offset`. -/
def Argument.offsets (offset : Nat) : List (Argument α) → List Nat
  | [] => []
  | a :: rest => offset :: offsets (offset + a.inputCount) rest

/-- Turn arguments into jets and lay them out.  Second derivatives are tracked
    from order two on. -/
def Argument.seed (args : List (Argument α)) (order : Nat) :
    Except Error (List (TracedArgument α) × ArgumentLayout) :=
  match args.findIdx? (·.batched) with
  | some i => (ArgumentFault.batchedSeed i).error
  | none =>
    let inputs := (args.map (·.inputCount)).sum
    let placed := args.zip (offsets 0 args)
    .ok (placed.map fun (a, offset) => a.traced offset inputs (order ≥ 2),
      ⟨placed.map fun (a, offset) =>
        ⟨a.shape, if a.differentiable then some offset else none⟩⟩)

end Seeding

end CircuitGrad
