import CircuitGrad.Measurement
import CircuitGrad.Operation
import CircuitGrad.Shots
import CircuitGrad.Tensor.Basic

/-! # Circuit traces

    A trace is the record of one run of a circuit function: operations in
    program order, measurements, register size, shots, and the layout of the
    call arguments that the parameters were computed from.  A trace is never
    changed; whatever alters it gives a new one.

    Parameters are counted flat, over the parameter lists of all operations
    in order.
-/

namespace CircuitGrad

/-- Where the entries of one call argument stand among the seeded inputs. -/
structure ArgumentSlot where
  /-- Shape of the argument, without a batch dimension. -/
  shape  : List Nat
  /-- Its first input; absent when it is not differentiable. -/
  offset : Option Nat
deriving DecidableEq, Repr

/-- Number of entries of the argument. -/
def ArgumentSlot.size (slot : ArgumentSlot) : Nat := Tensor.volume slot.shape

/-- The call arguments that a trace was recorded from. -/
structure ArgumentLayout where
  slots : List ArgumentSlot
deriving DecidableEq, Repr

namespace ArgumentLayout

def empty : ArgumentLayout := ⟨[]⟩

def argumentCount (layout : ArgumentLayout) : Nat := layout.slots.length

/-- Number of differentiable entries over all arguments. -/
def inputCount (layout : ArgumentLayout) : Nat :=
  ((layout.slots.filter (·.offset.isSome)).map (·.size)).sum

/-- First input and number of inputs of a differentiable argument. -/
def inputs? (layout : ArgumentLayout) (argument : Nat) : Option (Nat × Nat) := do
  let slot ← layout.slots[argument]?
  return (← slot.offset, slot.size)

/-- The differentiable arguments. -/
def differentiable (layout : ArgumentLayout) : List Nat :=
  (layout.slots.zipIdx.filter fun (slot, _) => slot.offset.isSome).map (·.2)

end ArgumentLayout

/-- The record of a circuit. -/
structure Trace (α : Type) where
  operations   : List (Operation α)
  measurements : List (Measurement α)
  /-- Number of wires of the register. -/
  register     : Nat
  shots        : Shots
  layout       : ArgumentLayout

namespace Trace

variable {α : Type}

instance [Scalar α] : BEq (Trace α) :=
  ⟨fun a b => a.operations == b.operations && a.measurements == b.measurements
    && a.register == b.register && a.shots == b.shots && a.layout == b.layout⟩

/-! ### Construction -/

/-- The first wire of a list outside the register. -/
def checkWires (register : Nat) (wires : List Nat) : Except Error Unit :=
  match wires.find? (· ≥ register) with
  | some w => .error (.invalidWire w register)
  | none => .ok ()

/-- There is a measurement, and all wires lie in the register. -/
def check (t : Trace α) : Except Error (Trace α) := do
  if t.measurements.isEmpty then .error (.invalidTrace .noMeasurements)
  checkWires t.register (t.operations.flatMap (·.wires))
  checkWires t.register (t.measurements.flatMap (·.wires))
  return t

/-- An exact trace without arguments. -/
def make (register : Nat) (operations : List (Operation α))
    (measurements : List (Measurement α)) : Except Error (Trace α) :=
  if register = 0 then .error (.invalidTrace .emptyRegister)
  else check ⟨operations, measurements, register, .analytic, .empty⟩

/-- Same measurements and settings, different operations. -/
def withOperations (t : Trace α) (operations : List (Operation α)) : Except Error (Trace α) :=
  check { t with operations }

/-- Same operations and settings, different measurements. -/
def withMeasurements (t : Trace α) (measurements : List (Measurement α)) :
    Except Error (Trace α) :=
  check { t with measurements }

def withShots (t : Trace α) (shots : Shots) : Trace α := { t with shots }

def withLayout (t : Trace α) (layout : ArgumentLayout) : Trace α := { t with layout }

/-! ### Parameters -/

/-- All parameters, flat. -/
def params (t : Trace α) : List (Jet α) := t.operations.flatMap (·.params)

def paramCount (t : Trace α) : Nat := (t.operations.map (·.params.length)).sum

/-- Bound values of all parameters. -/
def values (t : Trace α) : List α := t.params.map (·.value)

/-- The trainable parameters, in order. -/
def trainable (t : Trace α) : List (Jet α) := t.params.filter (·.isTrainable)

/-- Flat indices of the trainable parameters. -/
def trainableIndices (t : Trace α) : List Nat :=
  (t.params.zipIdx.filter fun (p, _) => p.isTrainable).map (·.2)

/-- Operation and position in it of a flat parameter index. -/
def locate? : List (Operation α) → Nat → Option (Nat × Nat)
  | [], _ => none
  | op :: rest, i =>
    if i < op.params.length then some (0, i)
    else (locate? rest (i - op.params.length)).map fun (o, p) => (o + 1, p)

/-- Operation and position in it of a flat parameter index. -/
def paramLocation? (t : Trace α) (index : Nat) : Option (Nat × Nat) := locate? t.operations index

/-- A parameter by flat index. -/
def param? (t : Trace α) (index : Nat) : Option (Jet α) := do
  let (o, p) ← t.paramLocation? index
  (← t.operations[o]?).params[p]?

/-- Hand out the entries of a list to the parameters of operations in order. -/
def deal {β γ : Type} (f : Operation α → List β → γ) : List (Operation α) → List β → List γ
  | [], _ => []
  | op :: rest, xs =>
    f op (xs.take op.params.length) :: deal f rest (xs.drop op.params.length)

/-- Same structure with all parameters bound to other values. -/
def withValues (t : Trace α) (values : List α) : Except Error (Trace α) := do
  if values.length ≠ t.paramCount then
    (ArgumentFault.parameterValues t.paramCount values.length).error
  else
    let operations ← (deal Operation.withValues t.operations values).mapM id
    return { t with operations }

/-- Same structure with one parameter bound to another value. -/
def withParam (t : Trace α) (index : Nat) (value : α) : Except Error (Trace α) :=
  match t.paramLocation? index with
  | none => (ArgumentFault.parameterIndex index).error
  | some (o, p) => .ok { t with operations := t.operations.modify o (·.withParam p value) }

/-- Mark exactly the parameters at the given flat indices as trainable. -/
def withTrainable [Scalar α] (t : Trace α) (indices : List Nat) : Except Error (Trace α) :=
  let total := t.paramCount
  match indices.find? (· ≥ total) with
  | some i => (ArgumentFault.parameterIndexOf i total).error
  | none =>
    let flags := (List.range total).map fun i => indices.contains i
    .ok { t with operations := deal Operation.withTrainability t.operations flags }

/-! ### Comparison and display -/

/-- Same register, operations and measurements; trainability, shots and
    layout do not count. -/
def sameStructure [Scalar α] (a b : Trace α) : Bool :=
  a.register == b.register && a.measurements == b.measurements
    && a.operations.length == b.operations.length
    && (a.operations.zip b.operations).all fun (p, q) => p.sameStructure q

def text [Scalar α] (t : Trace α) : String :=
  let head := s!"Trace({t.register} wires, {t.operations.length} operations, {t.shots.text})"
  let lines := t.operations.map (·.text) ++ t.measurements.map (·.text)
  "\n".intercalate (head :: lines.map ("  " ++ ·)) ++ "\n"

end Trace

end CircuitGrad
