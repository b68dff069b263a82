import CircuitGrad.Gate.Standard
import CircuitGrad.Pauli.Word

/-! # Operations

    A gate applied to parameters and wires, in the numbers its specification
    asks for and on wires that differ.
-/

namespace CircuitGrad

/-- A gate with its parameters and wires. -/
structure Operation (α : Type) where
  spec   : GateSpec α
  params : List (Jet α)
  wires  : List Nat

namespace Operation

/-- The first wire of a list that stands in it again. -/
def duplicateWire? : List Nat → Option Nat
  | [] => none
  | w :: rest => if rest.contains w then some w else duplicateWire? rest

variable {α : Type}

/-- Apply a gate.  The number of parameters is checked first, then the number
    of wires, then that they differ. -/
def make (spec : GateSpec α) (params : List (Jet α)) (wires : List Nat) :
    Except Error (Operation α) :=
  if params.length ≠ spec.paramCount then
    .error (.parameterCount spec.name spec.paramCount params.length)
  else if wires.isEmpty || (spec.wireCount ≠ 0 && wires.length ≠ spec.wireCount) then
    .error (.wireCount spec.name (max spec.wireCount 1) wires.length)
  else match duplicateWire? wires with
    | some w => .error (.duplicateWire w)
    | none => .ok ⟨spec, params, wires⟩

def name (op : Operation α) : String := op.spec.name

/-- Bound values of the parameters. -/
def values (op : Operation α) : List α := op.params.map (·.value)

def hasGenerator (op : Operation α) : Bool := op.spec.generator.isSome

/-- Some method of differentiation is declared. -/
def hasGradMethod (op : Operation α) : Bool := op.spec.gradMethod != .none

def hasDecomposition (op : Operation α) : Bool := !op.spec.decompositions.isEmpty

/-- Some parameter is trainable. -/
def isTrainable (op : Operation α) : Bool := op.params.any (·.isTrainable)

def trainableCount (op : Operation α) : Nat := op.params.countP (·.isTrainable)

/-- Unitary at the bound values. -/
def matrix? (op : Operation α) : Option (Array (Amplitude α)) := op.spec.matrix.map (· op.values)

/-- Same operation with one parameter bound to another value; an index out of
    range changes nothing. -/
def withParam (op : Operation α) (index : Nat) (value : α) : Operation α :=
  { op with params := op.params.modify index (·.withValue value) }

/-- Same operation with all parameters bound to other values. -/
def withValues (op : Operation α) (values : List α) : Except Error (Operation α) :=
  if values.length ≠ op.params.length then
    .error (.parameterCount op.name op.params.length values.length)
  else .ok { op with params := List.zipWith Jet.withValue op.params values }

variable [Scalar α]

/-- Shift rule of one parameter at the bound values.  A rule of the gate's
    own wins; otherwise a generator with two distinct eigenvalues gives the
    two-term rule of a gate with one parameter. -/
def shiftRule? (op : Operation α) (index : Nat) : Option (ShiftRule α) :=
  if op.spec.gradMethod ≠ .analytic || index ≥ op.params.length then none
  else match op.spec.rule with
    | some (.fixed rule) => some rule
    | some (.valueDependent rule) => some (rule op.values index)
    | none =>
      if op.params.length = 1 then
        (op.spec.generator.bind (·.halfGap?)).map ShiftRule.twoTerm
      else none

/-- Every parameter can be differentiated without decomposing. -/
def hasOwnGradient (op : Operation α) : Bool :=
  match op.spec.gradMethod with
  | .numeric => true
  | .none => false
  | .analytic => (List.range op.params.length).all fun i => (op.shiftRule? i).isSome

/-- Mark exactly the flagged parameters as trainable. -/
def withTrainability (op : Operation α) (flags : List Bool) : Operation α :=
  { op with
    params := List.zipWith (fun p flag =>
      if flag then (if p.isTrainable then p else .trainable p.value)
      else (if p.isTrainable then p.frozen else p)) op.params flags }

/-- Same gate name, wires and parameter representations. -/
def sameStructure (a b : Operation α) : Bool :=
  a.name == b.name && a.wires == b.wires && a.params.length == b.params.length
    && (a.params.zip b.params).all fun (p, q) => Representation.identical p.value q.value

instance : BEq (Operation α) :=
  ⟨fun a b => a.sameStructure b
    && (a.params.zip b.params).all fun (p, q) => p.isTrainable == q.isTrainable⟩

def text (op : Operation α) : String :=
  let params := if op.params.isEmpty then ""
    else "(" ++ ", ".intercalate (op.params.map (·.text)) ++ ")"
  op.name ++ params ++ "[" ++ ", ".intercalate (op.wires.map fun w => s!"w{w}") ++ "]"

end Operation

variable {α : Type} [Scalar α]

namespace GateTable

/-- Apply a gate of the table. -/
def operation (table : GateTable α) (c : GateCall α) : Except Error (Operation α) :=
  Operation.make (table.spec c.gate) c.params c.wires

/-- One of the decompositions of an operation, if it has as many. -/
def decompose? (table : GateTable α) (op : Operation α) (choice : Nat) :
    Option (Except Error (List (Operation α))) :=
  op.spec.decompositions[choice]?.map fun rule => do
    (← rule op.params op.wires).mapM table.operation

end GateTable

/-- Gates that turn the eigenbasis of a Pauli operator into the computational
    basis. -/
def Pauli.diagonalizingGates (p : Pauli) (wire : Nat) : List (Operation α) :=
  let on (g : StandardGate) : Operation α := ⟨g.spec, [], [wire]⟩
  match p with
  | .I | .Z => []
  | .X => [on .hadamard]
  | .Y => [on .pauliZ, on .s, on .hadamard]

/-- Gates that turn the eigenbasis of a word into the computational basis. -/
def PauliWord.diagonalizingGates (word : PauliWord) : List (Operation α) :=
  word.factors.flatMap fun (w, p) => p.diagonalizingGates w

end CircuitGrad
