import CircuitGrad.Plan.Pipeline

/-! # Transforms with arguments

    A transform is a stage that takes named extra arguments.  It may have an
    expand entry point, which is run on the trace before the main one and
    must declare the same arguments.
-/

namespace CircuitGrad

/-- A declared extra argument. -/
structure Parameter where
  name     : String
  kind     : ArgumentKind
  required : Bool
deriving DecidableEq

/-- The value of an extra argument. -/
inductive ArgumentValue (α : Type) where
  | float (x : α)
  | int (n : Int)
  | bool (b : Bool)
  | wires (wires : List Nat)
  | text (s : String)
deriving BEq

def ArgumentValue.kind {α : Type} : ArgumentValue α → ArgumentKind
  | float _ => .float
  | int _ => .int
  | bool _ => .bool
  | wires _ => .wires
  | text _ => .text

/-- Named values, by rising name. -/
structure Arguments (α : Type) where
  entries : List (String × ArgumentValue α)
deriving BEq

namespace Arguments

variable {α : Type}

def empty : Arguments α := ⟨[]⟩

/-- Put a value at its place among entries by rising name. -/
def place (name : String) (value : ArgumentValue α) :
    List (String × ArgumentValue α) → List (String × ArgumentValue α)
  | [] => [(name, value)]
  | (other, v) :: rest =>
    if name < other then (name, value) :: (other, v) :: rest
    else if name = other then (name, value) :: rest
    else (other, v) :: place name value rest

/-- Set an argument; an earlier value of the name is lost. -/
def insert (args : Arguments α) (name : String) (value : ArgumentValue α) : Arguments α :=
  ⟨place name value args.entries⟩

def get? (args : Arguments α) (name : String) : Option (ArgumentValue α) :=
  args.entries.lookup name

def float? (args : Arguments α) (name : String) : Option α :=
  match args.get? name with
  | some (.float x) => some x
  | _ => none

def int? (args : Arguments α) (name : String) : Option Int :=
  match args.get? name with
  | some (.int n) => some n
  | _ => none

def bool? (args : Arguments α) (name : String) : Option Bool :=
  match args.get? name with
  | some (.bool b) => some b
  | _ => none

def wires? (args : Arguments α) (name : String) : Option (List Nat) :=
  match args.get? name with
  | some (.wires ws) => some ws
  | _ => none

def text? (args : Arguments α) (name : String) : Option String :=
  match args.get? name with
  | some (.text s) => some s
  | _ => none

end Arguments

/-- The declared extra arguments of an entry point. -/
structure Signature where
  parameters : List Parameter
deriving DecidableEq

namespace Signature

def text (s : Signature) : String :=
  ", ".intercalate (s.parameters.map fun p =>
    p.name ++ ": " ++ p.kind.name ++ (if p.required then "" else "?"))

/-- Every given argument is declared and of the declared kind, and no
    required one is missing. -/
def validate {α : Type} (s : Signature) (args : Arguments α) : Except Error Unit := do
  args.entries.forM fun (name, value) =>
    match s.parameters.find? (·.name == name) with
    | none => (ArgumentFault.unexpected name).error
    | some p =>
      if p.kind = value.kind then .ok ()
      else (ArgumentFault.kind name p.kind value.kind).error
  match s.parameters.find? fun p => p.required && (args.get? p.name).isNone with
  | some p => (ArgumentFault.missing p.name).error
  | none => .ok ()

end Signature

/-- Main entry point of a transform. -/
abbrev MainEntry (α : Type) := Trace α → Arguments α → Except Error (Plan α)

/-- Expand entry point of a transform. -/
abbrev ExpandEntry (α : Type) := Trace α → Arguments α → Except Error (Trace α)

/-- A stage that takes extra arguments. -/
structure Transform (α : Type) where
  name      : String
  signature : Signature
  main      : MainEntry α
  expand    : Option (ExpandEntry α)

namespace Transform

variable {α : Type}

/-- A transform from its entry points.  There must be a main one, and both
    must declare the same arguments. -/
def register (name : String) (main : Option (Signature × MainEntry α))
    (expand : Option (Signature × ExpandEntry α)) : Except Error (Transform α) :=
  match main, expand with
  | none, _ => (ArgumentFault.noMainEntry name).error
  | some (signature, main), none => .ok ⟨name, signature, main, none⟩
  | some (signature, main), some (expandSignature, expand) =>
    if expandSignature = signature then .ok ⟨name, signature, main, some expand⟩
    else .error (.signatureMismatch name expandSignature.text signature.text)

/-- Run the expand entry point, if there is one, and then the main one. -/
def run (t : Transform α) (trace : Trace α) (args : Arguments α) : Except Error (Plan α) := do
  match t.expand with
  | some expand => t.main (← expand trace args) args
  | none => t.main trace args

/-- Check the arguments and run. -/
def apply (t : Transform α) (trace : Trace α) (args : Arguments α) : Except Error (Plan α) := do
  t.signature.validate args
  t.run trace args

/-- Check the arguments once, for any number of traces. -/
def bind (t : Transform α) (args : Arguments α) : Except Error (Stage α) := do
  t.signature.validate args
  return ⟨t.name, fun trace => t.run trace args⟩

def text (t : Transform α) : String :=
  Display.record "QuantumTransform"
    [("name", Display.quoted t.name), ("signature", Display.quoted t.signature.text),
      ("expand", toString t.expand.isSome)]

end Transform

end CircuitGrad
