import CircuitGrad.Amplitude
import CircuitGrad.Error
import CircuitGrad.Jet
import CircuitGrad.ShiftRule

/-! # Gates

    A gate is a kind of operation.  What the library knows of it is its
    `GateSpec`: name, number of parameters and wires, generator, method of
    differentiation, shift rule, decompositions and matrix.  Code that needs
    to know whether a gate can be decomposed or differentiated reads these
    fields and nothing else.

    A decomposition names the gates it uses instead of holding their
    specifications, so that gates may decompose into one another in circles;
    a `GateTable` says what each name stands for.
-/

namespace CircuitGrad

/-- The gates that every table knows. -/
inductive StandardGate where
  | identity
  | hadamard
  | pauliX
  | pauliY
  | pauliZ
  | s
  | t
  | sx
  | rx
  | ry
  | rz
  | phaseShift
  | rot
  | cnot
  | cz
  | swap
  | crx
  | cry
  | crz
deriving DecidableEq, Repr

/-- A gate by name: a standard one, or one of the table's own. -/
inductive Gate where
  | standard (gate : StandardGate)
  | custom (index : Nat)
deriving DecidableEq, Repr

/-- How the parameters of a gate may be differentiated. -/
inductive GradMethod where
  /-- By an exact shift rule, its own or that of its decomposition. -/
  | analytic
  /-- Only by difference quotients. -/
  | numeric
  /-- Not at all. -/
  | none
deriving DecidableEq, Repr

namespace GradMethod

def name : GradMethod → String
  | analytic => "Analytic"
  | numeric => "Numeric"
  | none => "None"

def ofName? (name : String) : Option GradMethod := [analytic, numeric, none].find? (·.name == name)

end GradMethod

/-- The generator `G` of a one-parameter gate `exp (-iθG)`. -/
structure Generator (α : Type) where
  eigenvalues : List α
  /-- `G` is a multiple of a unitary operator. -/
  unitary     : Bool

/-- Where a gate takes its shift rule from. -/
inductive RuleSource (α : Type) where
  /-- The same rule everywhere. -/
  | fixed (rule : ShiftRule α)
  /-- A rule for each parameter, computed from the bound values. -/
  | valueDependent (rule : List α → Nat → ShiftRule α)

/-- An application of a gate, not yet checked against its specification. -/
structure GateCall (α : Type) where
  gate   : Gate
  params : List (Jet α)
  wires  : List Nat

/-- The gates that stand for a gate on given parameters and wires. -/
abbrev Decomposition (α : Type) :=
  List (Jet α) → List Nat → Except Error (List (GateCall α))

/-- What the library knows of a gate.  All but the name may be left out: a
    gate then has one parameter, acts on one wire, and has no other form. -/
structure GateSpec (α : Type) where
  name           : String
  paramCount     : Nat := 1
  /-- Number of wires; zero accepts any positive number. -/
  wireCount      : Nat := 1
  generator      : Option (Generator α) := none
  gradMethod     : GradMethod := .none
  rule           : Option (RuleSource α) := none
  /-- Alternatives, in order of preference. -/
  decompositions : List (Decomposition α) := []
  /-- Row-major unitary at the given parameter values, the first wire most
      significant. -/
  matrix         : Option (List α → Array (Amplitude α)) := none

namespace Generator

variable {α : Type} [Scalar α]

/-- All differences of two eigenvalues, zero included. -/
def frequencies (g : Generator α) : List α :=
  g.eigenvalues.flatMap fun a => g.eigenvalues.map fun b => a - b

/-- The eigenvalues without those that lie very close to an earlier one. -/
def distinct (g : Generator α) : List α :=
  g.eigenvalues.foldl (fun acc e =>
    if acc.any fun d => Scalar.lt (Scalar.abs (d - e)) 1e-12 then acc else acc ++ [e]) []

/-- Half the gap between exactly two distinct eigenvalues. -/
def halfGap? (g : Generator α) : Option α :=
  match g.distinct with
  | [a, b] => some (Scalar.abs (a - b) / 2.0)
  | _ => none

end Generator

end CircuitGrad
