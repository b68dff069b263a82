import CircuitGrad.Gate.Matrix
import CircuitGrad.Gate.Spec

/-! # The standard gates

    Specifications of the gates that every table knows.  Decompositions drop
    global phases and take the wires they need from the front of the list
    they are given.
-/

namespace CircuitGrad

namespace StandardGate

/-- All standard gates in their fixed order. -/
def all : List StandardGate :=
  [identity, hadamard, pauliX, pauliY, pauliZ, s, t, sx, rx, ry, rz, phaseShift, rot,
    cnot, cz, swap, crx, cry, crz]

def name : StandardGate → String
  | identity => "Identity"
  | hadamard => "Hadamard"
  | pauliX => "PauliX"
  | pauliY => "PauliY"
  | pauliZ => "PauliZ"
  | s => "S"
  | t => "T"
  | sx => "SX"
  | rx => "RX"
  | ry => "RY"
  | rz => "RZ"
  | phaseShift => "PhaseShift"
  | rot => "Rot"
  | cnot => "CNOT"
  | cz => "CZ"
  | swap => "SWAP"
  | crx => "CRX"
  | cry => "CRY"
  | crz => "CRZ"

def ofName? (name : String) : Option StandardGate := all.find? (·.name == name)

def paramCount : StandardGate → Nat
  | rx | ry | rz | phaseShift | crx | cry | crz => 1
  | rot => 3
  | _ => 0

def wireCount : StandardGate → Nat
  | cnot | cz | swap | crx | cry | crz => 2
  | _ => 1

def gradMethod (g : StandardGate) : GradMethod :=
  if g.paramCount = 0 then .none else .analytic

variable {α : Type} [Scalar α]

def generator : StandardGate → Option (Generator α)
  | rx | ry | rz => some ⟨[-0.5, 0.5], true⟩
  | phaseShift => some ⟨[0, 1], false⟩
  | crx | cry | crz => some ⟨[0, 0, -0.5, 0.5], false⟩
  | _ => none

def rule : StandardGate → Option (RuleSource α)
  | crx | cry | crz => some (.fixed .fourTerm)
  | _ => none

def matrix (g : StandardGate) (params : List α) : Array (Amplitude α) :=
  let p (i : Nat) : α := params.getD i 0
  match g with
  | identity => Gate.Matrix.identity
  | hadamard => Gate.Matrix.hadamard
  | pauliX => Gate.Matrix.pauliX
  | pauliY => Gate.Matrix.pauliY
  | pauliZ => Gate.Matrix.pauliZ
  | s => Gate.Matrix.s
  | t => Gate.Matrix.t
  | sx => Gate.Matrix.sx
  | rx => Gate.Matrix.rx (p 0)
  | ry => Gate.Matrix.ry (p 0)
  | rz => Gate.Matrix.rz (p 0)
  | phaseShift => Gate.Matrix.phaseShift (p 0)
  | rot => Gate.Matrix.rot (p 0) (p 1) (p 2)
  | cnot => Gate.Matrix.controlled Gate.Matrix.pauliX
  | cz => Gate.Matrix.controlled Gate.Matrix.pauliZ
  | swap => Gate.Matrix.swap
  | crx => Gate.Matrix.controlled (Gate.Matrix.rx (p 0))
  | cry => Gate.Matrix.controlled (Gate.Matrix.ry (p 0))
  | crz => Gate.Matrix.controlled (Gate.Matrix.rz (p 0))

/-- A call of a standard gate. -/
def call (g : StandardGate) (params : List (Jet α)) (wires : List Nat) : GateCall α :=
  ⟨.standard g, params, wires⟩

/-- A call with one constant parameter. -/
def fixedCall (g : StandardGate) (value : α) (wires : List Nat) : GateCall α :=
  g.call [.constant value] wires

/-- The gates that a standard gate stands for, up to a global phase. -/
def expansion (g : StandardGate) (params : List (Jet α)) (wires : List Nat) :
    List (GateCall α) :=
  let quarter : α := Scalar.pi / 2.0
  let first := wires.take 1
  let second := (wires.drop 1).take 1
  let pair := wires.take 2
  let p (i : Nat) := (params.drop i).take 1
  let half := (params.take 1).map (· * .constant 0.5)
  let minusHalf := half.map (-·)
  match g with
  | identity | rz => []
  | hadamard => [rz.fixedCall quarter first, rx.fixedCall quarter first, rz.fixedCall quarter first]
  | pauliX => [rx.fixedCall Scalar.pi first]
  | pauliY => [ry.fixedCall Scalar.pi first]
  | pauliZ => [phaseShift.fixedCall Scalar.pi first]
  | s => [phaseShift.fixedCall quarter first]
  | t => [phaseShift.fixedCall (Scalar.pi / 4.0) first]
  | sx => [rx.fixedCall quarter first]
  | rx => [hadamard.call [] first, rz.call (p 0) first, hadamard.call [] first]
  | ry => [rz.fixedCall (-quarter) first, rx.call (p 0) first, rz.fixedCall quarter first]
  | phaseShift => [rz.call (p 0) first]
  | rot => [rz.call (p 0) first, ry.call (p 1) first, rz.call (p 2) first]
  | cnot => [hadamard.call [] second, cz.call [] wires, hadamard.call [] second]
  | cz => [hadamard.call [] second, cnot.call [] wires, hadamard.call [] second]
  | swap => [cnot.call [] pair, cnot.call [] pair.reverse, cnot.call [] pair]
  | crx =>
    [rz.fixedCall quarter second, ry.call half second, cnot.call [] wires,
      ry.call minusHalf second, cnot.call [] wires, rz.fixedCall (-quarter) second]
  | cry =>
    [ry.call half second, cnot.call [] wires, ry.call minusHalf second, cnot.call [] wires]
  | crz =>
    [rz.call half second, cnot.call [] wires, rz.call minusHalf second, cnot.call [] wires]

/-- Gates in turn on the first wire, each with as many of the parameters as it
    takes. -/
def onFirstWire (gates : List StandardGate) : Decomposition α := fun params wires =>
  .ok (gates.map fun g => g.call (params.take g.paramCount) (wires.take 1))

/-- All standard gates but the identity and `RZ` have one decomposition. -/
def decompositions (g : StandardGate) : List (Decomposition α) :=
  match g with
  | identity | rz => []
  | _ => [fun params wires => .ok (g.expansion params wires)]

/-- The specification of a standard gate. -/
def spec (g : StandardGate) : GateSpec α :=
  { name := g.name
    paramCount := g.paramCount
    wireCount := g.wireCount
    generator := g.generator
    gradMethod := g.gradMethod
    rule := g.rule
    decompositions := g.decompositions
    matrix := some g.matrix }

end StandardGate

/-- Specifications of the gates that are not standard, by index. -/
structure GateTable (α : Type) where
  customs : Array (GateSpec α)

namespace GateTable

variable {α : Type} [Scalar α]

/-- The specification behind a reference to a gate.  A reference to none gives
    a gate without a name, which nothing can execute or differentiate. -/
def spec (table : GateTable α) : Gate → GateSpec α
  | .standard g => g.spec
  | .custom i => table.customs.getD i { name := "" }

/-- The gate of a name: the first custom one, or else the standard one. -/
def find? (table : GateTable α) (name : String) : Option (GateSpec α) :=
  (table.customs.find? (·.name == name)).or ((StandardGate.ofName? name).map (·.spec))

end GateTable

end CircuitGrad
