/-! # Kinds of transform arguments -/

namespace CircuitGrad

/-- Kind of an extra argument of a transform. -/
inductive ArgumentKind where
  | float
  | int
  | bool
  | wires
  | text
deriving DecidableEq, Repr

namespace ArgumentKind

def name : ArgumentKind → String
  | float => "float"
  | int => "int"
  | bool => "bool"
  | wires => "wires"
  | text => "text"

def ofName? (name : String) : Option ArgumentKind :=
  [float, int, bool, wires, text].find? (·.name == name)

end ArgumentKind

end CircuitGrad
