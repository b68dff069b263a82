import CircuitGrad.Jet

/-! # Expressions

    Arithmetic on jets as data: the functions that preprocess call arguments
    into gate parameters, by name, and the expressions built from them.
-/

namespace CircuitGrad

/-- Functions of one jet. -/
inductive UnaryFunction where
  | sin
  | cos
  | tan
  | exp
  | ln
  | sqrt
  | recip
  | neg
  /-- Forget the derivatives. -/
  | frozen
deriving DecidableEq, Repr

namespace UnaryFunction

def name : UnaryFunction → String
  | sin => "sin"
  | cos => "cos"
  | tan => "tan"
  | exp => "exp"
  | ln => "ln"
  | sqrt => "sqrt"
  | recip => "recip"
  | neg => "neg"
  | frozen => "frozen"

def ofName? (name : String) : Option UnaryFunction :=
  [sin, cos, tan, exp, ln, sqrt, recip, neg, frozen].find? (·.name == name)

def apply {α : Type} [Scalar α] : UnaryFunction → Jet α → Jet α
  | sin, x => x.sin
  | cos, x => x.cos
  | tan, x => x.tan
  | exp, x => x.exp
  | ln, x => x.ln
  | sqrt, x => x.sqrt
  | recip, x => x.recip
  | neg, x => -x
  | frozen, x => x.frozen

end UnaryFunction

/-- Functions of two jets. -/
inductive BinaryFunction where
  | add
  | sub
  | mul
  | div
deriving DecidableEq, Repr

namespace BinaryFunction

def name : BinaryFunction → String
  | add => "add"
  | sub => "sub"
  | mul => "mul"
  | div => "div"

def ofName? (name : String) : Option BinaryFunction :=
  [add, sub, mul, div].find? (·.name == name)

def apply {α : Type} [Scalar α] : BinaryFunction → Jet α → Jet α → Jet α
  | add, x, y => x + y
  | sub, x, y => x - y
  | mul, x, y => x * y
  | div, x, y => x / y

end BinaryFunction

/-- An expression over leaves of type `ι`. -/
inductive Expression (ι : Type) where
  | leaf (x : ι)
  | unary (f : UnaryFunction) (x : Expression ι)
  | power (x : Expression ι) (n : Int)
  | binary (f : BinaryFunction) (x y : Expression ι)
deriving Inhabited, Repr

namespace Expression

/-- The value of an expression, its leaves evaluated from left to right. -/
def eval {ι α : Type} [Scalar α] {m : Type → Type} [Monad m] (leaf : ι → m (Jet α)) :
    Expression ι → m (Jet α)
  | .leaf x => leaf x
  | .unary f x => do return f.apply (← eval leaf x)
  | .power x n => do return (← eval leaf x).power n
  | .binary f x y => do
    let a ← eval leaf x
    return f.apply a (← eval leaf y)

end Expression

end CircuitGrad
