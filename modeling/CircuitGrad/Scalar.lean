import CircuitGrad.Decimal.Notation
import CircuitGrad.Representation

/-! # Scalars

    All numeric definitions of this library are written over a carrier with
    the operations of `Scalar`.  The carrier that runs is `Float`; statements
    about exact arithmetic take the same definitions at the real numbers.
    Only the four arithmetic operations, comparison and the elementary
    functions are assumed, so a definition fixes the order in which it
    combines numbers and nothing about how they are stored.
-/

namespace CircuitGrad

/-- A number system to compute in. -/
class Scalar (α : Type) extends Zero α, One α, Add α, Sub α, Mul α, Div α, Neg α,
    BEq α, NatCast α, IntCast α, OfScientific α, Representation α where
  /-- The circle constant. -/
  pi : α
  /-- One over the square root of two. -/
  rsqrtTwo : α
  /-- `(√2 + 1) / (4 √2)`, the larger weight of the four-term shift rule. -/
  fourTermMajor : α
  /-- `(√2 - 1) / (4 √2)`, the smaller weight of the four-term shift rule. -/
  fourTermMinor : α
  sin : α → α
  cos : α → α
  tan : α → α
  exp : α → α
  ln : α → α
  sqrt : α → α
  abs : α → α
  /-- The nearest integer, halves away from zero. -/
  round : α → α
  lt : α → α → Bool
  le : α → α → Bool
  isNaN : α → Bool
  isFinite : α → Bool
  /-- A total order that refines `le`; it also places what `le` cannot compare. -/
  totalLe : α → α → Bool
  /-- How the number is displayed. -/
  text : α → String

namespace Scalar

/-- Position of a float in the total order: what is not a number first, then
    negative floats by falling size, then positive ones by rising size. -/
def orderKey (x : Float) : Int :=
  let bits : Nat := x.toBits.toNat
  if x.isNaN then -(2 ^ (64 : Nat) : Nat)
  else if bits ≥ 2 ^ (63 : Nat) then -(bits - 2 ^ (63 : Nat) : Nat) - 1
  else bits

instance : Scalar Float where
  zero := 0.0
  one := 1.0
  natCast n := Float.ofNat n
  intCast n := Float.ofInt n
  pi := 3.141592653589793
  rsqrtTwo := 0.7071067811865476
  fourTermMajor := 0.4267766952966369
  fourTermMinor := 0.07322330470336313
  sin := Float.sin
  cos := Float.cos
  tan := Float.tan
  exp := Float.exp
  ln := Float.log
  sqrt := Float.sqrt
  abs := Float.abs
  round := Float.round
  lt x y := x < y
  le x y := x ≤ y
  isNaN := Float.isNaN
  isFinite := Float.isFinite
  totalLe x y := orderKey x ≤ orderKey y
  text := Decimal.Style.plain.text

variable {α : Type} [Scalar α]

/-- Sum of a list from left to right.  The sum of nothing is minus zero, the
    one number that leaves every summand as it is. -/
def sum (xs : List α) : α := xs.foldl (· + ·) (-0)

/-- Square and multiply: `acc · x ^ n` for positive `n`, low bits first. -/
def powerStep (x acc : α) (n : Nat) : α :=
  let acc := if n % 2 = 1 then acc * x else acc
  if h : n / 2 = 0 then acc else powerStep (x * x) acc (n / 2)
termination_by n
decreasing_by omega

/-- Integer power by repeated squaring; a negative exponent takes the
    reciprocal of the positive power. -/
def power (x : α) (n : Int) : α :=
  let size := powerStep x 1 n.natAbs
  if n < 0 then 1 / size else size

end Scalar

end CircuitGrad
