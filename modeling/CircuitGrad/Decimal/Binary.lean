import CircuitGrad.Natural

/-! # Finite binary numbers

    A finite 64-bit float is a natural number of units, each unit a power of
    two.  `Binary` keeps the value and the two ends of the interval of reals
    that round to it as fractions over one denominator, so that every question
    about its decimal digits is a comparison of natural numbers.
-/

namespace CircuitGrad.Decimal

/-- The size of a finite float: the value `value / unit`, and the reals
    between `low / unit` and `high / unit` that round to it. -/
structure Binary where
  value : Nat
  low   : Nat
  high  : Nat
  unit  : Nat
  /-- The two ends round to the value as well. -/
  closed : Bool

/-- Fractions `v`, `l`, `h` in units of `2 ^ q`, over one denominator. -/
def Binary.scaled (v l h : Nat) (q : Int) (closed : Bool) : Binary :=
  { value := v * 2 ^ q.toNat, low := l * 2 ^ q.toNat, high := h * 2 ^ q.toNat,
    unit := 2 ^ (-q).toNat, closed }

/-- The size of a finite float.  Values are counted in quarters of the last
    place; just above a power of two the gap below is half the gap above. -/
def Binary.ofFloat (x : Float) : Binary :=
  let bits := x.toBits.toNat
  let field := bits / 2 ^ (52 : Nat) % 2048
  let fraction := bits % 2 ^ (52 : Nat)
  let mantissa := if field = 0 then fraction else 2 ^ (52 : Nat) + fraction
  let place : Int := ((if field = 0 then 1 else field : Nat) : Int) - 1075
  let below := if fraction = 0 && field > 1 then 1 else 2
  scaled (4 * mantissa) (4 * mantissa - below) (4 * mantissa + 2) (place - 2)
    (mantissa % 2 == 0)

/-- The sign bit is set. -/
def isNegative (x : Float) : Bool := x.toBits.toNat ≥ 2 ^ (63 : Nat)

/-- `digits · 10 ^ exponent` -/
structure Digits where
  digits   : Nat
  exponent : Int

/-- The least `e` with `num / den < 10 ^ e`, for a positive fraction.  The
    binary sizes give an estimate that is at most two too small. -/
def leadingExponent (num den : Nat) : Int :=
  let estimate := ((num.log2 : Int) - den.log2) * 30103 / 100000 - 1
  let below (e : Int) : Bool := num * 10 ^ (-e).toNat < den * 10 ^ e.toNat
  let steps := (List.range 5).find? fun i : Nat => below (estimate + i)
  estimate + steps.getD 5

end CircuitGrad.Decimal
