import CircuitGrad.Decimal.Binary

/-! # Shortest digits

    Among the decimals that read back as a given float, the one with the
    fewest digits, and among those the nearest; of two equally near ones the
    larger.
-/

namespace CircuitGrad.Decimal

/-- Drop the trailing zeros of a number into its exponent, at most `fuel`. -/
def Digits.trim (d : Digits) : Nat → Digits
  | 0 => d
  | fuel + 1 =>
    if d.digits % 10 = 0 && d.digits ≠ 0 then
      Digits.trim ⟨d.digits / 10, d.exponent + 1⟩ fuel
    else d

/-- The multiple of `10 ^ e` nearest to the value among those that read back. -/
def Binary.nearestOn (x : Binary) (e : Int) : Option Digits :=
  let step := x.unit * 10 ^ e.toNat
  let scale := 10 ^ (-e).toNat
  let value := x.value * scale
  let below := value / step
  let readsBack (n : Nat) : Bool :=
    if x.closed then x.low * scale ≤ n * step && n * step ≤ x.high * scale
    else x.low * scale < n * step && n * step < x.high * scale
  let nearerBelow := 2 * (value - below * step) < step
  match readsBack below, readsBack (below + 1) with
  | true, true => some ⟨if nearerBelow then below else below + 1, e⟩
  | true, false => some ⟨below, e⟩
  | false, true => some ⟨below + 1, e⟩
  | false, false => none

/-- The shortest digits of a positive value: grids from the coarsest that has
    its leading digit, each ten times finer than the last.  Seventeen digits
    always suffice. -/
def Binary.shortest (x : Binary) : Digits :=
  let lead := leadingExponent x.value x.unit
  let found := (List.range 18).findSome? fun i : Nat => x.nearestOn (lead - i)
  (found.getD ⟨x.value / x.unit, 0⟩).trim 400

end CircuitGrad.Decimal
