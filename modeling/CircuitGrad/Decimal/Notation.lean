import CircuitGrad.Decimal.Shortest

/-! # Number notation

    How numbers are written.  `plain` is used in every displayed text,
    `detailed` in records of settings and tensor entries, `fixed` where a
    number of places is given.
-/

namespace CircuitGrad.Decimal

/-- The decisions of a notation for shortest digits. -/
structure Style where
  /-- Exponents of the leading digit written without an exponent mark, first
      included and second excluded; all of them when absent. -/
  positional : Option (Int × Int)
  /-- Integers are written with a point and a zero. -/
  pointZero  : Bool

/-- Never an exponent, and no point in integers. -/
def Style.plain : Style := ⟨none, false⟩

/-- A point in every number; an exponent from `10 ^ 16` and below `10 ^ -4`. -/
def Style.detailed : Style := ⟨some (-4, 16), true⟩

private def zeros (n : Nat) : String := String.ofList (List.replicate n '0')

/-- Put the point into a digit string: it stands after `point` digits. -/
def placePoint (digits : String) (point : Int) (pointZero : Bool) : String :=
  let size : Int := digits.length
  if point ≤ 0 then "0." ++ zeros (-point).toNat ++ digits
  else if point < size then
    String.ofList (digits.toList.take point.toNat) ++ "."
      ++ String.ofList (digits.toList.drop point.toNat)
  else digits ++ zeros (point - size).toNat ++ (if pointZero then ".0" else "")

/-- One digit, the others after a point, and the exponent of the first. -/
def withExponent (digits : String) (exponent : Int) : String :=
  let rest := digits.toList.drop 1
  String.ofList (digits.toList.take 1)
    ++ (if rest.isEmpty then "" else "." ++ String.ofList rest)
    ++ "e" ++ toString exponent

/-- Lay digits out in a style. -/
def Style.layout (style : Style) (d : Digits) : String :=
  let digits := toString d.digits
  let lead := d.exponent + digits.length - 1
  match style.positional with
  | none => placePoint digits (lead + 1) style.pointZero
  | some (first, last) =>
    if first ≤ lead && lead < last then placePoint digits (lead + 1) style.pointZero
    else withExponent digits lead

/-- The text of a float in a style. -/
def Style.text (style : Style) (x : Float) : String :=
  if x.isNaN then "NaN"
  else
    let sign := if isNegative x then "-" else ""
    if x.isInf then sign ++ "inf"
    else if x == 0 then sign ++ (if style.pointZero then "0.0" else "0")
    else sign ++ style.layout (Binary.ofFloat x).shortest

/-- `num / den` to the nearest integer, ties to the even one. -/
def roundHalfEven (num den : Nat) : Nat :=
  let quotient := num / den
  match compare (2 * (num % den)) den with
  | .lt => quotient
  | .gt => quotient + 1
  | .eq => quotient + quotient % 2

/-- A number with the given number of places after the point. -/
private def fixedSize (places : Nat) (x : Binary) : String :=
  let digits := toString (roundHalfEven (x.value * 10 ^ places) x.unit)
  let padded := zeros (places + 1 - digits.length) ++ digits
  placePoint padded (padded.length - places) false

/-- A positive number with one digit before the point, the given number of
    places after it, and an exponent. -/
private def scientificSize (places : Nat) (x : Binary) : String :=
  let lead := leadingExponent x.value x.unit - 1
  let shift := (places : Int) - lead
  let n := roundHalfEven (x.value * 10 ^ shift.toNat) (x.unit * 10 ^ (-shift).toNat)
  if n = 10 ^ (places + 1) then withExponent (toString (n / 10)) (lead + 1)
  else withExponent (toString n) lead

/-- A float with a fixed number of places; a result of zero has no sign. -/
def fixed (places : Nat) (x : Float) : String :=
  if x.isNaN || x.isInf then Style.plain.text x
  else
    let size := fixedSize places (Binary.ofFloat x)
    if isNegative x && size.any (fun c => c ≠ '0' && c ≠ '.') then "-" ++ size else size

/-- A float with nine places, and an exponent when it is a million or more. -/
def ninePlaces (x : Float) : String :=
  if x.isNaN || x.isInf || x.abs < 1e6 then fixed 9 x
  else (if isNegative x then "-" else "") ++ scientificSize 9 (Binary.ofFloat x)

end CircuitGrad.Decimal
