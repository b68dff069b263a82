import CircuitGrad.Scalar

/-! # Shift rules

    A shift rule expresses the derivative of a function as a weighted sum of
    its values at other points,

      `f'(x) = ∑ c · f (a · x + s)`

    over the terms `(c, a, s)` of the rule.
-/

namespace CircuitGrad

/-- One term of a shift rule. -/
structure ShiftTerm (α : Type) where
  coefficient : α
  multiplier  : α
  shift       : α

/-- Where the function is evaluated. -/
def ShiftTerm.point {α : Type} [Scalar α] (t : ShiftTerm α) (x : α) : α :=
  t.multiplier * x + t.shift

/-- Weights and points whose weighted values form a derivative. -/
structure ShiftRule (α : Type) where
  terms : List (ShiftTerm α)

namespace ShiftRule

variable {α : Type} [Scalar α]

/-- A weight at a shift and its negative at the opposite shift. -/
def antisymmetric (weight shift : α) : ShiftRule α :=
  ⟨[⟨weight, 1, shift⟩, ⟨-weight, 1, -shift⟩]⟩

/-- The rule of a generator whose two eigenvalues lie `2 r` apart:
    `f'(x) = r · (f (x + π / 4r) - f (x - π / 4r))`. -/
def twoTerm (r : α) : ShiftRule α := antisymmetric r (Scalar.pi / (4.0 * r))

/-- The two-term rule of the Pauli rotations. -/
def pauliRotation : ShiftRule α := antisymmetric 0.5 (Scalar.pi / 2.0)

/-- The symmetric difference quotient with step `h`. -/
def centralDifference (h : α) : ShiftRule α := antisymmetric (0.5 / h) h

/-- The rule of the controlled rotations, whose generator has the three
    eigenvalues `0` and `±1/2`. -/
def fourTerm : ShiftRule α :=
  let quarter := Scalar.pi / 2.0
  let major : α := Scalar.fourTermMajor
  let minor : α := Scalar.fourTermMinor
  ⟨[⟨major, 1, quarter⟩, ⟨-major, 1, -quarter⟩,
    ⟨-minor, 1, 3.0 * quarter⟩, ⟨minor, 1, -3.0 * quarter⟩]⟩

/-- The weighted sum of the values of a function. -/
def apply (rule : ShiftRule α) (x : α) (f : α → α) : α :=
  Scalar.sum (rule.terms.map fun t => t.coefficient * f (t.point x))

end ShiftRule

end CircuitGrad
