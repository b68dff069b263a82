import CircuitGrad.Scalar

/-! # Jets

    A jet is a number that remembers how it was computed from the entries of
    the call arguments: its value, its slope in every entry and, when asked
    for, its curvature in every pair of entries.  Arithmetic and the
    elementary functions carry the derivatives along by the product and chain
    rules.

    A jet without derivatives is a constant.  A jet with derivatives is
    trainable, even where all of them happen to vanish.
-/

namespace CircuitGrad

/-- Nonzero second derivatives by index pair `i ≤ j`, pairs in rising order. -/
abbrev Curvature (α : Type) := List ((Nat × Nat) × α)

namespace Curvature

variable {α : Type} [Scalar α]

/-- Lexicographic order of index pairs. -/
def pairLt (p q : Nat × Nat) : Bool := p.1 < q.1 || (p.1 == q.1 && p.2 < q.2)

/-- Add to the entry of a pair; a pair not yet present starts at zero. -/
def addAt (key : Nat × Nat) (v : α) : Curvature α → Curvature α
  | [] => [(key, 0 + v)]
  | (k, x) :: rest =>
    if k == key then (k, x + v) :: rest
    else if pairLt key k then (key, 0 + v) :: (k, x) :: rest
    else (k, x) :: addAt key v rest

/-- Add `v` to the second derivative in `i` and `j`; zeros leave no trace. -/
def bump (c : Curvature α) (i j : Nat) (v : α) : Curvature α :=
  if v == 0 then c else addAt (min i j, max i j) v c

/-- The second derivative in `i` and `j`, zero when absent. -/
def entry (c : Curvature α) (i j : Nat) : α := (c.lookup (min i j, max i j)).getD 0

/-- Multiply every entry from the left. -/
def scaleLeft (x : α) (c : Curvature α) : Curvature α := c.map fun (k, v) => (k, x * v)

/-- Multiply every entry from the right. -/
def scaleRight (c : Curvature α) (x : α) : Curvature α := c.map fun (k, v) => (k, v * x)

/-- Bump by every entry of `d`, transformed by `f`. -/
def bumpAll (c d : Curvature α) (f : α → α) : Curvature α :=
  d.foldl (fun acc ((i, j), v) => acc.bump i j (f v)) c

end Curvature

/-- Derivatives of a jet in the seeded inputs. -/
structure Derivatives (α : Type) where
  /-- First derivatives, one per input. -/
  gradient  : List α
  /-- Second derivatives, absent when they are not tracked. -/
  curvature : Option (Curvature α)
  /-- The value is an affine function of the inputs. -/
  affine    : Bool
deriving BEq

/-- A number with its derivatives in the seeded inputs. -/
structure Jet (α : Type) where
  value : α
  derivatives : Option (Derivatives α)
deriving BEq

namespace Derivatives

variable {α : Type} [Scalar α]

/-- The gradient, continued with zeros to `n` inputs. -/
def gradientTo (d : Derivatives α) (n : Nat) : List α :=
  d.gradient ++ List.replicate (n - d.gradient.length) 0

/-- The inputs with a nonzero slope, in order. -/
def nonzero (gradient : List α) : List (Nat × α) :=
  (gradient.zipIdx.map fun (g, i) => (i, g)).filter fun (_, g) => !(g == 0)

/-- Derivatives of the value times a constant. -/
def scaled (d : Derivatives α) (x : α) : Derivatives α :=
  { d with
    gradient := d.gradient.map (· * x)
    curvature := d.curvature.map (·.scaleRight x) }

/-- Derivatives of `f` of the value, given `f'` and `f''` at it. -/
def chain (d : Derivatives α) (f1 f2 : α) : Derivatives α :=
  { gradient := d.gradient.map (f1 * ·)
    curvature := d.curvature.map fun c =>
      let linear := c.scaleLeft f1
      if f2 == 0 then linear
      else
        let slopes := nonzero d.gradient
        slopes.foldl (fun acc (i, gi) =>
          (slopes.filter fun (j, _) => j ≥ i).foldl (fun acc (j, gj) =>
            acc.bump i j (f2 * gi * gj)) acc) linear
    affine := false }

/-- Derivatives of a sum. -/
def add (a b : Derivatives α) : Derivatives α :=
  let n := max a.gradient.length b.gradient.length
  { gradient := List.zipWith (· + ·) (a.gradientTo n) (b.gradientTo n)
    curvature := match a.curvature, b.curvature with
      | some ca, some cb => some (ca.bumpAll cb id)
      | _, _ => none
    affine := a.affine && b.affine }

/-- Derivatives of the product of values `x` and `y`.  The mixed term of the
    gradients reaches the diagonal twice. -/
def mul (x y : α) (a b : Derivatives α) : Derivatives α :=
  let n := max a.gradient.length b.gradient.length
  let ga := a.gradientTo n
  let gb := b.gradientTo n
  { gradient := List.zipWith (fun p q => x * q + y * p) ga gb
    curvature := match a.curvature, b.curvature with
      | some ca, some cb =>
        let outer := (Curvature.bumpAll [] cb (x * ·)).bumpAll ca (y * ·)
        some <| (nonzero ga).foldl (fun acc (p, u) =>
          (nonzero gb).foldl (fun acc (q, v) =>
            acc.bump p q (if p == q then 2.0 * u * v else u * v)) acc) outer
      | _, _ => none
    affine := false }

end Derivatives

namespace Jet

variable {α : Type} [Scalar α]

/-- Not differentiable. -/
def constant (x : α) : Jet α := ⟨x, none⟩

/-- Input number `index` out of `inputs`, with or without second derivatives. -/
def seed (x : α) (index inputs : Nat) (secondOrder : Bool) : Jet α :=
  { value := x
    derivatives := some
      { gradient := (List.range inputs).map fun i => if i == index then 1 else 0
        curvature := if secondOrder then some [] else none
        affine := true } }

/-- A seed whose index must be one of the inputs. -/
def seed? (x : α) (index inputs : Nat) (secondOrder : Bool) : Option (Jet α) :=
  if index < inputs then some (seed x index inputs secondOrder) else none

/-- Differentiable, but computed from no input. -/
def trainable (x : α) : Jet α := ⟨x, some ⟨[], some [], true⟩⟩

def isConstant (x : Jet α) : Bool := x.derivatives.isNone

def isTrainable (x : Jet α) : Bool := x.derivatives.isSome

/-- The value is an affine function of the inputs; constants are. -/
def isAffine (x : Jet α) : Bool := x.derivatives.all (·.affine)

/-- Number of inputs that the derivatives span. -/
def inputs (x : Jet α) : Nat := x.derivatives.elim 0 (·.gradient.length)

def gradient? (x : Jet α) : Option (List α) := x.derivatives.map (·.gradient)

/-- Second derivatives are known; those of a constant are. -/
def hasSecondOrder (x : Jet α) : Bool := x.derivatives.all (·.curvature.isSome)

/-- Number of stored second derivatives. -/
def secondOrderCount (x : Jet α) : Nat :=
  ((x.derivatives.bind (·.curvature)).getD []).length

/-- Derivative in one input, zero when there is none. -/
def slope (x : Jet α) (i : Nat) : α := (x.gradient?.getD []).getD i 0

/-- Second derivative in two inputs, zero when it is absent or not tracked. -/
def bend (x : Jet α) (i j : Nat) : α :=
  Curvature.entry ((x.derivatives.bind (·.curvature)).getD []) i j

/-- The nonzero second derivatives, each pair of inputs once and in rising
    order. -/
def bends (x : Jet α) : List (Nat × Nat × α) :=
  (List.range x.inputs).flatMap fun i =>
    (List.range (x.inputs - i)).filterMap fun k =>
      let b := x.bend i (i + k)
      if b == 0 then none else some (i, i + k, b)

/-- Same derivatives, different value. -/
def withValue (x : Jet α) (value : α) : Jet α := { x with value }

/-- Without its derivatives. -/
def frozen (x : Jet α) : Jet α := constant x.value

/-- `f` of a jet, given `f`, `f'` and `f''` at its value. -/
def chain (x : Jet α) (f0 f1 f2 : α) : Jet α :=
  ⟨f0, x.derivatives.map (·.chain f1 f2)⟩

def sin (x : Jet α) : Jet α :=
  let s := Scalar.sin x.value
  x.chain s (Scalar.cos x.value) (-s)

def cos (x : Jet α) : Jet α :=
  let c := Scalar.cos x.value
  x.chain c (-Scalar.sin x.value) (-c)

def tan (x : Jet α) : Jet α :=
  let t := Scalar.tan x.value
  let secSq := 1 + t * t
  x.chain t secSq (2.0 * t * secSq)

def exp (x : Jet α) : Jet α :=
  let e := Scalar.exp x.value
  x.chain e e e

def ln (x : Jet α) : Jet α :=
  let v := x.value
  x.chain (Scalar.ln v) (1 / v) (-1 / (v * v))

def sqrt (x : Jet α) : Jet α :=
  let s := Scalar.sqrt x.value
  x.chain s (0.5 / s) (-0.25 / (s * s * s))

def recip (x : Jet α) : Jet α :=
  let v := x.value
  x.chain (1 / v) (-1 / (v * v)) (2.0 / (v * v * v))

/-- The exponent as a signed 32-bit word. -/
def exponentWord (n : Int) : Int := n.bmod (2 ^ (32 : Nat))

/-- Integer power; the powers zero and one are not computed. -/
def power (x : Jet α) (n : Int) : Jet α :=
  if n = 0 then constant 1
  else if n = 1 then x
  else
    let v := x.value
    let c : α := IntCast.intCast n
    x.chain (Scalar.power v n) (c * Scalar.power v (exponentWord (n - 1)))
      (c * (c - 1) * Scalar.power v (exponentWord (n - 2)))

/-- Product with a constant. -/
def scale (x : Jet α) (factor : α) : Jet α :=
  ⟨x.value * factor, x.derivatives.map (·.scaled factor)⟩

def add (x y : Jet α) : Jet α :=
  { value := x.value + y.value
    derivatives := match x.derivatives, y.derivatives with
      | none, d => d
      | d, none => d
      | some a, some b => some (a.add b) }

def mul (x y : Jet α) : Jet α :=
  match x.derivatives, y.derivatives with
  | none, none => constant (x.value * y.value)
  | some _, none => x.scale y.value
  | none, some _ => y.scale x.value
  | some a, some b => ⟨x.value * y.value, some (Derivatives.mul x.value y.value a b)⟩

/-- A quotient by a constant multiplies by the reciprocal of its value. -/
def div (x y : Jet α) : Jet α :=
  if y.isConstant then x.scale (1 / y.value) else x.mul y.recip

instance : Add (Jet α) := ⟨add⟩

instance : Neg (Jet α) := ⟨fun x => x.scale (-1)⟩

instance : Sub (Jet α) := ⟨fun x y => x.add (y.scale (-1))⟩

instance : Mul (Jet α) := ⟨mul⟩

instance : Div (Jet α) := ⟨div⟩

/-- Displayed value, starred when trainable. -/
def text (x : Jet α) : String :=
  Scalar.text x.value ++ (if x.isTrainable then "*" else "")

end Jet

end CircuitGrad
