import Mathlib
import CircuitGrad.Expression
import CircuitGrad.Proofs.RealScalar

/-! # What expressions denote

    An expression in `n` inputs stands for a real function of them, and it has
    a jet at every point.  Its parts are differentiable at a point under
    conditions that can be read off the expression (`DefinedAt`).
-/

namespace CircuitGrad

/-! ## Expressions in several inputs -/

/-- What stands at the leaves of an expression in `n` inputs. -/
inductive Leaf (n : ℕ) where
  | constant (x : ℝ)
  /-- One of the inputs, seeded with or without second derivatives. -/
  | input (i : Fin n) (secondOrder : Bool)
  /-- Trainable, but computed from no input. -/
  | trainable (x : ℝ)

namespace Leaf

variable {n : ℕ}

/-- The jet of a leaf where the inputs are `p`. -/
noncomputable def jet (p : Fin n → ℝ) : Leaf n → Jet ℝ
  | constant x => .constant x
  | input i secondOrder => .seed (p i) i n secondOrder
  | trainable x => .trainable x

/-- The number at a leaf where the inputs are `p`. -/
def denote (p : Fin n → ℝ) : Leaf n → ℝ
  | constant x => x
  | input i _ => p i
  | trainable x => x

/-- The same leaf with its seed of another order. -/
def reseed (secondOrder : Bool) : Leaf n → Leaf n
  | input i _ => .input i secondOrder
  | l => l

end Leaf

namespace UnaryFunction

/-- The real function that a name stands for. -/
noncomputable def denote : UnaryFunction → ℝ → ℝ
  | sin => Real.sin
  | cos => Real.cos
  | tan => Real.tan
  | exp => Real.exp
  | ln => Real.log
  | sqrt => Real.sqrt
  | recip => fun v => v⁻¹
  | neg => fun v => -v
  | frozen => id

/-- The function is defined and differentiable at `v`. -/
def Smooth (v : ℝ) : UnaryFunction → Prop
  | tan => Real.cos v ≠ 0
  | ln | sqrt => 0 < v
  | recip => v ≠ 0
  | _ => True

end UnaryFunction

/-- The real operation that a name stands for. -/
noncomputable def BinaryFunction.denote : BinaryFunction → ℝ → ℝ → ℝ
  | add => fun v w => v + w
  | sub => fun v w => v - w
  | mul => fun v w => v * w
  | div => fun v w => v / w

namespace Expression

variable {n : ℕ}

/-- The jet of an expression where the inputs are `p`. -/
noncomputable def jet (p : Fin n → ℝ) (e : Expression (Leaf n)) : Jet ℝ :=
  (e.eval (m := Id) fun l => pure (l.jet p)).run

/-- The real function of the inputs that an expression stands for. -/
noncomputable def denote : Expression (Leaf n) → (Fin n → ℝ) → ℝ
  | .leaf l, p => l.denote p
  | .unary f x, p => f.denote (x.denote p)
  | .power x k, p => x.denote p ^ k
  | .binary f x y, p => f.denote (x.denote p) (y.denote p)

/-- No part forgets its derivatives, and every exponent less two is a signed
    32-bit word. -/
def Admissible : Expression (Leaf n) → Prop
  | .leaf _ => True
  | .unary f x => f ≠ .frozen ∧ x.Admissible
  | .power x k => -2 ^ 31 + 2 ≤ k ∧ k < 2 ^ 31 ∧ x.Admissible
  | .binary _ x y => x.Admissible ∧ y.Admissible

/-- All parts are defined and differentiable where the inputs are `p`. -/
def DefinedAt (p : Fin n → ℝ) : Expression (Leaf n) → Prop
  | .leaf _ => True
  | .unary f x => x.DefinedAt p ∧ f.Smooth (x.denote p)
  | .power x k => x.DefinedAt p ∧ (k < 0 → x.denote p ≠ 0)
  | .binary f x y => x.DefinedAt p ∧ y.DefinedAt p ∧ (f = .div → y.denote p ≠ 0)

/-- The same expression with all seeds of one order. -/
def reseed (secondOrder : Bool) : Expression (Leaf n) → Expression (Leaf n)
  | .leaf l => .leaf (l.reseed secondOrder)
  | .unary f x => .unary f (x.reseed secondOrder)
  | .power x k => .power (x.reseed secondOrder) k
  | .binary f x y => .binary f (x.reseed secondOrder) (y.reseed secondOrder)

end Expression

end CircuitGrad
