import CircuitGrad.Scalar

/-! # Complex numbers

    Amplitudes of states and entries of gate matrices.
-/

namespace CircuitGrad

/-- A complex number by its real and imaginary parts. -/
structure Amplitude (α : Type) where
  re : α
  im : α

namespace Amplitude

variable {α : Type} [Scalar α]

instance : Zero (Amplitude α) := ⟨⟨0, 0⟩⟩

instance : One (Amplitude α) := ⟨⟨1, 0⟩⟩

instance : Add (Amplitude α) := ⟨fun a b => ⟨a.re + b.re, a.im + b.im⟩⟩

instance : Neg (Amplitude α) := ⟨fun a => ⟨-a.re, -a.im⟩⟩

instance : Mul (Amplitude α) :=
  ⟨fun a b => ⟨a.re * b.re - a.im * b.im, a.re * b.im + a.im * b.re⟩⟩

/-- A real number. -/
def real (x : α) : Amplitude α := ⟨x, 0⟩

/-- The number of the given size and angle. -/
def polar (size angle : α) : Amplitude α :=
  ⟨size * Scalar.cos angle, size * Scalar.sin angle⟩

def conj (a : Amplitude α) : Amplitude α := ⟨a.re, -a.im⟩

/-- Squared size. -/
def normSq (a : Amplitude α) : α := a.re * a.re + a.im * a.im

/-- Product with a real number on the right. -/
def scale (a : Amplitude α) (x : α) : Amplitude α := ⟨a.re * x, a.im * x⟩

/-- Sum from left to right, starting at zero. -/
def sum (xs : List (Amplitude α)) : Amplitude α := xs.foldl (· + ·) 0

end Amplitude

end CircuitGrad
