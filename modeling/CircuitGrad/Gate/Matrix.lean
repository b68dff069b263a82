import CircuitGrad.Amplitude

/-! # Matrices of the standard gates

    Row-major, the first wire most significant.  Rotations follow
    `exp (-iθP/2)`.
-/

namespace CircuitGrad.Gate.Matrix

variable {α : Type} [Scalar α]

/-- The two-by-two matrix with the given rows. -/
def square (a b c d : Amplitude α) : Array (Amplitude α) := #[a, b, c, d]

def diagonal (a d : Amplitude α) : Array (Amplitude α) := square a 0 0 d

def identity : Array (Amplitude α) := diagonal 1 1

def hadamard : Array (Amplitude α) :=
  let h : α := Scalar.rsqrtTwo
  square (.real h) (.real h) (.real h) (.real (-h))

def pauliX : Array (Amplitude α) := square 0 1 1 0

def pauliY : Array (Amplitude α) := square 0 ⟨0, -1⟩ ⟨0, 1⟩ 0

def pauliZ : Array (Amplitude α) := diagonal 1 (.real (-1))

def s : Array (Amplitude α) := diagonal 1 ⟨0, 1⟩

def t : Array (Amplitude α) := diagonal 1 (.polar 1 (Scalar.pi / 4.0))

def sx : Array (Amplitude α) := square ⟨0.5, 0.5⟩ ⟨0.5, -0.5⟩ ⟨0.5, -0.5⟩ ⟨0.5, 0.5⟩

def rx (θ : α) : Array (Amplitude α) :=
  let s := Scalar.sin (θ / 2.0)
  let c := Scalar.cos (θ / 2.0)
  square ⟨c, 0⟩ ⟨0, -s⟩ ⟨0, -s⟩ ⟨c, 0⟩

def ry (θ : α) : Array (Amplitude α) :=
  let s := Scalar.sin (θ / 2.0)
  let c := Scalar.cos (θ / 2.0)
  square ⟨c, 0⟩ ⟨-s, 0⟩ ⟨s, 0⟩ ⟨c, 0⟩

def rz (θ : α) : Array (Amplitude α) :=
  let s := Scalar.sin (θ / 2.0)
  let c := Scalar.cos (θ / 2.0)
  diagonal ⟨c, -s⟩ ⟨c, s⟩

def phaseShift (φ : α) : Array (Amplitude α) := diagonal 1 (.polar 1 φ)

/-- The rotation `RZ ω · RY θ · RZ φ`. -/
def rot (φ θ ω : α) : Array (Amplitude α) :=
  let s := Scalar.sin (θ / 2.0)
  let c := Scalar.cos (θ / 2.0)
  square (.polar c (-(φ + ω) / 2.0)) (-.polar s ((φ - ω) / 2.0))
    (.polar s (-(φ - ω) / 2.0)) (.polar c ((φ + ω) / 2.0))

/-- A one-wire matrix controlled by a first wire. -/
def controlled (u : Array (Amplitude α)) : Array (Amplitude α) :=
  #[1, 0, 0, 0,
    0, 1, 0, 0,
    0, 0, u.getD 0 0, u.getD 1 0,
    0, 0, u.getD 2 0, u.getD 3 0]

def swap : Array (Amplitude α) :=
  #[1, 0, 0, 0,
    0, 0, 1, 0,
    0, 1, 0, 0,
    0, 0, 0, 1]

end CircuitGrad.Gate.Matrix
