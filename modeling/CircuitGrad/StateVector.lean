import CircuitGrad.Observable
import CircuitGrad.Operation

/-! # State vectors

    The state of a register as one amplitude per basis state.  Wire `w` of an
    `n`-wire register is bit `n - 1 - w` of a basis index, so that the first
    wire is the most significant, as it is in the rows of gate matrices.

    A matrix is applied in place, one block of basis indices after the other.
    Everything else is written by what it puts at each basis index.
-/

namespace CircuitGrad

/-- One amplitude for each basis state of a register. -/
structure StateVector (α : Type) where
  wires      : Nat
  amplitudes : Array (Amplitude α)
  size_eq    : amplitudes.size = 2 ^ wires

/-! ### Basis indices -/

namespace Basis

/-- The basis state of a wire in a basis index of an `n`-wire register. -/
def bit (n index wire : Nat) : Bool := index.testBit (n - 1 - wire)

/-- The basis index in which only the given wire is one. -/
def unit (n wire : Nat) : Nat := 1 <<< (n - 1 - wire)

/-- The number that a basis index spells on some wires, the first wire most
    significant. -/
def restrict (n : Nat) (wires : List Nat) (index : Nat) : Nat :=
  wires.foldl (fun acc w => 2 * acc + (bit n index w).toNat) 0

/-- The basis index that spells `sub` on some wires and is zero elsewhere. -/
def spread (n : Nat) : List Nat → Nat → Nat
  | [], _ => 0
  | w :: rest, sub => (if sub.testBit rest.length then unit n w else 0) ||| spread n rest sub

end Basis

namespace StateVector

/-- The largest register that is simulated. -/
def maxWires : Nat := 30

variable {α : Type} [Scalar α]

/-- The amplitude of a basis state. -/
def amplitude (s : StateVector α) (index : Nat) : Amplitude α := s.amplitudes.getD index 0

/-- The state with the given amplitudes by basis index. -/
def ofFn (wires : Nat) (f : Nat → Amplitude α) : StateVector α :=
  ⟨wires, Array.ofFn (n := 2 ^ wires) fun i => f i, Array.size_ofFn⟩

theorem amplitude_ofFn {wires : Nat} {f : Nat → Amplitude α} {i : Nat} (h : i < 2 ^ wires) :
    (ofFn wires f).amplitude i = f i := by
  simp [amplitude, ofFn, h]

/-- The state with the amplitude of one basis state replaced. -/
def set (s : StateVector α) (index : Nat) (a : Amplitude α) : StateVector α :=
  { s with
    amplitudes := s.amplitudes.setIfInBounds index a
    size_eq := Array.size_setIfInBounds.trans s.size_eq }

omit [Scalar α] in
@[simp] theorem wires_set (s : StateVector α) (index : Nat) (a : Amplitude α) :
    (s.set index a).wires = s.wires := rfl

theorem amplitude_set {s : StateVector α} {i : Nat} (hi : i < 2 ^ s.wires) (a : Amplitude α)
    (j : Nat) : (s.set i a).amplitude j = if i = j then a else s.amplitude j := by
  have hsize : i < s.amplitudes.size := Nat.lt_of_lt_of_eq hi s.size_eq.symm
  unfold amplitude set
  rw [Array.getD_eq_getD_getElem?, Array.getD_eq_getD_getElem?, Array.getElem?_setIfInBounds]
  by_cases h : i = j
  · subst h
    simp [hsize]
  · simp [h]

/-- The first basis state of a register. -/
def zero (wires : Nat) : Except SimulatorError (StateVector α) :=
  if wires = 0 || wires > maxWires then .error (.invalidDimension wires)
  else .ok (ofFn wires fun i => if i = 0 then 1 else 0)

/-- Fails unless the register has the wires. -/
def checkWires (s : StateVector α) (wires : List Nat) : Except SimulatorError Unit :=
  match wires.find? (· ≥ s.wires) with
  | some w => .error (.invalidWire w s.wires)
  | none => .ok ()

/-! ### Operations -/

/-- Multiply one block of amplitudes, those at `base` with each of some offsets
    added, by a row-major matrix.  All old amplitudes of the block are read
    before the first is replaced. -/
def applyBlock (matrix : Array (Amplitude α)) (offsets : List Nat) (s : StateVector α)
    (base : Nat) : StateVector α :=
  let old := offsets.map fun offset => s.amplitude (base ||| offset)
  offsets.zipIdx.foldl (fun acc (offset, row) =>
    acc.set (base ||| offset) <| .sum <| old.zipIdx.map fun (a, column) =>
      matrix.getD (row * offsets.length + column) 0 * a) s

omit [Scalar α] in
theorem wires_foldl {β : Type} {step : StateVector α → β → StateVector α}
    (hstep : ∀ s b, (step s b).wires = s.wires) (items : List β) (s : StateVector α) :
    (items.foldl step s).wires = s.wires := by
  induction items generalizing s with
  | nil => rfl
  | cons b items ih => rw [List.foldl_cons, ih, hstep]

@[simp] theorem wires_applyBlock (matrix : Array (Amplitude α)) (offsets : List Nat)
    (s : StateVector α) (base : Nat) : (s.applyBlock matrix offsets base).wires = s.wires := by
  unfold applyBlock
  refine wires_foldl ?_ _ s
  rintro acc ⟨offset, row⟩
  rfl

/-- Go through the basis indices before a bound, and multiply the block of each
    that has no ones in common with the offsets. -/
def applyBlocks (matrix : Array (Amplitude α)) (offsets : List Nat) (s : StateVector α)
    (bound : Nat) : StateVector α :=
  let mask := offsets.foldl (· ||| ·) 0
  (List.range bound).foldl (fun acc base =>
    if base &&& mask = 0 then acc.applyBlock matrix offsets base else acc) s

@[simp] theorem wires_applyBlocks (matrix : Array (Amplitude α)) (offsets : List Nat)
    (s : StateVector α) (bound : Nat) : (s.applyBlocks matrix offsets bound).wires = s.wires := by
  unfold applyBlocks
  refine wires_foldl (fun acc base => ?_) _ s
  split
  · exact wires_applyBlock ..
  · rfl

/-- Apply a row-major matrix to some wires, in place.  Basis indices that
    differ on those wires only form a block; it is multiplied when its index
    without ones on the wires is reached. -/
def applyMatrix (s : StateVector α) (matrix : Array (Amplitude α)) (wires : List Nat) :
    Except SimulatorError (StateVector α) := do
  s.checkWires wires
  let dim := 2 ^ wires.length
  if matrix.size ≠ dim * dim then .error (.dimensionMismatch (dim * dim) matrix.size)
  else
    let offsets := (List.range dim).map (Basis.spread s.wires wires)
    return s.applyBlocks matrix offsets (2 ^ s.wires)

/-- Apply an operation by its matrix. -/
def applyOperation (s : StateVector α) (op : Operation α) :
    Except SimulatorError (StateVector α) :=
  match op.matrix? with
  | none => .error (.missingMatrix op.name)
  | some matrix => s.applyMatrix matrix op.wires

/-- Apply operations in order. -/
def applyAll (s : StateVector α) (ops : List (Operation α)) :
    Except SimulatorError (StateVector α) :=
  ops.foldlM applyOperation s

/-! ### Probabilities -/

/-- Probability of each basis state. -/
def probabilities (s : StateVector α) : Array α := s.amplitudes.map (·.normSq)

/-- Probability of each basis state of some wires, the first wire most
    significant.  Each collects the indices that spell it, in rising order. -/
def marginal (s : StateVector α) (wires : List Nat) : Except SimulatorError (Array α) := do
  s.checkWires wires
  return (List.range (2 ^ s.wires)).foldl (fun acc i =>
    acc.modify (Basis.restrict s.wires wires i) (· + (s.amplitude i).normSq))
    (Array.replicate (2 ^ wires.length) 0)

/-! ### Observables -/

/-- The factor that one Pauli operator brings to a basis state. -/
def pauliPhase (n index : Nat) (phase : Amplitude α) (f : PauliFactor) : Amplitude α :=
  match f.2, Basis.bit n index f.1 with
  | .Y, true => phase * ⟨0, -1⟩
  | .Y, false => phase * ⟨0, 1⟩
  | .Z, true => -phase
  | _, _ => phase

/-- The bits that a word flips. -/
def flips (n : Nat) (word : PauliWord) : Nat :=
  word.factors.foldl (fun acc (w, p) =>
    match p with
    | .X | .Y => acc ||| Basis.unit n w
    | _ => acc) 0

/-- Apply a Pauli word. -/
def applyWord (s : StateVector α) (word : PauliWord) :
    Except SimulatorError (StateVector α) := do
  s.checkWires word.wires
  let flip := flips s.wires word
  return ofFn s.wires fun j =>
    let i := j ^^^ flip
    word.factors.foldl (pauliPhase s.wires i) 1 * s.amplitude i

/-- Apply an observable: the words of its terms, weighted and added up in
    order. -/
def applyObservable (s : StateVector α) (o : Observable α) :
    Except SimulatorError (StateVector α) :=
  o.terms.foldlM (fun acc (c, word) => do
    let image ← s.applyWord word
    return ofFn s.wires fun i => acc.amplitude i + (image.amplitude i).scale c)
    (ofFn s.wires fun _ => 0)

/-- Inner product, conjugate in the first factor. -/
def inner (s t : StateVector α) : Amplitude α :=
  .sum <| (List.range (2 ^ s.wires)).map fun i => (s.amplitude i).conj * t.amplitude i

/-- Expectation value of a Pauli word. -/
def wordExpectation (s : StateVector α) (word : PauliWord) : Except SimulatorError α :=
  return (s.inner (← s.applyWord word)).re

/-- Expectation value. -/
def expectation (s : StateVector α) (o : Observable α) : Except SimulatorError α :=
  return (s.inner (← s.applyObservable o)).re

/-- Variance: the squared length of the image less the squared mean. -/
def variance (s : StateVector α) (o : Observable α) : Except SimulatorError α := do
  let image ← s.applyObservable o
  let mean := (s.inner image).re
  return Scalar.sum image.probabilities.toList - mean * mean

/-- Real and imaginary part of each amplitude. -/
def realPairs (s : StateVector α) : Array α := s.amplitudes.flatMap fun a => #[a.re, a.im]

end StateVector

end CircuitGrad
