import CircuitGrad.Trace.Fingerprint

/-! # Samplers

    A sampler draws indices with probabilities proportional to given weights.
    All that the rest of the library relies on is which weights it refuses
    and that it draws one index in range per shot; where a sequence of draws
    starts depends on the trace that is sampled and on nothing else.
-/

namespace CircuitGrad

/-- Weights to draw by: there are some, none of them is negative, and they are
    not all zero. -/
def Drawable {α : Type} [Scalar α] (weights : List α) : Prop :=
  weights ≠ [] ∧ (∀ w ∈ weights, Scalar.le 0 w = true) ∧ ∃ w ∈ weights, (w == 0) = false

/-- A source of random indices with a state of its own. -/
structure Sampler (α ρ : Type) [Scalar α] where
  /-- The state in which the sampling of a trace starts. -/
  start    : Fingerprint α → ρ
  /-- What is wrong with a list of weights. -/
  refusal? : List α → Option SamplingFault
  /-- Draw one index. -/
  pick     : List α → ρ → Nat × ρ
  accepts  : ∀ weights, refusal? weights = none ↔ Drawable weights
  inRange  : ∀ weights state, weights ≠ [] → (pick weights state).1 < weights.length

namespace Sampler

/-! ### Drawing -/

section Drawing

variable {α ρ : Type} [Scalar α]

/-- Draw a number of indices in a row. -/
def picks (sampler : Sampler α ρ) (weights : List α) : Nat → StateM ρ (List Nat)
  | 0 => return []
  | n + 1 => do
    let i ← sampler.pick weights
    return i :: (← picks sampler weights n)

/-- Draw one index per shot. -/
def draw (sampler : Sampler α ρ) (weights : List α) (shots : Nat) :
    StateT ρ (Except SimulatorError) (List Nat) := fun state =>
  match sampler.refusal? weights with
  | some fault => .error (.sampling fault)
  | none => .ok ((sampler.picks weights shots).run state)

end Drawing

/-! ### A seeded sampler -/

section Seeded

variable {α : Type} [Scalar α]

/-- The first fault of a list of weights. -/
def weightFault? (weights : List α) : Option SamplingFault :=
  if weights.isEmpty then some .noWeights
  else if weights.any fun w => !Scalar.le 0 w then some .invalidWeight
  else if weights.all (· == 0) then some .allWeightsZero
  else none

theorem weightFault?_eq_none (weights : List α) :
    weightFault? weights = none ↔ Drawable weights := by
  unfold weightFault? Drawable
  split
  · simp_all
  · split
    · next hnegative =>
      obtain ⟨w, hw, hnegative⟩ := List.any_eq_true.mp hnegative
      exact iff_of_false nofun fun h => by simp [h.2.1 w hw] at hnegative
    · split <;> simp_all

/-- Where a point falls when weights are laid end to end from `start` on.  A
    weight of zero catches no point; a point beyond all weights is given to
    the last positive one. -/
def locate (point start : α) : List α → Nat
  | [] => 0
  | [_] => 0
  | w :: rest =>
    let stop := start + w
    if Scalar.lt point stop || rest.all (· == 0) then 0 else locate point stop rest + 1

theorem locate_lt (point start : α) (weights : List α) (h : weights ≠ []) :
    locate point start weights < weights.length := by
  fun_induction locate point start weights <;> simp_all

/-- Scramble a 64-bit word. -/
def scramble (z : UInt64) : UInt64 :=
  let z := (z ^^^ (z >>> 30)) * 0xbf58476d1ce4e5b9
  let z := (z ^^^ (z >>> 27)) * 0x94d049bb133111eb
  z ^^^ (z >>> 31)

/-- A word for a sequence of bytes. -/
def digest (bytes : List UInt8) : UInt64 :=
  bytes.foldl (fun acc b => (acc ^^^ b.toUInt64) * 0x100000001b3) 0xcbf29ce484222325

/-- The sampler of a seed: a counter, scrambled into a number below one. -/
def seeded (seed : Nat) : Sampler Float UInt64 where
  start key := .ofNat seed ^^^ digest key.codes
  refusal? := weightFault?
  pick weights state :=
    let state := state + 0x9e3779b97f4a7c15
    let unit := (scramble state >>> 11).toFloat / 9007199254740992.0
    (locate (unit * Scalar.sum weights) 0 weights, state)
  accepts := weightFault?_eq_none
  inRange weights _ h := locate_lt _ _ weights h

end Seeded

end Sampler

end CircuitGrad
