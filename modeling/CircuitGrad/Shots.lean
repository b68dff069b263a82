import CircuitGrad.Count

/-! # Shots

    How measurement statistics are obtained: exactly, from one batch of
    samples, or from several batches.  Nothing bounds the numbers of a shot
    vector, so what is counted over its batches may overflow.
-/

namespace CircuitGrad

/-- `repetitions` consecutive batches of `shots` shots each. -/
structure ShotBatch where
  shots       : Nat
  repetitions : Nat
deriving DecidableEq, Repr

/-- How measurement statistics are obtained. -/
inductive Shots where
  /-- Exact evaluation. -/
  | analytic
  /-- One batch of the given size. -/
  | finite (shots : Nat)
  /-- Several batches; results gain a leading dimension. -/
  | vector (batches : List ShotBatch)
deriving DecidableEq, Repr

namespace Shots

/-- A positive number of shots. -/
def ofCount (shots : Nat) : Except Error Shots :=
  if shots = 0 then ArgumentFault.zeroShots.error else .ok (finite shots)

/-- A shot vector; every batch has shots and repetitions. -/
def ofPairs (pairs : List (Nat × Nat)) : Except Error Shots :=
  match pairs, pairs.find? fun (shots, repetitions) => shots == 0 || repetitions == 0 with
  | [], _ => ArgumentFault.emptyShotVector.error
  | _, some (shots, repetitions) => (ArgumentFault.shotBatch shots repetitions).error
  | _, none => .ok (vector (pairs.map fun (shots, repetitions) => ⟨shots, repetitions⟩))

/-- Zero shots and no shots both mean exact evaluation. -/
def ofOption : Option Nat → Shots
  | none | some 0 => analytic
  | some shots => finite shots

def isAnalytic : Shots → Bool
  | analytic => true
  | _ => false

/-- Number of shots over all batches; none when analytic. -/
def total : Shots → Except Error (Option Nat)
  | analytic => .ok none
  | finite n => .ok (some n)
  | vector batches => some <$> Count.sum (fun b => Count.mul b.shots b.repetitions) batches

/-- Shots of each batch, repetitions expanded.  Exact evaluation is one batch
    without a number of shots. -/
def batches : Shots → List (Option Nat)
  | analytic => [none]
  | finite n => [some n]
  | vector batches => batches.flatMap fun b => List.replicate b.repetitions (some b.shots)

/-- Number of batches, repetitions expanded. -/
def batchCount : Shots → Nat
  | vector batches => (batches.map (·.repetitions)).sum
  | _ => 1

/-- Number of batches as it is counted, in a word. -/
def batchCountWord : Shots → Except Error Nat
  | vector batches => Count.sum (fun b => Count.word b.repetitions) batches
  | _ => .ok 1

/-- The batches as a list in memory, of 16 bytes each. -/
def batchList (s : Shots) : Except Error (List (Option Nat)) := do
  Count.room s.batchCount 16
  return s.batches

/-- Results carry a leading batch dimension. -/
def isPartitioned (s : Shots) : Except Error Bool := do
  return (← s.batchCountWord) > 1

def text : Shots → String
  | analytic => "analytic"
  | finite n => s!"{n} shots"
  | vector batches =>
    "[" ++ ", ".intercalate (batches.map fun b => s!"{b.shots}x{b.repetitions}") ++ "]"

end Shots

end CircuitGrad
