import CircuitGrad.Expansion
import CircuitGrad.Gradient.Expansion
import CircuitGrad.Trace.Basic

/-! # Frequency spectra

    A gate `exp (-i c x G)` lets the results of a circuit oscillate in `x`
    with the differences of two eigenvalues of `G`, times `c`.  Several gates
    that depend on the same input add their frequencies: every sum of one
    frequency from each is a frequency of the results.

    Frequencies are multiples of `1e-8`, in rising order and without
    repetition.
-/

namespace CircuitGrad

namespace Spectrum

variable {α : Type} [Scalar α]

/-- The nearest multiple of `1e-8`; zero has no sign. -/
def round (f : α) : α :=
  let r := Scalar.round (f * 1e8) / 1e8
  if r == 0 then 0 else r

/-- Frequencies in their normal form. -/
def normalize (frequencies : List α) : List α :=
  ((frequencies.map round).mergeSort Scalar.totalLe).eraseReps

/-- All sums of a frequency of each list. -/
def sums (frequencies others : List α) : List α :=
  normalize (frequencies.flatMap fun a => others.map fun b => a + b)

/-- Add the frequencies that one parameter contributes in an input. -/
def addParameter (op : Operation α) (input : Nat) (frequencies : List α) (x : Jet α) :
    Except Error (List α) :=
  let slope := x.slope input
  if slope == 0 then .ok frequencies
  else if !x.isAffine then .error (.spectrumUndefined (.nonlinear op.name input))
  else match op.spec.generator with
    | none => .error (.spectrumUndefined (.noGenerator op.name))
    | some g => .ok (sums frequencies (normalize (g.frequencies.map fun f => f * slope)))

/-- The frequencies in one input. -/
def ofInput (operations : List (Operation α)) (input : Nat) : Except Error (List α) :=
  operations.foldlM (fun frequencies op =>
    op.params.foldlM (addParameter op input) frequencies) [0]

/-- Operations are expanded until they have a generator or are constant. -/
def criterion : Criterion α := .or .hasGenerator (.not .isTrainable)

end Spectrum

/-- The frequencies of the results in each entry of an argument. -/
def Trace.spectrum {α : Type} [Scalar α] (t : Trace α) (table : GateTable α)
    (argument : Nat) : Except Error (List (List α)) := do
  match t.layout.inputs? argument with
  | none => (ArgumentFault.spectrumArgument argument).error
  | some (start, count) =>
    let expanded ← t.expand table defaultGradientDepth Spectrum.criterion
    (List.range count).mapM fun i => Spectrum.ofInput expanded.operations (start + i)

end CircuitGrad
