import CircuitGrad.Backend.Capabilities
import CircuitGrad.Plan.Basic
import CircuitGrad.Tensor.Axes
import CircuitGrad.Trace.Packing

/-! # Splitting measurements

    Distributing the measurements of one trace over several.  Each
    measurement becomes one or more shares with a coefficient; shares are
    put into groups, one trace per group; and each result is the sum of its
    shares' results, weighted by their coefficients.

    The sum is linear.  When later stages add trailing dimensions to the
    results, as derivatives do, it is taken for each index of them.
-/

namespace CircuitGrad

/-- A measurement to execute, and its share in the result of a measurement of
    the trace that is split. -/
structure Share (α : Type) where
  measurement : Measurement α
  coefficient : α
  /-- Index of the measurement that it contributes to. -/
  parent      : Nat

variable {α : Type}

/-! ### Grouping -/

/-- The observable in whose eigenbasis a measurement is taken.  Probabilities
    are taken in the `Z` basis of their wires; the state needs no basis. -/
def Measurement.basis (m : Measurement α) (register : Nat) : Except Error (Observable α) :=
  match m.observable, m.readout with
  | some o, _ => .ok o
  | none, .state => .ok (.word .identity)
  | none, _ => do
    return .word (← PauliWord.ofFactors ((m.measuredWires register).map (·, .Z)))

/-- Greedy partition of measurements into groups that commute. -/
def Measurement.groups (measurements : List (Measurement α)) (register : Nat) :
    Except Error (List (List Nat)) := do
  return Observable.groups (← measurements.mapM (·.basis register))

/-! ### Shares -/

/-- Every measurement as its own share. -/
def Trace.wholeShares [One α] (t : Trace α) : List (Share α) :=
  t.measurements.zipIdx.map fun (m, parent) => ⟨m, 1, parent⟩

/-- A Hamiltonian's expectation value as one share for each of its terms. -/
def Measurement.termShares [One α] (m : Measurement α) (parent : Nat) :
    Except Error (List (Share α)) :=
  match m.observable with
  | some (.hamiltonian h) =>
    if m.readout = .expectation then
      .ok <| h.terms.map fun (c, w) => ⟨.ofObservable .expectation (.word w), c, parent⟩
    else .error (.unsupported "Hamiltonian" (.notLinear m.readout))
  | _ => .ok [⟨m, 1, parent⟩]

/-- The measurements of a trace with Hamiltonians taken apart. -/
def Trace.termShares [One α] (t : Trace α) : Except Error (List (Share α)) := do
  return (← t.measurements.zipIdx.mapM fun (m, parent) => m.termShares parent).flatten

namespace Splitting

/-! ### Putting results together -/

/-- A group of shares and the trace that measures them. -/
structure Part (α : Type) where
  shares : List (Share α)
  trace  : Trace α

/-- What one share gives in one batch of shots. -/
structure Contribution (α : Type) where
  batch  : Nat
  share  : Share α
  result : Tensor α

variable [Scalar α]

/-- Take the result of a part's trace apart. -/
def Part.contributions (p : Part α) (result : Tensor α) :
    Except Error (List (Contribution α)) := do
  let batches ← p.trace.unpackResult result
  return batches.zipIdx.flatMap fun (results, batch) =>
    (p.shares.zip results).map fun (share, result) => ⟨batch, share, result⟩

/-- The weighted sum of the contributions to one measurement in one batch. -/
def collect (contributions : List (Contribution α)) (batch parent : Nat) :
    Except Error (Tensor α) :=
  let own := contributions.filter fun c => c.batch == batch && c.share.parent == parent
  Tensor.linearCombination (own.map (·.share.coefficient)) (own.map (·.result))

/-- The result of the trace from results of the parts. -/
def recombine (t : Trace α) (parts : List (Part α)) (results : List (Tensor α)) :
    Except Error (Tensor α) := do
  let contributions ← (parts.zip results).mapM fun (p, r) => p.contributions r
  let perBatch ← (List.range t.shots.batchCount).mapM fun batch =>
    (List.range t.measurements.length).mapM fun parent =>
      collect contributions.flatten batch parent
  t.packResults perBatch

/-- Split the result of a part by the trailing dimensions that all parts must
    share. -/
def Part.slices (p : Part α) (trailing : List Nat) (result : Tensor α) :
    Except Error (List (Tensor α)) := do
  let (own, slices) ← result.splitTrailing (← p.trace.outputShape)
  if own ≠ trailing then (ShapeFault.unequalTrailing trailing own).error
  return slices

/-- Dimensions of the first result beyond those of its trace. -/
def trailingShape (parts : List (Part α)) (results : List (Tensor α)) :
    Except Error (List Nat) := do
  let lead ← match parts with
    | [] => pure []
    | p :: _ => p.trace.outputShape
  return match results with
    | [] => []
    | r :: _ => r.shape.drop lead.length

/-- The result of the trace from results of the parts that may carry trailing
    dimensions. -/
def fold (t : Trace α) (parts : List (Part α)) (results : List (Tensor α)) :
    Except Error (Tensor α) := do
  let trailing ← trailingShape parts results
  if trailing.isEmpty then recombine t parts results
  else
    let slices ← (parts.zip results).mapM fun (p, r) => p.slices trailing r
    let count := Tensor.volume trailing
    if count = 0 then
      return .zeros ((← t.outputShape) ++ trailing)
    else
      let combined ← (List.range count).mapM fun i =>
        recombine t parts (slices.filterMap (·[i]?))
      Tensor.joinTrailing combined trailing

/-- One trace for each group of shares. -/
def plan (t : Trace α) (shares : List (Share α)) (groups : List (List Nat)) :
    Except Error (Plan α) := do
  let parts ← groups.mapM fun group => do
    let own := group.filterMap (shares[·]?)
    return (⟨own, ← t.withMeasurements (own.map (·.measurement))⟩ : Part α)
  return ⟨parts.map (·.trace), fold t parts⟩

end Splitting

/-! ### Splittings -/

variable [Scalar α]

namespace Trace

/-- Measure the terms of Hamiltonians instead of the Hamiltonians: in groups
    that commute, or each in a trace of its own. -/
def splitTerms (t : Trace α) (grouped : Bool) : Except Error (Plan α) := do
  let shares ← t.termShares
  let groups ←
    if grouped then Measurement.groups (shares.map (·.measurement)) t.register
    else pure ((List.range shares.length).map ([·]))
  Splitting.plan t shares groups

/-- One trace for each group of measurements that commute. -/
def splitNonCommuting (t : Trace α) : Except Error (Plan α) := do
  let groups ← Measurement.groups t.measurements t.register
  if groups.length = 1 then return .identity t
  else Splitting.plan t t.wholeShares groups

/-- The splitting that the capabilities of a backend ask for. -/
def splitFor (t : Trace α) (c : Capabilities) : Except Error (Plan α) :=
  if t.measurements.any (·.ofHamiltonian) && (!c.hamiltonian || !t.shots.isAnalytic) then
    t.splitTerms true
  else if !c.nonCommuting then t.splitNonCommuting
  else .ok (.identity t)

end Trace

end CircuitGrad
