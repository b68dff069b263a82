import CircuitGrad.Backend.Basic
import CircuitGrad.Backend.LruCache
import CircuitGrad.Trace.Fingerprint

/-! # Dispatch

    The one path from traces to results.  A batch of traces is validated;
    results that the cache holds are taken from there; of the others, traces
    with equal fingerprints are executed once; and what comes back is checked
    and put into the cache.  Results are returned in the order of the traces.
-/

namespace CircuitGrad

/-- What lasts from batch to batch: the state of the backend and the cache of
    its results, if it has one. -/
structure Session (α σ : Type) [Representation α] where
  device : σ
  cache  : Option (LruCache (Fingerprint α) (Tensor α))

/-- A computation that may execute traces. -/
abbrev Execution (α σ : Type) [Representation α] := ExceptT Error (StateM (Session α σ))

/-- Where the result of a trace comes from. -/
inductive Slot (α : Type) where
  /-- It was in the cache. -/
  | known (result : Tensor α)
  /-- It is that of a job. -/
  | awaited (job : Nat)

/-- A trace to execute, with its fingerprint. -/
structure Job (α : Type) [Representation α] where
  key   : Fingerprint α
  trace : Trace α

namespace Backend

variable {α σ : Type} [Scalar α]

/-- Look a result up in the cache. -/
def lookUp (key : Fingerprint α) : Execution α σ (Option (Tensor α)) := do
  let session ← get
  match session.cache with
  | none => return none
  | some cache =>
    let (found, cache) := cache.get key
    set { session with cache := some cache }
    return found

/-- Put a result into the cache. -/
def store (key : Fingerprint α) (result : Tensor α) : Execution α σ Unit :=
  modify fun session => { session with cache := session.cache.map (·.insert key result) }

/-- Drop all cached results. -/
def clearCache : Execution α σ Unit :=
  modify fun session => { session with cache := session.cache.map (·.clear) }

/-- Hand traces to the backend. -/
def call (b : Backend α σ) (traces : List (Trace α)) : Execution α σ (List (Tensor α)) := do
  let session ← get
  let (outcome, device) := b.execute traces session.device
  set { session with device }
  outcome

/-- Find out for every trace where its result comes from, and which traces
    must be executed; `jobs` are known to be executed already. -/
def assign : List (Trace α) → List (Job α) → Execution α σ (List (Slot α) × List (Job α))
  | [], jobs => return ([], jobs)
  | t :: rest, jobs => do
    let key := t.fingerprint
    match jobs.findIdx? (·.key == key) with
    | some job =>
      let (slots, jobs) ← assign rest jobs
      return (.awaited job :: slots, jobs)
    | none =>
      match ← lookUp key with
      | some result =>
        let (slots, jobs) ← assign rest jobs
        return (.known result :: slots, jobs)
      | none =>
        let (slots, all) ← assign rest (jobs ++ [⟨key, t⟩])
        return (.awaited jobs.length :: slots, all)

/-- Execute jobs, together or one by one. -/
def runJobs (b : Backend α σ) (jobs : List (Job α)) : Execution α σ (List (Tensor α)) :=
  if jobs.isEmpty then return []
  else if b.capabilities.batch then b.call (jobs.map (·.trace))
  else return (← jobs.mapM fun job => b.call [job.trace]).flatten

/-- Check the shape of a result and keep it. -/
def accept (b : Backend α σ) (job : Job α) (result : Tensor α) : Execution α σ Unit := do
  let expected ← job.trace.outputShape
  if result.shape ≠ expected then
    throw (.shapeMismatch (.executionShape b.name result.shape expected))
  store job.key result

/-- The result of a trace. -/
def answer (fresh : Array (Tensor α)) : Slot α → Except Error (Tensor α)
  | .known result => .ok result
  | .awaited job => match fresh[job]? with
    | some result => .ok result
    | none => .error (.backend .unanswered)

/-- The results of traces, in their order; given shots override theirs. -/
def submit (b : Backend α σ) (traces : List (Trace α)) (shots : Option Shots) :
    Execution α σ (List (Tensor α)) := do
  let traces := match shots with
    | some s => traces.map (·.withShots s)
    | none => traces
  for t in traces do
    b.validate t
  let (slots, jobs) ← assign traces []
  let fresh ← b.runJobs jobs
  if fresh.length ≠ jobs.length then
    throw (.shapeMismatch (.executionCount b.name fresh.length jobs.length))
  for (job, result) in jobs.zip fresh do
    b.accept job result
  let fresh := fresh.toArray
  slots.mapM (m := Execution α σ) fun slot => answer fresh slot

end Backend

end CircuitGrad
