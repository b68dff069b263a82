import CircuitGrad.Display
import CircuitGrad.Tensor.Basic
import CircuitGrad.Trace.Basic

/-! # Plans

    A plan stands for one trace: traces to execute instead of it, and a
    function that folds their results into the result of the one trace.
    A stage is a function that turns a trace into a plan.

    Plans compose by one rule.  When a stage turns each trace of a plan into
    a plan of its own, the composite executes all their traces, folds the
    results of each inner plan first, and then folds what they give.
-/

namespace CircuitGrad

/-- Traces to execute, and how their results are folded into one. -/
structure Plan (α : Type) where
  traces : List (Trace α)
  fold   : List (Tensor α) → Except Error (Tensor α)

namespace Plan

variable {α : Type}

/-- One trace, whose result is the result. -/
def identity (t : Trace α) : Plan α :=
  { traces := [t]
    fold
      | r :: _ => .ok r
      | [] => .error .aborted }

/-- No trace; the result is known. -/
def known (result : Tensor α) : Plan α := ⟨[], fun _ => .ok result⟩

/-- Traces whose results are summed with coefficients. -/
def weighted [Zero α] [Add α] [Mul α] (parts : List (α × Trace α)) : Plan α :=
  ⟨parts.map (·.2), Tensor.linearCombination (parts.map (·.1))⟩

def size (p : Plan α) : Nat := p.traces.length

/-- Fails unless there is one result per trace. -/
def checkArity (expected actual : Nat) : Except Error Unit :=
  if expected = actual then .ok () else (ShapeFault.foldArity expected actual).error

/-- Fold one result per trace. -/
def combine (p : Plan α) (results : List (Tensor α)) : Except Error (Tensor α) := do
  checkArity p.size results.length
  p.fold results

/-- Fold consecutive stretches of a result list by one plan each. -/
def foldEach : List (Plan α) → List (Tensor α) → Except Error (List (Tensor α))
  | [], _ => .ok []
  | p :: rest, results => do
    let r ← p.combine (results.take p.size)
    return r :: (← foldEach rest (results.drop p.size))

/-- Apply a stage to every trace and compose. -/
def andThen (p : Plan α) (stage : Trace α → Except Error (Plan α)) : Except Error (Plan α) := do
  let inner ← p.traces.mapM stage
  return { traces := inner.flatMap (·.traces)
           fold := fun results => do p.fold (← foldEach inner results) }

/-- Add a step after the fold. -/
def map (p : Plan α) (f : Tensor α → Except Error (Tensor α)) : Plan α :=
  ⟨p.traces, fun results => do f (← p.fold results)⟩

def text (p : Plan α) : String :=
  Display.record "TransformResult" [("traces", toString p.size)]

end Plan

/-- Plans executed together. -/
structure PlanBatch (α : Type) where
  plans : List (Plan α)

namespace PlanBatch

variable {α : Type}

/-- All traces, plan after plan. -/
def traces (b : PlanBatch α) : List (Trace α) := b.plans.flatMap (·.traces)

/-- One result per plan from one result per trace. -/
def combine (b : PlanBatch α) (results : List (Tensor α)) : Except Error (List (Tensor α)) := do
  Plan.checkArity b.traces.length results.length
  Plan.foldEach b.plans results

end PlanBatch

end CircuitGrad
