import CircuitGrad.Plan.Basic

/-! # Pipelines

    Named stages, applied one after the other.
-/

namespace CircuitGrad

/-- A named function from traces to plans. -/
structure Stage (α : Type) where
  name : String
  run  : Trace α → Except Error (Plan α)

/-- Stages in the order they are applied. -/
structure Pipeline (α : Type) where
  stages : List (Stage α)

namespace Pipeline

variable {α : Type}

/-- Apply every stage to one trace. -/
def apply (p : Pipeline α) (t : Trace α) : Except Error (Plan α) :=
  p.stages.foldlM (fun plan stage => plan.andThen stage.run) (Plan.identity t)

/-- Apply every stage, each to the traces of the one before it alone. -/
def applyNested : List (Stage α) → Trace α → Except Error (Plan α)
  | [], t => .ok (.identity t)
  | stage :: rest, t => do (← stage.run t).andThen (applyNested rest)

/-- Apply the pipeline to every trace of a list. -/
def applyBatch (p : Pipeline α) (traces : List (Trace α)) : Except Error (PlanBatch α) :=
  return ⟨← traces.mapM p.apply⟩

def names (p : Pipeline α) : List String := p.stages.map (·.name)

def text (p : Pipeline α) : String := "[" ++ ", ".intercalate (p.names.map Display.quoted) ++ "]"

end Pipeline

end CircuitGrad
