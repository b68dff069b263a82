import CircuitGrad.Gradient.Expansion
import CircuitGrad.Gradient.FiniteDifference
import CircuitGrad.Gradient.ParameterShift
import CircuitGrad.Plan.Transform

/-! # Derivatives of a trace

    A differentiator expands a trace once and then applies the plan of first
    derivatives as often as the order asks for.  A derivative of order `k`
    has the shape of the trace's result, followed by `k` dimensions with one
    entry for each selected parameter.
-/

namespace CircuitGrad

/-- How first derivatives are taken. -/
inductive GradientMethod (α : Type) where
  | parameterShift (config : ShiftConfig α)
  | finiteDifference (config : DifferenceConfig α)

namespace GradientMethod

variable {α : Type}

/-- Positions of the selected parameters, if not all are. -/
def parameters : GradientMethod α → Option (List Nat)
  | parameterShift c => c.parameters
  | finiteDifference c => c.parameters

def name : GradientMethod α → String
  | parameterShift _ => "param_shift"
  | finiteDifference _ => "finite_diff"

def text : GradientMethod Float → String
  | parameterShift c => "ParamShift(" ++ c.text ++ ")"
  | finiteDifference c => "FiniteDiff(" ++ c.text ++ ")"

/-- The plan of the first derivatives of a trace. -/
def plan [Scalar α] (method : GradientMethod α) (t : Trace α) : Except Error (Plan α) :=
  match method with
  | parameterShift c => ParameterShift.plan t c
  | finiteDifference c => FiniteDifference.plan t c

end GradientMethod

/-- How derivatives of traces are taken. -/
structure Differentiator (α : Type) where
  method   : GradientMethod α
  /-- The highest order of a derivative. -/
  maxOrder : Nat
  /-- How deep operations are expanded. -/
  depth    : Nat
  cost     : DecompositionCost α
  gates    : GateTable α

namespace Differentiator

/-- The highest order unless asked otherwise. -/
def defaultMaxOrder : Nat := 2

variable {α : Type}

/-- A differentiator with default bounds. -/
def ofMethod (method : GradientMethod α) (gates : GateTable α) : Differentiator α :=
  { method
    maxOrder := defaultMaxOrder
    depth := defaultGradientDepth
    cost := trainableOperations
    gates }

def name (d : Differentiator α) : String := d.method.name

def text (d : Differentiator Float) : String :=
  Display.record "DifferentiationEngine"
    [("method", d.method.text), ("max_order", toString d.maxOrder),
      ("expansion_depth", toString d.depth)]

variable [Scalar α]

/-- The trace with all trainable operations made differentiable. -/
def expand (d : Differentiator α) (t : Trace α) : Except Error (Trace α) :=
  t.expandDifferentiable d.gates d.depth d.cost

/-- The plan of the first derivatives of an expanded trace. -/
def firstOrder (d : Differentiator α) (t : Trace α) : Except Error (Plan α) := d.method.plan t

/-- First derivatives, taken once and then `more` times. -/
def nested (d : Differentiator α) : Nat → Trace α → Except Error (Plan α)
  | 0, t => d.firstOrder t
  | more + 1, t => do (← d.firstOrder t).andThen (d.nested more)

/-- The plan of the derivatives of an order. -/
def derivative (d : Differentiator α) (t : Trace α) (order : Nat) : Except Error (Plan α) := do
  if order > d.maxOrder then .error (.orderExceeded order d.maxOrder)
  else if order = 0 then return .identity t
  else if order > 1 && t.measurements.any (·.readout == .variance) then
    .error (.gradientUndefined "var" .nonlinearReadout)
  else
    let expanded ← d.expand t
    let selected ← expanded.selectTrainable d.method.parameters
    if selected.isEmpty then
      return .known (.zeros ((← expanded.outputShape) ++ List.replicate order 0))
    else d.nested (order - 1) expanded

end Differentiator

/-! ### As a transform with arguments -/

/-- The parameter-shift rule with its step and the depth of the expansion as
    arguments. -/
def parameterShiftTransform {α : Type} [Scalar α] (gates : GateTable α) :
    Except Error (Transform α) :=
  let signature : Signature :=
    ⟨[⟨"h", .float, false⟩, ⟨"expansion_depth", .int, false⟩]⟩
  let expand : ExpandEntry α := fun t args => do
    let depth ← match args.int? "expansion_depth" with
      | none => pure defaultGradientDepth
      | some (.ofNat n) => pure n
      | some n => (ArgumentFault.negativeDepth n).error
    t.expandDifferentiable gates depth trainableOperations
  let main : MainEntry α := fun t args =>
    let standard : ShiftConfig α := .standard
    ParameterShift.plan t { standard with step := (args.float? "h").getD standard.step }
  Transform.register "param_shift" (some (signature, main)) (some (signature, expand))

end CircuitGrad
