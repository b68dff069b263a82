import CircuitGrad.Gradient.Differentiator
import CircuitGrad.Shots

/-! # Settings of a binding -/

namespace CircuitGrad

/-- How a binding differentiates. -/
inductive DiffMethod (α : Type) where
  | parameterShift
  | finiteDifference (step : α)
  | disabled

/-- When operations are expanded for differentiation. -/
inductive ExpansionStrategy where
  /-- After they were expanded into native operations. -/
  | device
  /-- Before; only then they are expanded into native operations. -/
  | gradient
deriving DecidableEq, Repr

/-- Settings of a binding. -/
structure BindingConfig (α : Type) where
  method   : DiffMethod α
  /-- The highest order of a derivative. -/
  maxOrder : Nat
  /-- The circuit function is run on every call; otherwise a recorded trace is
      reused where that is possible. -/
  mutable  : Bool
  strategy : ExpansionStrategy
  /-- How deep operations are expanded for differentiation. -/
  depth    : Nat
  shots    : Shots

namespace DiffMethod

variable {α : Type}

def isEnabled : DiffMethod α → Bool
  | disabled => false
  | _ => true

def text : DiffMethod Float → String
  | parameterShift => "ParameterShift"
  | finiteDifference h => Display.record "FiniteDiff" [("h", Decimal.Style.detailed.text h)]
  | disabled => "None"

/-- The rule for first derivatives, unless there is none. -/
def gradient? [Scalar α] : DiffMethod α → Option (GradientMethod α)
  | parameterShift => some (.parameterShift .standard)
  | finiteDifference step =>
    some (.finiteDifference { (DifferenceConfig.standard : DifferenceConfig α) with step })
  | disabled => none

end DiffMethod

def ExpansionStrategy.name : ExpansionStrategy → String
  | device => "Device"
  | gradient => "Gradient"

/-- Shots as they are shown among other settings. -/
def Shots.settingText : Shots → String
  | analytic => "Analytic"
  | finite n => s!"Finite({n})"
  | vector batches =>
    let shown := batches.map fun b =>
      Display.record "ShotBatch"
        [("shots", toString b.shots), ("repetitions", toString b.repetitions)]
    "Vector([" ++ ", ".intercalate shown ++ "])"

namespace BindingConfig

variable {α : Type}

/-- First derivatives by the parameter-shift rule, exact evaluation. -/
def standard : BindingConfig α :=
  { method := .parameterShift
    maxOrder := 1
    mutable := true
    strategy := .device
    depth := defaultGradientDepth
    shots := .analytic }

/-- The same with second derivatives. -/
def secondOrder : BindingConfig α := { (standard : BindingConfig α) with maxOrder := 2 }

/-- A step is positive, and enabled differentiation has an order. -/
def validate [Scalar α] (c : BindingConfig α) : Except Error Unit := do
  if let .finiteDifference h := c.method then
    if Scalar.isNaN h || Scalar.le h 0 then
      (ArgumentFault.step (Scalar.text h)).error
  if c.method.isEnabled && c.maxOrder = 0 then
    ArgumentFault.zeroOrder.error

/-- The differentiator that the settings ask for. -/
def differentiator? [Scalar α] (c : BindingConfig α) (gates : GateTable α) :
    Option (Differentiator α) :=
  c.method.gradient?.map fun method =>
    { Differentiator.ofMethod method gates with maxOrder := c.maxOrder, depth := c.depth }

def text (c : BindingConfig Float) : String :=
  Display.record "QNodeConfig"
    [("diff_method", c.method.text), ("max_diff", toString c.maxOrder),
      ("mutable", toString c.mutable), ("expansion_strategy", c.strategy.name),
      ("expansion_depth", toString c.depth), ("shots", c.shots.settingText)]

end BindingConfig

end CircuitGrad
