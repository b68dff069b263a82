import CircuitGrad.Backend.Dispatch
import CircuitGrad.Batch
import CircuitGrad.Binding.ChainRule
import CircuitGrad.Binding.Config
import CircuitGrad.Binding.Rebinding
import CircuitGrad.Gradient.Spectrum
import CircuitGrad.Plan.Pipeline

/-! # Bindings

    A binding ties a circuit function to a backend and a way to
    differentiate.  Every request records the function at the arguments,
    expands and splits the trace for the backend, differentiates it if asked
    to, submits all traces together, and folds the results.

    What lasts from request to request is the recorded trace, the number of
    recordings, and the session of the backend.
-/

namespace CircuitGrad

/-- A circuit function, the backend that executes it, and how it is
    differentiated. -/
structure Binding (α σ : Type) where
  circuit        : CircuitFunction α
  backend        : Backend α σ
  register       : Nat
  config         : BindingConfig α
  /-- Absent when differentiation is disabled. -/
  differentiator : Option (Differentiator α)

/-- What lasts from request to request. -/
structure BindingState (α σ : Type) [Representation α] where
  session    : Session α σ
  /-- The trace that later requests may reuse. -/
  recorded   : Option (RecordedTrace α)
  /-- How often the circuit function was run. -/
  recordings : Nat

/-- A computation with a binding. -/
abbrev Request (α σ : Type) [Representation α] := ExceptT Error (StateM (BindingState α σ))

namespace Binding

variable {α σ : Type} [Scalar α]

/-- A binding with valid settings, to a backend with enough wires. -/
def make (circuit : CircuitFunction α) (backend : Backend α σ) (register : Nat)
    (config : BindingConfig α) : Except Error (Binding α σ) := do
  config.validate
  let provided := backend.capabilities.wires
  if register > provided then
    (ArgumentFault.registerSize register backend.name provided).error
  else
    return ⟨circuit, backend, register, config, config.differentiator? backend.gates⟩

/-- The state before the first request. -/
def start (session : Session α σ) : BindingState α σ := ⟨session, none, 0⟩

/-! ### Recording -/

/-- Run the circuit function. -/
def record (b : Binding α σ) (args : List (Argument α)) : Request α σ (Trace α) := do
  modify fun s => { s with recordings := s.recordings + 1 }
  Trace.record b.circuit args b.register b.config.shots b.config.maxOrder

/-- The trace at some arguments: recorded, or moved from a recorded one. -/
def construct (b : Binding α σ) (args : List (Argument α)) : Request α σ (Trace α) := do
  if b.config.mutable then b.record args
  else
    match (← get).recorded.bind (·.moved? args) with
    | some trace => return trace
    | none =>
      let trace ← b.record args
      modify fun s => { s with recorded := some ⟨args, trace⟩ }
      return trace

/-! ### Plans -/

/-- Expand a trace for the backend, and for differentiation if that follows. -/
def prepare (b : Binding α σ) (t : Trace α) (d : Option (Differentiator α)) :
    Except Error (Trace α) := do
  match d, b.config.strategy with
  | none, _ => b.backend.decompose t
  | some d, .device => d.expand (← b.backend.decompose t)
  | some d, .gradient => d.expand t

/-- The stages from an expanded trace to the backend.  Expansion for
    differentiation may leave operations that are not native. -/
def pipeline (b : Binding α σ) (order : Nat) : Pipeline α :=
  let split : Stage α := ⟨"split", b.backend.split⟩
  let decompose : Stage α := ⟨"decompose", b.backend.decompositionPlan⟩
  match b.differentiator, order with
  | none, _ | some _, 0 => ⟨[split]⟩
  | some d, order => ⟨[split, ⟨"derivative", fun t => d.derivative t order⟩, decompose]⟩

/-- The plan of the results of a trace. -/
def callPlan (b : Binding α σ) (t : Trace α) : Except Error (Plan α) := do
  (b.pipeline 0).apply (← b.prepare t none)

/-- The plan of the derivatives of a trace in some inputs. -/
def derivativePlan (b : Binding α σ) (d : Differentiator α) (t : Trace α) (r : InputRange)
    (order : Nat) : Except Error (Plan α) := do
  let prepared ← b.prepare t (some d)
  ChainRule.plan prepared r order fun k => (b.pipeline k).apply prepared

/-- The differentiator, if derivatives of the order may be taken. -/
def requireOrder (b : Binding α σ) (order : Nat) : Except Error (Differentiator α) :=
  match b.differentiator with
  | none => .error (.gradientUndefined "qnode" .disabled)
  | some d =>
    if order > b.config.maxOrder then .error (.orderExceeded order b.config.maxOrder)
    else .ok d

/-! ### Requests -/

/-- Execute traces on the backend. -/
def execute (b : Binding α σ) (traces : List (Trace α)) : Request α σ (List (Tensor α)) := do
  let s ← get
  let (outcome, session) := (b.backend.submit traces none).run s.session
  set { s with session }
  outcome

/-- Turn the trace at each batch index into a plan, and execute all plans
    together. -/
def run (b : Binding α σ) (args : List (Argument α)) (shots : Option Shots)
    (plan : Trace α → Except Error (Plan α)) : Request α σ (Tensor α) := do
  let size ← Argument.commonBatchSize args
  let plans ← (← Argument.unbatch args).mapM fun own => do
    let t ← b.construct own
    plan (shots.elim t t.withShots)
  let batch : PlanBatch α := ⟨plans⟩
  let outputs ← batch.combine (← b.execute batch.traces)
  match size, outputs with
  | some _, outputs => Tensor.stackBatch outputs []
  | none, output :: _ => return output
  | none, [] => ShapeFault.noResult.error (ε := Tensor α)

/-- The result at some arguments; given shots override those of the binding. -/
def call (b : Binding α σ) (args : List (Argument α)) (shots : Option Shots) :
    Request α σ (Tensor α) :=
  b.run args shots b.callPlan

/-- The derivatives of the result in the entries of one argument. -/
def derivative (b : Binding α σ) (args : List (Argument α)) (argument order : Nat)
    (shots : Option Shots) : Request α σ (Tensor α) := do
  let d ← b.requireOrder order
  if order = 0 then b.call args shots
  else
    b.run args shots fun t => do
      b.derivativePlan d t (← t.layout.range argument) order

/-- Sum a Jacobian over the entries of the result, weighted by a cotangent. -/
def pullBack (cotangent jacobian : Tensor α) (inputs : Nat) : List α :=
  (List.range inputs).map fun i =>
    (List.range cotangent.size).foldl (fun acc o =>
      acc + cotangent.entry o * jacobian.entry (o * inputs + i)) 0

/-- The product of a cotangent with the Jacobian, laid out by argument;
    arguments that are not differentiable get zeros. -/
def vjp (b : Binding α σ) (args : List (Argument α)) (cotangent : Tensor α) :
    Request α σ (List (Tensor α)) := do
  let d ← b.requireOrder 1
  if (← Argument.commonBatchSize args).isSome then
    throw (.invalidArgument .batchedProduct)
  let t ← b.construct args
  let plan ← b.derivativePlan d t t.layout.allInputs 1
  let jacobian ← plan.combine (← b.execute plan.traces)
  let shape := jacobian.shape.dropLast
  if cotangent.shape ≠ shape then
    throw (.shapeMismatch (.cotangentShape cotangent.shape shape))
  let product := (pullBack cotangent jacobian t.layout.inputCount).toArray
  return t.layout.slots.map fun slot =>
    match slot.offset with
    | none => .zeros slot.shape
    | some start => .ofFn slot.shape fun p => product.getD (start + p) 0

/-- The Jacobian of the gate parameters in the entries of an argument. -/
def parameterJacobian (b : Binding α σ) (args : List (Argument α)) (argument : Nat) :
    Request α σ (Tensor α) := do
  (← b.construct args).jacobian argument

/-- The frequencies of the result in each entry of an argument. -/
def spectrum (b : Binding α σ) (args : List (Argument α)) (argument : Nat) :
    Request α σ (List (List α)) := do
  (← b.construct args).spectrum b.backend.gates argument

def text (b : Binding Float σ) : String :=
  Display.record "QNode"
    [("backend", Display.quoted b.backend.name), ("num_wires", toString b.register),
      ("config", b.config.text)]

end Binding

end CircuitGrad
