import CircuitGrad.Proofs.BatchedRequest
import CircuitGrad.Proofs.ExactExecution
import CircuitGrad.Proofs.OversizedRegister

/-! # Agreement of the expansion strategies

    A request for derivatives by the shift rule returns the derivatives of the
    exact outputs of the recorded circuit in the entries of the argument
    (`derivative_eq_exact`), and it succeeds when its plans can be made and the
    backend validates their traces (`derivative_succeeds`).  Neither the native
    gates of the backend nor the order in which operations are expanded for it
    and for differentiation enter that tensor, so both strategies return the
    same (`strategies_agree`).

    They need not execute the same traces on the way: a controlled rotation has a
    rule of four terms, and the two rotations that it is decomposed into have rules
    of two terms each (`plan_wholeTurn`, `plan_halfTurns`).
-/

namespace CircuitGrad

namespace Binding

/-- All counts in what a first request for derivatives submits are 64-bit words. -/
def SubmitsCounted {σ : Type} (b : Binding ℝ σ) (session : Session ℝ σ) (args : List (Argument ℝ))
    (argument order : ℕ) (shots : Option Shots) : Prop :=
  ∀ ts s plans, (b.traces args shots).run.run (start session) = (.ok ts, s) →
    ts.mapM (b.argumentPlan argument order) = .ok plans →
      ∀ p ∈ plans, ∀ w ∈ p.traces, w.Counted

/-- The derivatives in the entries of one argument of the outputs of the recorded traces, for
    all batch indices. -/
noncomputable def exactDerivative {σ : Type} (b : Binding ℝ σ) (session : Session ℝ σ)
    (args : List (Argument ℝ)) (argument order : ℕ) (shots : Option Shots) :
    Except Error (Tensor ℝ) := do
  let size ← Argument.commonBatchSize args
  let ts ← ((b.traces args shots).run.run (start session)).1
  let outputs ← ts.mapM fun t => do
    return t.argumentDerivative (← t.layout.range argument) order
  Tensor.ofBatch size outputs

end Binding

namespace Proofs

variable {ρ : Type} {c : SimulatorConfig} {table : GateTable ℝ} {sampler : Sampler ℝ ρ}

/-! ## The differentiator of a binding -/

section Made

variable {σ : Type} {b : Binding ℝ σ} {argument order : ℕ}

theorem eq_of_make {circuit : CircuitFunction ℝ} {backend : Backend ℝ σ} {register : ℕ}
    {config : BindingConfig ℝ} (h : Binding.make circuit backend register config = .ok b) :
    b = ⟨circuit, backend, register, config, config.differentiator? backend.gates⟩ := by
  obtain ⟨_, -, h⟩ := bind_eq_ok h
  dsimp only at h
  split at h
  · cases h
  · exact (Except.ok.inj h).symm

/-- Made with the settings of the shift rule. -/
structure ByShifts (b : Binding ℝ σ) : Prop where
  differentiator : b.differentiator = b.config.differentiator? b.backend.gates
  method         : b.config.method = .parameterShift

theorem differentiator_of_requireOrder {d : Differentiator ℝ} (h : b.requireOrder order = .ok d) :
    b.differentiator = some d := by
  unfold Binding.requireOrder at h
  cases hd : b.differentiator with
  | none =>
    rw [hd] at h
    cases h
  | some d' =>
    rw [hd] at h
    dsimp only at h
    split at h
    · cases h
    · rw [Except.ok.inj h]

/-- The differentiator of a binding that uses the shift rule. -/
theorem shifts_of_requireOrder {d : Differentiator ℝ} (hb : ByShifts b)
    (h : b.requireOrder order = .ok d) : b.differentiator = some d ∧
      d.cost = trainableOperations ∧ d.method = .parameterShift .standard := by
  have hsome := differentiator_of_requireOrder h
  have hd := hb.differentiator
  unfold BindingConfig.differentiator? at hd
  rw [hsome, hb.method] at hd
  obtain rfl := Option.some.inj hd
  exact ⟨hsome, rfl, rfl⟩

theorem argumentPlan_eq_ok {t : Trace ℝ} {p : Plan ℝ}
    (h : b.argumentPlan argument order t = .ok p) : ∃ d r, b.requireOrder order = .ok d ∧
      t.layout.range argument = .ok r ∧ b.derivativePlan d t r order = .ok p := by
  obtain ⟨d, hd, h⟩ := bind_eq_ok h
  obtain ⟨r, hr, h⟩ := bind_eq_ok h
  exact ⟨d, r, hd, hr, h⟩

/-- First derivatives in an argument are planned for a trace that needs no splitting when
    those in the parameters are planned and the traces of that plan are decomposed. -/
theorem argumentPlan_succeeds {P : Trace ℝ → Prop} {d : Differentiator ℝ} {t u : Trace ℝ}
    {r : InputRange} {q : Plan ℝ} (hd : b.differentiator = some d)
    (hrequired : b.requireOrder 1 = .ok d) (hr : t.layout.range argument = .ok r)
    (hu : b.prepare t (some d) = .ok u) (hsplit : b.backend.split u = .ok (.identity u))
    (hq : d.derivative u 1 = .ok q)
    (hP : ∀ w ∈ q.traces, ∃ v, b.backend.decompose w = .ok v ∧ P v) :
    ∃ p, b.argumentPlan argument 1 t = .ok p ∧ ∀ w ∈ p.traces, P w := by
  obtain ⟨p, hp, htraces⟩ := pipeline_succeeds hd hsplit hq hP
  refine ⟨p.map (ChainRule.carry r (u.slopes r).data 1), ?_, htraces⟩
  unfold Binding.argumentPlan Binding.derivativePlan ChainRule.plan
  rw [hrequired, ok_bind, hr, ok_bind, hu, ok_bind]
  dsimp only
  rw [hp]
  rfl

end Made

/-! ## Plans of a request -/

section Plans

variable {b : Binding ℝ ExecutionCounts} {argument order : ℕ} {ts : List (Trace ℝ)}
  {plans : List (Plan ℝ)}

/-- What the simulator cannot hold is not executed, so when a submission succeeds nothing is
    trainable there. -/
theorem fits_of_submit (hb : ByShifts b) (horder : order ≠ 0) {n : ℕ} {results : List (Tensor ℝ)}
    (hts : ∀ t ∈ ts, t.Admissible ∧ t.register = n)
    (hplans : ts.mapM (b.argumentPlan argument order) = .ok plans)
    (hresults : (((c.backend table sampler).submit (plans.flatMap (·.traces)) none).perform
      c.session).1 = .ok results) :
    ∀ t ∈ ts, t.register ≤ StateVector.maxWires ∨ t.trainable = [] := by
  by_cases hn : n ≤ StateVector.maxWires
  · exact fun t ht => .inl ((hts t ht).2 ▸ hn)
  have hover : ∀ t ∈ ts, ∀ p, b.argumentPlan argument order t = .ok p → p.Oversized t := by
    intro t ht p hp
    obtain ⟨hadmissible, rfl⟩ := hts t ht
    obtain ⟨d, r, hd, -, hp⟩ := argumentPlan_eq_ok hp
    obtain ⟨hsome, hcost, hshifts⟩ := shifts_of_requireOrder hb hd
    exact derivativePlan_oversized hsome hcost hshifts rfl hadmissible (Nat.lt_of_not_le hn)
      horder hp
  have hnone : plans.flatMap (·.traces) = [] := by
    by_contra hne
    obtain ⟨e, he⟩ := submit_oversized (c := c) hne fun w hw => by
      obtain ⟨p, hp, hw⟩ := List.mem_flatMap.mp hw
      obtain ⟨t, ht, hplan⟩ := mem_of_mapM hplans hp
      exact ((hover t ht p hplan).traces w hw).1.exceeds
    cases he.symm.trans hresults
  intro t ht
  right
  by_contra htrains
  obtain ⟨p, hp⟩ := ok_of_mapM hplans ht
  exact (hover t ht p hp).nonempty htrains
    (List.flatMap_eq_nil_iff.mp hnone p (mem_results_of_mapM hplans ht hp))

/-- The plans of a request compute the derivatives of the recorded traces, from exact
    traces. -/
theorem run_plans (sampler : Sampler ℝ ρ) (hb : ByShifts b) (horder : order = 1 ∨ order = 2)
    (hts : ∀ t ∈ ts, t.Admissible)
    (hfits : ∀ t ∈ ts, t.register ≤ StateVector.maxWires ∨ t.trainable = [])
    (hplans : ts.mapM (b.argumentPlan argument order) = .ok plans) :
    (∃ Ts, plans.mapM (·.run (·.simulate sampler)) = .ok Ts ∧ (ts.mapM fun t => do
      return t.argumentDerivative (← t.layout.range argument) order) = .ok Ts) ∧
    ∀ p ∈ plans, ∀ w ∈ p.traces, w.Exact := by
  have hderivative : ∀ t ∈ ts, ∀ p, b.argumentPlan argument order t = .ok p →
      ∃ r, t.layout.range argument = .ok r ∧
        p.run (·.simulate sampler) = .ok (t.argumentDerivative r order) ∧
        ∀ w ∈ p.traces, w.Exact := by
    intro t ht p hp
    obtain ⟨d, r, hd, hr, hp⟩ := argumentPlan_eq_ok hp
    obtain ⟨hsome, hcost, hshifts⟩ := shifts_of_requireOrder hb hd
    exact ⟨r, hr, derivativePlan_run sampler hsome hcost hshifts rfl (hts t ht) (hfits t ht) r
      horder hp⟩
  constructor
  · obtain ⟨Ts, hTs, hvalues⟩ := mapM_stage (fun t ht p hp => by
      obtain ⟨r, -, hrun, -⟩ := hderivative t ht p hp
      exact ⟨_, hrun⟩) hplans
    refine ⟨Ts, hTs, ?_⟩
    rw [← hvalues]
    refine mapM_congr fun t ht => ?_
    obtain ⟨p, hp⟩ := ok_of_mapM hplans ht
    obtain ⟨r, hr, hrun, -⟩ := hderivative t ht p hp
    rw [hp, hr, ok_bind, ok_bind, hrun]
    rfl
  · intro p hp
    obtain ⟨t, ht, hplan⟩ := mem_of_mapM hplans hp
    obtain ⟨r, -, -, hexact⟩ := hderivative t ht p hplan
    exact hexact

/-- Plans that are executed together give what each of them gives. -/
theorem combine_results {execute : Trace ℝ → Except Error (Tensor ℝ)} {Ts : List (Tensor ℝ)}
    (hrun : plans.mapM (·.run execute) = .ok Ts) :
    PlanBatch.combine ⟨plans⟩ ((plans.flatMap (·.traces)).map (resultOf execute)) = .ok Ts := by
  obtain ⟨results, hresults, hfold⟩ := foldEach_eq hrun
  have hmap : results = (plans.flatMap (·.traces)).map (resultOf execute) :=
    eq_map_of_mapM hresults fun _ _ _ hr => (resultOf_eq hr).symm
  have harity : Plan.checkArity (PlanBatch.mk plans).traces.length
      ((plans.flatMap (·.traces)).map (resultOf execute)).length = .ok () :=
    if_pos (List.length_map _).symm
  unfold PlanBatch.combine
  rw [harity, ok_bind, ← hmap]
  exact hfold

end Plans

/-! ## What a request returns -/

section Requests

variable {b : Binding ℝ ExecutionCounts} {args : List (Argument ℝ)} {argument order : ℕ}
  {shots : Option Shots} {x : Tensor ℝ}

/-- A successful request for derivatives returns those of the recorded circuit. -/
theorem derivative_eq_exact (hbackend : b.backend = c.backend table sampler) (hb : ByShifts b)
    (hcircuit : b.circuit.Standard) (hshots : shots.getD b.config.shots = .analytic)
    (horder : order = 1 ∨ order = 2)
    (hcounted : b.SubmitsCounted c.session args argument order shots)
    (h : ((b.derivative args argument order shots).run.run (Binding.start c.session)).1 = .ok x) :
    b.exactDerivative c.session args argument order shots = .ok x := by
  have hne : order ≠ 0 := by omega
  obtain ⟨d, hd⟩ := requireOrder_of_derivative (Prod.ext h rfl)
  rw [derivative_run hne hd] at h
  obtain ⟨size, ts, s₁, plans, results, outputs, hsize, hts, hplans, hresults, hcombine, hx⟩ :=
    run_ok_iff.mp h
  obtain ⟨hsession, hadmissible⟩ := admissible_of_traces hcircuit hshots (kept_start b _) hts
  rw [hsession, hbackend] at hresults
  have hfits := fits_of_submit hb hne hadmissible hplans hresults
  obtain ⟨⟨Ts, hTs, hvalues⟩, hexact⟩ :=
    run_plans sampler hb horder (fun t ht => (hadmissible t ht).1) hfits hplans
  obtain rfl := submit_eq_map (fun w hw => by
    obtain ⟨p, hp, hw⟩ := List.mem_flatMap.mp hw
    exact ⟨hexact p hp w hw, hcounted ts s₁ plans hts hplans p hp w hw⟩) hresults
  obtain rfl := Except.ok.inj ((combine_results hTs).symm.trans hcombine)
  unfold Binding.exactDerivative
  rw [hsize, ok_bind, hts]
  dsimp only
  rw [ok_bind, hvalues]
  exact hx

/-- A request for derivatives succeeds, or fails for its results alone, when the plans can be
    made and the backend validates their traces. -/
theorem derivative_succeeds (hbackend : b.backend = c.backend table sampler) (hb : ByShifts b)
    (hcircuit : b.circuit.Standard) (hshots : shots.getD b.config.shots = .analytic)
    (horder : order = 1 ∨ order = 2) (hfits : b.register ≤ StateVector.maxWires)
    (hcounted : b.SubmitsCounted c.session args argument order shots) {ts : List (Trace ℝ)}
    {plans : List (Plan ℝ)} {s : BindingState ℝ ExecutionCounts}
    (hts : (b.traces args shots).run.run (Binding.start c.session) = (.ok ts, s))
    (hplans : ts.mapM (b.argumentPlan argument order) = .ok plans) (hne : ts ≠ [])
    (hvalid : ∀ p ∈ plans, ∀ w ∈ p.traces, b.backend.validate w = .ok ())
    (h : b.exactDerivative c.session args argument order shots = .ok x) :
    ((b.derivative args argument order shots).run.run (Binding.start c.session)).1 = .ok x := by
  obtain ⟨t, ht⟩ := List.exists_mem_of_ne_nil _ hne
  obtain ⟨p, hp⟩ := ok_of_mapM hplans ht
  obtain ⟨d, r, hd, -, -⟩ := argumentPlan_eq_ok hp
  obtain ⟨hsession, hadmissible⟩ := admissible_of_traces hcircuit hshots (kept_start b _) hts
  obtain ⟨⟨Ts, hTs, hvalues⟩, hexact⟩ := run_plans sampler hb horder
    (fun t ht => (hadmissible t ht).1) (fun t ht => .inl ((hadmissible t ht).2 ▸ hfits)) hplans
  obtain ⟨size, hsize, h⟩ := bind_eq_ok h
  obtain ⟨ts', hts', h⟩ := bind_eq_ok h
  rw [hts] at hts'
  obtain rfl := Except.ok.inj hts'
  rw [hvalues, ok_bind] at h
  rw [derivative_run (by omega) hd]
  refine run_ok_iff.mpr ⟨size, ts, s, plans, _, Ts, hsize, hts, hplans, ?_, combine_results hTs, h⟩
  rw [hsession, hbackend]
  rw [hbackend] at hvalid
  refine submit_simulated (fun w hw => ?_) fun w hw => ?_
  all_goals obtain ⟨p, hp, hw⟩ := List.mem_flatMap.mp hw
  · exact ⟨hexact p hp w hw, hcounted ts s plans hts hplans p hp w hw⟩
  · exact hvalid p hp w hw

end Requests

/-! ## A controlled rotation

    A backend without controlled rotations expands one into two rotations by half its angle,
    whose rules have two terms where that of the controlled rotation has four. -/

/-- A Hadamard gate on the wire that controls a rotation by the first argument. -/
noncomputable def steered : CircuitFunction ℝ := fun args r => do
  let angle ← (Quantity.entry 0 0).jet args
  let r ← r.apply StandardGate.hadamard.spec [] [0]
  let r ← r.apply StandardGate.cry.spec [angle] [0, 1]
  r.measure (.probs [1])

theorem standard_steered : steered.Standard := by
  intro args n r h
  obtain ⟨angle, -, h⟩ := bind_eq_ok h
  obtain ⟨r₁, hr₁, h⟩ := bind_eq_ok h
  obtain ⟨r₂, hr₂, h⟩ := bind_eq_ok h
  refine standard_measure (standard_apply (standard_apply (standard_start n) hr₁) hr₂) ?_ ?_ h
  · exact .inr (.inr ⟨[1], rfl⟩)
  · simp [Measurement.HasTerms, Measurement.probs]

/-- A simulator that has no controlled rotations among its native gates. -/
def steering : SimulatorConfig := { wires := 2, native := some ["CNOT", "Hadamard", "RY"] }

theorem native_steering : steering.capabilities.native = ["CNOT", "Hadamard", "RY"] := by
  show Capabilities.nativeSet ["CNOT", "Hadamard", "RY"] = _
  unfold Capabilities.nativeSet
  rw [List.mergeSort_of_pairwise (by decide)]
  rfl

noncomputable def steeredTrace (ops : List (Operation ℝ)) : Trace ℝ :=
  { operations := ⟨StandardGate.hadamard.spec, [], [0]⟩ :: ops
    measurements := [.probs [1]]
    register := 2
    shots := .analytic
    layout := ⟨[⟨[], some 0⟩]⟩ }

/-- The trace as it is recorded. -/
noncomputable def wholeTurn (x : Jet ℝ) : Trace ℝ :=
  steeredTrace [⟨StandardGate.cry.spec, [x], [0, 1]⟩]

/-- The trace as it is executed. -/
noncomputable def halfTurns (x y : Jet ℝ) : Trace ℝ :=
  steeredTrace [⟨StandardGate.ry.spec, [x], [1]⟩, ⟨StandardGate.cnot.spec, [], [0, 1]⟩,
    ⟨StandardGate.ry.spec, [y], [1]⟩, ⟨StandardGate.cnot.spec, [], [0, 1]⟩]

theorem counted_halfTurns (x y : Jet ℝ) : (halfTurns x y).Counted where
  operations   := by simp [halfTurns, steeredTrace]
  measurements := by simp [halfTurns, steeredTrace]
  wires        := by simp [halfTurns, steeredTrace, Measurement.probs]
  terms        := by simp [halfTurns, steeredTrace, Measurement.probs]

section Backend

variable (sampler : Sampler ℝ ρ)

theorem decompose_wholeTurn (x : Jet ℝ) :
    (steering.backend ⟨#[]⟩ sampler).decompose (wholeTurn x) =
      .ok (halfTurns (x * .constant 0.5) (-(x * .constant 0.5))) := by
  unfold SimulatorConfig.backend Backend.decompose Backend.foreign?
  simp only [Capabilities.isNative, native_steering]
  rfl

theorem decompose_halfTurns (x y : Jet ℝ) :
    (steering.backend ⟨#[]⟩ sampler).decompose (halfTurns x y) = .ok (halfTurns x y) := by
  unfold SimulatorConfig.backend Backend.decompose Backend.foreign?
  simp only [Capabilities.isNative, native_steering]
  rfl

theorem validate_halfTurns (x y : Jet ℝ) :
    (steering.backend ⟨#[]⟩ sampler).validate (halfTurns x y) = .ok () := by
  unfold SimulatorConfig.backend Backend.validate Backend.foreign?
  simp only [Capabilities.isNative, native_steering]
  rfl

end Backend

theorem shiftRule_ry (x : Jet ℝ) (wires : List ℕ) :
    (⟨StandardGate.ry.spec, [x], wires⟩ : Operation ℝ).shiftRule? 0 =
      some (.twoTerm (1 / 2)) := by
  show (Generator.halfGap? ⟨[-0.5, 0.5], true⟩).map ShiftRule.twoTerm = _
  rw [halfGap_rotation]
  rfl

theorem isDifferentiable_ry (x : Jet ℝ) (wires : List ℕ) :
    (⟨StandardGate.ry.spec, [x], wires⟩ : Operation ℝ).isDifferentiable = true := by
  have hown : (⟨StandardGate.ry.spec, [x], wires⟩ : Operation ℝ).hasOwnGradient = true := by
    show ([0].all fun i =>
      ((⟨StandardGate.ry.spec, [x], wires⟩ : Operation ℝ).shiftRule? i).isSome) = true
    simp [shiftRule_ry]
  unfold Operation.isDifferentiable
  rw [hown, Bool.or_true]

theorem expand_halfTurns (d : Differentiator ℝ) (x y : Jet ℝ) :
    d.expand (halfTurns x y) = .ok (halfTurns x y) := by
  refine expand_of_isDifferentiable d ?_
  simp only [halfTurns, steeredTrace, List.forall_mem_cons]
  exact ⟨rfl, isDifferentiable_ry x _, rfl, isDifferentiable_ry y _, rfl, by simp⟩

/-- The angle that is recorded for a scalar argument. -/
noncomputable def steeredAngle : Jet ℝ := .seed 1 0 1 false

noncomputable def halfAngle : Jet ℝ := steeredAngle * .constant 0.5

/-- The rule of the controlled rotation shifts its angle four times. -/
theorem plan_wholeTurn : ∃ q, ParameterShift.plan (wholeTurn steeredAngle) .standard = .ok q ∧
    ∀ w ∈ q.traces, ∃ x, w = wholeTurn x := by
  refine ⟨_, rfl, ?_⟩
  exact List.forall_mem_cons.mpr ⟨⟨_, rfl⟩, List.forall_mem_cons.mpr ⟨⟨_, rfl⟩,
    List.forall_mem_cons.mpr ⟨⟨_, rfl⟩, List.forall_mem_singleton.mpr ⟨_, rfl⟩⟩⟩⟩

/-- The rules of the two rotations shift either of their angles twice. -/
theorem plan_halfTurns : ∃ q,
    ParameterShift.plan (halfTurns halfAngle (-halfAngle)) .standard = .ok q ∧
      ∀ w ∈ q.traces, ∃ x y, w = halfTurns x y := by
  have hfirst : RuleAt (halfTurns halfAngle (-halfAngle)) 0 (.twoTerm (1 / 2)) :=
    ⟨1, 0, _, rfl, rfl, shiftRule_ry halfAngle [1]⟩
  have hsecond : RuleAt (halfTurns halfAngle (-halfAngle)) 1 (.twoTerm (1 / 2)) :=
    ⟨3, 0, _, rfl, rfl, shiftRule_ry (-halfAngle) [1]⟩
  have hselected : (halfTurns halfAngle (-halfAngle)).selectTrainable
      (ShiftConfig.standard : ShiftConfig ℝ).parameters = .ok [0, 1] := rfl
  have hvariances : (halfTurns halfAngle (-halfAngle)).variances = .ok [] := rfl
  unfold ParameterShift.plan
  rw [hselected, ok_bind, hvariances, ok_bind, if_pos List.isEmpty_nil, pure_bind,
    List.mapM_cons, shiftRule_of_ruleAt hfirst, List.mapM_cons, shiftRule_of_ruleAt hsecond]
  refine ⟨_, rfl, ?_⟩
  exact List.forall_mem_cons.mpr ⟨⟨_, _, rfl⟩, List.forall_mem_cons.mpr ⟨⟨_, _, rfl⟩,
    List.forall_mem_cons.mpr ⟨⟨_, _, rfl⟩, List.forall_mem_singleton.mpr ⟨_, _, rfl⟩⟩⟩⟩

section Bound

variable (sampler : Sampler ℝ ρ)

/-- The circuit on the simulator, under a strategy. -/
noncomputable def steeredBy (strategy : ExpansionStrategy) : Binding ℝ ExecutionCounts :=
  let config : BindingConfig ℝ := { (BindingConfig.standard : BindingConfig ℝ) with strategy }
  ⟨steered, steering.backend ⟨#[]⟩ sampler, 2, config, config.differentiator? ⟨#[]⟩⟩

theorem make_steeredBy (strategy : ExpansionStrategy) :
    Binding.make steered (steering.backend ⟨#[]⟩ sampler) 2
      { (BindingConfig.standard : BindingConfig ℝ) with strategy } =
        .ok (steeredBy sampler strategy) := rfl

theorem traces_steeredBy (strategy : ExpansionStrategy) :
    ∃ s, ((steeredBy sampler strategy).traces [.scalar 1] none).run.run
      (Binding.start steering.session) = (.ok [wholeTurn steeredAngle], s) := ⟨_, rfl⟩

/-- The differentiator that the settings ask for. -/
noncomputable def steeredShifts : Differentiator ℝ where
  method   := .parameterShift .standard
  maxOrder := 1
  depth    := defaultGradientDepth
  cost     := trainableOperations
  gates    := ⟨#[]⟩

/-- Both strategies execute the two rotations by half the angle. -/
theorem argumentPlan_steeredBy (strategy : ExpansionStrategy) : ∃ p,
    (steeredBy sampler strategy).argumentPlan 0 1 (wholeTurn steeredAngle) = .ok p ∧
      ∀ w ∈ p.traces, ∃ x y, w = halfTurns x y := by
  have hrange : (wholeTurn steeredAngle).layout.range 0 = .ok ⟨0, []⟩ := rfl
  cases strategy with
  | device =>
    have hprepared : (steeredBy sampler .device).prepare (wholeTurn steeredAngle)
        (some steeredShifts) = .ok (halfTurns halfAngle (-halfAngle)) := by
      show (steering.backend ⟨#[]⟩ sampler).decompose _ >>= _ = _
      rw [decompose_wholeTurn, ok_bind]
      exact expand_halfTurns ..
    obtain ⟨q, hq, htraces⟩ := plan_halfTurns
    have hderivative : steeredShifts.derivative (halfTurns halfAngle (-halfAngle)) 1 = .ok q :=
      (derivative_one_eq one_ne_zero (expand_halfTurns ..) rfl (List.cons_ne_nil 0 [1])).trans hq
    refine argumentPlan_succeeds rfl rfl hrange hprepared rfl hderivative fun w hw => ?_
    obtain ⟨x, y, rfl⟩ := htraces w hw
    exact ⟨_, decompose_halfTurns sampler x y, x, y, rfl⟩
  | gradient =>
    have hprepared : (steeredBy sampler .gradient).prepare (wholeTurn steeredAngle)
        (some steeredShifts) = .ok (wholeTurn steeredAngle) := rfl
    obtain ⟨q, hq, htraces⟩ := plan_wholeTurn
    have hderivative : steeredShifts.derivative (wholeTurn steeredAngle) 1 = .ok q :=
      (derivative_one_eq one_ne_zero rfl rfl (List.cons_ne_nil 0 [])).trans hq
    refine argumentPlan_succeeds rfl rfl hrange hprepared rfl hderivative fun w hw => ?_
    obtain ⟨x, rfl⟩ := htraces w hw
    exact ⟨_, decompose_wholeTurn sampler x, _, _, rfl⟩

theorem counted_steeredBy (strategy : ExpansionStrategy) :
    (steeredBy sampler strategy).SubmitsCounted steering.session [.scalar 1] 0 1 none := by
  intro ts s plans hts hplans p hp w hw
  obtain ⟨s', hts'⟩ := traces_steeredBy sampler strategy
  obtain rfl := Except.ok.inj (congrArg Prod.fst (hts'.symm.trans hts))
  obtain ⟨t, ht, hplan⟩ := mem_of_mapM hplans hp
  obtain rfl := List.mem_singleton.mp ht
  obtain ⟨p', hp', htraces⟩ := argumentPlan_steeredBy sampler strategy
  obtain rfl := Except.ok.inj (hp'.symm.trans hplan)
  obtain ⟨x, y, rfl⟩ := htraces w hw
  exact counted_halfTurns x y

/-- The request succeeds under both strategies. -/
theorem derivative_steeredBy (strategy : ExpansionStrategy) :
    ∃ x, (((steeredBy sampler strategy).derivative [.scalar 1] 0 1 none).run.run
      (Binding.start steering.session)).1 = .ok x := by
  obtain ⟨s, hts⟩ := traces_steeredBy sampler strategy
  obtain ⟨p, hp, htraces⟩ := argumentPlan_steeredBy sampler strategy
  have hplans : [wholeTurn steeredAngle].mapM ((steeredBy sampler strategy).argumentPlan 0 1) =
      .ok [p] := by
    rw [List.mapM_cons, hp]
    rfl
  have hvalid : ∀ q ∈ [p], ∀ w ∈ q.traces,
      (steeredBy sampler strategy).backend.validate w = .ok () := by
    intro q hq w hw
    obtain rfl := List.mem_singleton.mp hq
    obtain ⟨x, y, rfl⟩ := htraces w hw
    exact validate_halfTurns sampler x y
  exact ⟨_, derivative_succeeds rfl ⟨rfl, rfl⟩ standard_steered rfl (.inl rfl)
    (Nat.le_of_ble_eq_true rfl) (counted_steeredBy sampler strategy) hts hplans
    (List.cons_ne_nil _ _) hvalid rfl⟩

end Bound

/-- Requests for derivatives by the shift rule return the same tensor under both strategies,
    when they succeed under both: the derivatives of the recorded circuit. -/
theorem strategies_agree {circuit : CircuitFunction ℝ} (hcircuit : circuit.Standard)
    (c : SimulatorConfig) (table : GateTable ℝ) (sampler : Sampler ℝ ρ) {register : ℕ}
    {config : BindingConfig ℝ} (hmethod : config.method = .parameterShift) {shots : Option Shots}
    (hshots : shots.getD config.shots = .analytic) {device gradient : Binding ℝ ExecutionCounts}
    (hdevice : Binding.make circuit (c.backend table sampler) register
      { config with strategy := .device } = .ok device)
    (hgradient : Binding.make circuit (c.backend table sampler) register
      { config with strategy := .gradient } = .ok gradient)
    {args : List (Argument ℝ)} {argument order : ℕ} (horder : order = 1 ∨ order = 2)
    (hcounted : device.SubmitsCounted c.session args argument order shots ∧
      gradient.SubmitsCounted c.session args argument order shots) {x y : Tensor ℝ}
    (hx : ((device.derivative args argument order shots).run.run
      (Binding.start c.session)).1 = .ok x)
    (hy : ((gradient.derivative args argument order shots).run.run
      (Binding.start c.session)).1 = .ok y) :
    x = y ∧ device.exactDerivative c.session args argument order shots = .ok x := by
  obtain rfl := eq_of_make hdevice
  obtain rfl := eq_of_make hgradient
  have hdeviceExact := derivative_eq_exact rfl ⟨rfl, hmethod⟩ hcircuit hshots horder hcounted.1 hx
  have hgradientExact :=
    derivative_eq_exact rfl ⟨rfl, hmethod⟩ hcircuit hshots horder hcounted.2 hy
  -- The strategy does not enter the derivatives of the recorded circuit.
  exact ⟨Except.ok.inj (hdeviceExact.symm.trans hgradientExact), hdeviceExact⟩

/-- The controlled rotation is such a circuit, and both requests for its derivative succeed. -/
theorem strategies_agree_steered : steered.Standard ∧
    ∀ sampler : Sampler ℝ Unit, ∃ device gradient x y,
      Binding.make steered (steering.backend ⟨#[]⟩ sampler) 2
        { (BindingConfig.standard : BindingConfig ℝ) with strategy := .device } = .ok device ∧
      Binding.make steered (steering.backend ⟨#[]⟩ sampler) 2
        { (BindingConfig.standard : BindingConfig ℝ) with strategy := .gradient } = .ok gradient ∧
      ((device.derivative [.scalar 1] 0 1 none).run.run
        (Binding.start steering.session)).1 = .ok x ∧
      ((gradient.derivative [.scalar 1] 0 1 none).run.run
        (Binding.start steering.session)).1 = .ok y ∧
      x = y ∧ device.exactDerivative steering.session [.scalar 1] 0 1 none = .ok x := by
  refine ⟨standard_steered, fun sampler => ?_⟩
  have hdevice := make_steeredBy sampler .device
  have hgradient := make_steeredBy sampler .gradient
  obtain ⟨x, hx⟩ := derivative_steeredBy sampler .device
  obtain ⟨y, hy⟩ := derivative_steeredBy sampler .gradient
  exact ⟨_, _, x, y, hdevice, hgradient, hx, hy,
    strategies_agree standard_steered steering ⟨#[]⟩ sampler rfl rfl hdevice hgradient (.inl rfl)
      ⟨counted_steeredBy sampler .device, counted_steeredBy sampler .gradient⟩ hx hy⟩

end Proofs

end CircuitGrad
