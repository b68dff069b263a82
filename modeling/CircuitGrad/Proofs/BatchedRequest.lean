import CircuitGrad.Proofs.PipelineDerivative
import CircuitGrad.Proofs.Rebinding

/-! # Batched requests

    A request constructs one trace for each batch index, plans each of them,
    submits all plans together and puts the results together
    (`run_ok_iff`).  What is constructed depends neither on the plans nor on the
    session of the backend, and the session is left alone until the plans are
    complete.  When the circuit function issues standard operations and
    measurements with exact derivatives, so do all constructed traces, whether
    they were recorded or moved (`admissible_of_traces`).
-/

namespace CircuitGrad

/-- What was issued on a register of `n` wires are standard operations and measurements with
    exact derivatives. -/
structure Recording.Standard (r : Recording ℝ) (n : ℕ) : Prop where
  register     : r.register = n
  operations   : ∀ op ∈ r.operations, op.Standard
  measurements : ∀ m ∈ r.measurements, m.Differentiable ∧ m.HasTerms

/-- A circuit function that issues nothing else, whatever its arguments. -/
def CircuitFunction.Standard (f : CircuitFunction ℝ) : Prop :=
  ∀ args n r, f args (.start n) = .ok r → r.Standard n

namespace Binding

variable {α σ : Type} [Scalar α]

/-- The trace to execute for one argument list; given shots override those of the binding. -/
def traceAt (b : Binding α σ) (shots : Option Shots) (args : List (Argument α)) :
    Request α σ (Trace α) := do
  let t ← b.construct args
  return shots.elim t t.withShots

/-- The trace at each batch index. -/
def traces (b : Binding α σ) (args : List (Argument α)) (shots : Option Shots) :
    Request α σ (List (Trace α)) := do
  (← Argument.unbatch args).mapM (b.traceAt shots)

/-- What a binding constructs: traces of standard operations on its register, with
    differentiable measurements. -/
structure Constructs (b : Binding ℝ σ) (t : Trace ℝ) : Prop where
  placed       : t.Placed
  measurements : ∀ m ∈ t.measurements, m.Differentiable ∧ m.HasTerms
  nonempty     : t.register ≠ 0
  register     : t.register = b.register
  shots        : t.shots = b.config.shots

end Binding

namespace Proofs

variable {σ : Type} {b : Binding ℝ σ} {args : List (Argument ℝ)} {s s' : BindingState ℝ σ}

/-! ## Standard recordings -/

section Recordings

variable {n : ℕ} {r r' : Recording ℝ}

theorem standard_start (n : ℕ) : (Recording.start n : Recording ℝ).Standard n :=
  ⟨rfl, fun _ h => absurd h List.not_mem_nil, fun _ h => absurd h List.not_mem_nil⟩

theorem standard_apply (hr : r.Standard n) {g : StandardGate} {params : List (Jet ℝ)}
    {wires : List ℕ} (h : r.apply g.spec params wires = .ok r') : r'.Standard n := by
  obtain ⟨_, -, h⟩ := bind_eq_ok h
  obtain ⟨op, hop, h⟩ := bind_eq_ok h
  obtain rfl := Except.ok.inj h
  refine ⟨hr.register, fun op' hop' => ?_, hr.measurements⟩
  rcases List.mem_append.mp hop' with hop' | hop'
  · exact hr.operations op' hop'
  · obtain rfl := List.mem_singleton.mp hop'
    obtain ⟨-, -, -, rfl⟩ := (make_operation_iff (wireCount_ne_zero g)).mp hop
    exact ⟨g, hop⟩

theorem standard_measure (hr : r.Standard n) {m : Measurement ℝ} (hm : m.Differentiable)
    (hterms : m.HasTerms) (h : r.measure m = .ok r') : r'.Standard n := by
  obtain ⟨_, -, h⟩ := bind_eq_ok h
  obtain rfl := Except.ok.inj h
  refine ⟨hr.register, hr.operations, fun m' hm' => ?_⟩
  rcases List.mem_append.mp hm' with hm' | hm'
  · exact hr.measurements m' hm'
  · obtain rfl := List.mem_singleton.mp hm'
    exact ⟨hm, hterms⟩

end Recordings

/-! ## Constructed traces -/

section Constructed

variable {t u : Trace ℝ}

theorem eq_assign_of_withValues {values : List ℝ} (h : t.withValues values = .ok u) :
    ∃ v, u = t.assign v := by
  by_cases hlength : values.length = t.paramCount
  · rw [withValues_eq_assign t values hlength] at h
    exact ⟨_, (Except.ok.inj h).symm⟩
  · unfold Trace.withValues at h
    rw [if_pos hlength] at h
    cases h

theorem eq_assign_of_moved {r : RecordedTrace ℝ} (h : r.moved? args = some t) :
    ∃ v, t = r.trace.assign v := by
  unfold RecordedTrace.moved? at h
  obtain ⟨_, -, h⟩ := Option.bind_eq_some_iff.mp h
  obtain ⟨changes, -, h⟩ := Option.bind_eq_some_iff.mp h
  obtain ⟨values, -, h⟩ := Option.bind_eq_some_iff.mp h
  cases hvalues : r.trace.withValues values with
  | error e =>
    rw [hvalues] at h
    cases h
  | ok u =>
    rw [hvalues] at h
    obtain rfl := Option.some.inj h
    exact eq_assign_of_withValues hvalues

theorem constructs_assign (h : b.Constructs t) (v : ℕ → ℝ) : b.Constructs (t.assign v) :=
  ⟨⟨valid_assign h.placed.valid v,
    forall_mem_assignAll (P := Operation.Standard) (fun _ v hop => standard_assign hop v)
      h.placed.standard v⟩, h.measurements, h.nonempty, h.register, h.shots⟩

theorem constructs_of_record (hf : b.circuit.Standard) (h : freshTrace b args = .ok t) :
    b.Constructs t := by
  obtain ⟨⟨traced, layout⟩, -, h⟩ := bind_eq_ok h
  obtain ⟨r, hr, h⟩ := bind_eq_ok h
  obtain ⟨u, hu, h⟩ := bind_eq_ok h
  obtain rfl := Except.ok.inj h
  obtain ⟨hne, rfl, hvalid⟩ := make_eq_ok_iff.mp hu
  have hstandard := hf traced _ r hr
  exact ⟨⟨⟨hvalid.measured, hvalid.operations, hvalid.measurements⟩, hstandard.operations⟩,
    hstandard.measurements, hne, hstandard.register, rfl⟩

/-- The session is untouched, and the trace kept for later requests is a constructed one. -/
structure Kept (b : Binding ℝ σ) (session : Session ℝ σ) (s : BindingState ℝ σ) : Prop where
  session  : s.session = session
  recorded : ∀ r, s.recorded = some r → b.Constructs r.trace

theorem kept_start (b : Binding ℝ σ) (session : Session ℝ σ) :
    Kept b session (Binding.start session) :=
  ⟨rfl, fun r hr => by cases hr⟩

theorem construct_kept (hf : b.circuit.Standard) {session : Session ℝ σ} (hs : Kept b session s)
    (h : (b.construct args).run.run s = (.ok t, s')) : Kept b session s' ∧ b.Constructs t := by
  by_cases hmutable : b.config.mutable = true
  · unfold Binding.construct at h
    rw [if_pos hmutable, record_run] at h
    obtain ⟨hfresh, rfl⟩ := Prod.mk.inj h
    exact ⟨⟨hs.session, hs.recorded⟩, constructs_of_record hf hfresh⟩
  · obtain ⟨u, hmoved, hrun⟩ | ⟨-, ⟨u, hfresh, hrun⟩ | ⟨e, -, hrun⟩⟩ :=
      construct_cases (Bool.eq_false_iff.mpr hmutable) args s
    all_goals
      rw [hrun] at h
      cases h
    · obtain ⟨r, hr, hmoved⟩ := Option.bind_eq_some_iff.mp hmoved
      obtain ⟨v, rfl⟩ := eq_assign_of_moved hmoved
      exact ⟨hs, constructs_assign (hs.recorded r hr) v⟩
    · have hu := constructs_of_record hf hfresh
      refine ⟨⟨hs.session, fun r hr => ?_⟩, hu⟩
      obtain rfl := Option.some.inj hr
      exact hu

end Constructed

/-! ## Traces and plans of a request -/

section Planned

variable {shots : Option Shots} {plan : Trace ℝ → Except Error (Plan ℝ)} {ts : List (Trace ℝ)}
  {plans : List (Plan ℝ)}

/-- With exact evaluation, all traces of a request can be differentiated. -/
theorem admissible_of_traces (hf : b.circuit.Standard)
    (hshots : shots.getD b.config.shots = .analytic) {session : Session ℝ σ}
    (hs : Kept b session s) (h : (b.traces args shots).run.run s = (.ok ts, s')) :
    s'.session = session ∧ ∀ t ∈ ts, t.Admissible ∧ t.register = b.register := by
  obtain ⟨owns, s₁, howns, hmap⟩ := bind_run_ok h
  obtain ⟨-, rfl⟩ := lift_run_ok howns
  have hstep : ∀ own s t s', Kept b session s → (b.traceAt shots own).run.run s = (.ok t, s') →
      Kept b session s' ∧ t.Admissible ∧ t.register = b.register := by
    intro own s t s' hs ht
    obtain ⟨u, s₂, hu, ht⟩ := bind_run_ok ht
    obtain ⟨hs₂, hconstructed⟩ := construct_kept hf hs hu
    cases ht
    refine ⟨hs₂, ?_⟩
    cases shots with
    | none =>
      exact ⟨⟨hconstructed.placed, hconstructed.measurements, hconstructed.shots.trans hshots,
        hconstructed.nonempty⟩, hconstructed.register⟩
    | some given =>
      have hvalid := hconstructed.placed.valid
      exact ⟨⟨⟨⟨hvalid.measured, hvalid.operations, hvalid.measurements⟩,
        hconstructed.placed.standard⟩, hconstructed.measurements, hshots, hconstructed.nonempty⟩,
        hconstructed.register⟩
  obtain ⟨hs', hts⟩ := mapM_run_ok hstep hs hmap
  exact ⟨hs'.session, hts⟩

/-- The traces of a request are constructed, then their plans are made. -/
theorem plans_run_ok_iff {owns : List (List (Argument ℝ))}
    (howns : Argument.unbatch args = .ok owns) :
    (owns.mapM fun own => do
      let t ← b.construct own
      plan (shots.elim t t.withShots)).run.run s = (.ok plans, s') ↔
    ∃ ts, (b.traces args shots).run.run s = (.ok ts, s') ∧ ts.mapM plan = .ok plans := by
  have hsplit : (fun own => do
      let t ← b.construct own
      liftM (plan (shots.elim t t.withShots))) =
      fun own => ((b.traceAt shots own >>= fun t => liftM (plan t)) : Request ℝ σ (Plan ℝ)) := by
    funext own
    simp [Binding.traceAt]
  have htraces : (b.traces args shots).run.run s =
      (owns.mapM (b.traceAt shots)).run.run s := by
    unfold Binding.traces
    rw [howns]
    rfl
  rw [hsplit, htraces]
  exact mapM_bind_run_ok_iff

/-- What a successful request is made of. -/
theorem run_ok_iff {x : Tensor ℝ} : ((b.run args shots plan).run.run s).1 = .ok x ↔
    ∃ size ts s₁ plans results outputs, Argument.commonBatchSize args = .ok size ∧
      (b.traces args shots).run.run s = (.ok ts, s₁) ∧ ts.mapM plan = .ok plans ∧
      (Execution.perform (b.backend.submit (plans.flatMap (·.traces)) none) s₁.session).1 =
        .ok results ∧
      PlanBatch.combine ⟨plans⟩ results = .ok outputs ∧ Tensor.ofBatch size outputs = .ok x := by
  have hexecute : ∀ (traces : List (Trace ℝ)) (s : BindingState ℝ σ),
      ((b.execute traces).run.run s).1 =
        (Execution.perform (b.backend.submit traces none) s.session).1 := fun _ _ => rfl
  constructor
  · intro h
    obtain ⟨size, s₀, hcommon, hbatch⟩ := bind_run_ok (Prod.ext h rfl)
    obtain ⟨owns, s₀', howns, hplanned⟩ := bind_run_ok hbatch
    obtain ⟨plans, s₁, hplans, hsubmitted⟩ := bind_run_ok hplanned
    obtain ⟨results, s₂, hresults, hfolded⟩ := bind_run_ok hsubmitted
    obtain ⟨outputs, s₃, hcombined, hx⟩ := bind_run_ok hfolded
    obtain ⟨hsize, rfl⟩ := lift_run_ok hcommon
    obtain ⟨hunbatch, rfl⟩ := lift_run_ok howns
    obtain ⟨houtputs, rfl⟩ := lift_run_ok hcombined
    obtain ⟨ts, hts, hplans⟩ := (plans_run_ok_iff hunbatch).mp hplans
    refine ⟨size, ts, s₁, plans, results, outputs, hsize, hts, hplans, ?_, houtputs, ?_⟩
    · rw [← hexecute]
      exact congrArg Prod.fst hresults
    · rcases size with _ | n
      · rcases outputs with _ | ⟨output, rest⟩
        · exact (lift_run_ok hx).1
        · exact congrArg Prod.fst hx
      · exact (lift_run_ok hx).1
  · rintro ⟨size, ts, s₁, plans, results, outputs, hsize, hts, hplans, hresults, houtputs, hx⟩
    obtain ⟨owns, _, howns, -⟩ := bind_run_ok hts
    obtain ⟨hunbatch, -⟩ := lift_run_ok howns
    have hplanned := (plans_run_ok_iff hunbatch).mpr ⟨ts, hts, hplans⟩
    have hexecuted : (b.execute (PlanBatch.mk plans).traces).run.run s₁ = (.ok results, _) :=
      Prod.ext ((hexecute _ _).trans hresults) rfl
    unfold Binding.run
    rw [bind_run_of_ok (by rw [lift_run, hsize]), bind_run_of_ok (by rw [lift_run, hunbatch]),
      bind_run_of_ok hplanned]
    dsimp only
    rw [bind_run_of_ok hexecuted, bind_run_of_ok (by rw [lift_run, houtputs])]
    rcases size with _ | n
    · rcases outputs with _ | ⟨output, rest⟩
      · cases hx
      · exact hx
    · exact (congrArg Prod.fst (lift_run _ _)).trans hx

end Planned

end Proofs

end CircuitGrad
