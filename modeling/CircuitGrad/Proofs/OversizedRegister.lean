import CircuitGrad.Backend.Simulator
import CircuitGrad.Proofs.ArgumentSensitivity
import CircuitGrad.Proofs.Dispatch

/-! # Registers beyond the simulator

    A backend may offer more wires than a state vector can have.  A trace on
    such a register is planned and dispatched like any other, and fails when it
    is executed, so a request about it succeeds only when nothing is executed
    (`submit_oversized`).  For a derivative this means that no parameter is
    trainable: shift rules of standard gates have terms, so the plan of a
    derivative is not empty otherwise (`derivativePlan_oversized`).
-/

namespace CircuitGrad

/-- A well-formed trace of standard operations on more wires than a state vector has. -/
structure Trace.Oversized (t : Trace ℝ) : Prop where
  placed  : t.Placed
  exceeds : StateVector.maxWires < t.register

/-- The traces of a plan for an oversized trace: all are oversized, and as long as
    something is trainable there are some. -/
structure Plan.Oversized (p : Plan ℝ) (t : Trace ℝ) : Prop where
  traces   : ∀ w ∈ p.traces, w.Oversized ∧ (t.trainable ≠ [] → w.trainable ≠ [])
  nonempty : t.trainable ≠ [] → p.traces ≠ []

namespace Proofs

variable {α ρ σ : Type} {t u : Trace ℝ} {p q : Plan ℝ}

/-! ## Oversized traces -/

theorem trainable_ne_nil_iff (t : Trace ℝ) : t.trainable ≠ [] ↔ t.trainableIndices ≠ [] := by
  rw [not_iff_not, ← List.length_eq_zero_iff, ← List.length_eq_zero_iff, length_trainableIndices]

/-- A trace with another value for a parameter. -/
theorem eq_assign_of_withParam {i : ℕ} {x : ℝ} (h : t.withParam i x = .ok u) :
    ∃ v, u = t.assign v := by
  cases hlocation : t.paramLocation? i with
  | none =>
    unfold Trace.withParam at h
    rw [hlocation] at h
    cases h
  | some location =>
    have hassign := withParam_assign hlocation t.point x
    rw [assign_point] at hassign
    exact ⟨_, Except.ok.inj (h.symm.trans hassign)⟩

theorem oversized_assign (h : t.Oversized) (v : ℕ → ℝ) : (t.assign v).Oversized :=
  ⟨⟨valid_assign h.placed.valid v,
    forall_mem_assignAll (P := Operation.Standard) (fun _ v hop => standard_assign hop v)
      h.placed.standard v⟩, h.exceeds⟩

theorem oversized_withMeasurements {ms : List (Measurement ℝ)} (h : t.Oversized)
    (hu : t.withMeasurements ms = .ok u) : u.Oversized := by
  obtain ⟨rfl, hvalid⟩ := check_eq_ok_iff.mp hu
  exact ⟨⟨hvalid, h.placed.standard⟩, h.exceeds⟩

theorem oversized_expands (h : t.Oversized) (hu : Expands t u) : u.Oversized := by
  refine ⟨hu.placed h.placed, ?_⟩
  rw [hu.same]
  exact h.exceeds

/-! ## Plans for oversized traces -/

theorem oversized_identity (h : t.Oversized) (hu : Expands t u) :
    (Plan.identity u).Oversized t := by
  refine ⟨fun w hw => ?_, fun _ => List.cons_ne_nil _ _⟩
  obtain rfl := List.mem_singleton.mp hw
  exact ⟨oversized_expands h hu, mt (trainable_eq_nil_iff hu).mp⟩

theorem oversized_andThen {stage : Trace ℝ → Except Error (Plan ℝ)} (hp : p.Oversized t)
    (hstage : ∀ w ∈ p.traces, w.Oversized → ∀ r, stage w = .ok r → r.Oversized w)
    (h : p.andThen stage = .ok q) : q.Oversized t := by
  refine ⟨fun w hw => ?_, fun htrains => ?_⟩
  · obtain ⟨v, hv, r, hr, hw⟩ := (mem_andThen_iff h).mp hw
    obtain ⟨hover, htrained⟩ := hp.traces v hv
    obtain ⟨hover', htrained'⟩ := (hstage v hv hover r hr).traces w hw
    exact ⟨hover', htrained' ∘ htrained⟩
  · obtain ⟨v, hv⟩ := List.exists_mem_of_ne_nil _ (hp.nonempty htrains)
    obtain ⟨hover, htrained⟩ := hp.traces v hv
    obtain ⟨r, hr⟩ := ok_of_andThen h hv
    obtain ⟨w, hw⟩ := List.exists_mem_of_ne_nil _
      ((hstage v hv hover r hr).nonempty (htrained htrains))
    exact List.ne_nil_of_mem ((mem_andThen_iff h).mpr ⟨v, hv, r, hr, hw⟩)

section Stages

variable {d : Differentiator ℝ} {c : ShiftConfig ℝ} {more : ℕ}

/-- Shifted traces are oversized, and every rule has a term to shift by. -/
theorem shifts_oversized (ht : t.Oversized) (hparameters : c.parameters = none)
    (hplan : ParameterShift.plan t c = .ok p) : p.Oversized t := by
  obtain ⟨selected, vs, base, rules, shifted, shape, hselected, -, hbase, -, hrules, hshifted,
    htraces, -⟩ := plan_eq_ok hplan
  have hover : base.Oversized := by
    split at hbase
    · exact Except.ok.inj hbase ▸ ht
    · exact oversized_withMeasurements ht hbase
  refine ⟨fun w hw => ⟨?_, ?_⟩, fun htrains => ?_⟩
  · rw [htraces] at hw
    rcases List.mem_append.mp hw with hw | hw
    · obtain ⟨own, hown, hw⟩ := List.mem_flatten.mp hw
      obtain ⟨e, -, hown⟩ := mem_of_mapM hshifted hown
      obtain ⟨term, -, hw⟩ := mem_of_mapM hown hw
      obtain ⟨v, rfl⟩ := eq_assign_of_withParam hw
      exact oversized_assign hover v
    · split at hw
      · exact List.mem_singleton.mp hw ▸ hover
      · cases hw
  · rw [trainable_ne_nil_iff, trainable_ne_nil_iff,
      (resembles_of_mem_shifts hplan hw).trainableIndices]
    exact id
  · rw [trainable_ne_nil_iff] at htrains
    rw [hparameters] at hselected
    obtain rfl : t.trainableIndices = selected := Except.ok.inj hselected
    obtain ⟨i, is, his⟩ := List.exists_cons_of_ne_nil htrains
    rw [his] at hrules hshifted
    obtain ⟨rule, rest, hrule, -, rfl⟩ := mapM_cons_eq_ok hrules
    obtain ⟨own, others, hown, -, rfl⟩ := mapM_cons_eq_ok hshifted
    have hterms := terms_ne_nil_of_ruleAt ht.placed.standard ht.placed.valid.operations
      (ruleAt_of_shiftRule ht.placed.standard hrule)
    have hownNe : own ≠ [] := ne_nil_of_length_eq (length_of_mapM hown) hterms
    rw [htraces, List.flatten_cons]
    simp [hownNe]

theorem nested_oversized (hmethod : d.method = .parameterShift c)
    (hparameters : c.parameters = none) (ht : t.Oversized) (hp : d.nested more t = .ok p) :
    p.Oversized t := by
  have hfirst : ∀ w : Trace ℝ, w.Oversized → ∀ r, d.firstOrder w = .ok r → r.Oversized w := by
    intro w hw r hr
    unfold Differentiator.firstOrder at hr
    rw [hmethod] at hr
    exact shifts_oversized hw hparameters hr
  induction more generalizing t p with
  | zero => exact hfirst t ht p hp
  | succ more ih =>
    obtain ⟨q, hq, hp⟩ := bind_eq_ok hp
    exact oversized_andThen (hfirst t ht q hq) (fun w _ hw r hr => ih hw hr) hp

theorem derivative_oversized (hcost : d.cost = trainableOperations)
    (hmethod : d.method = .parameterShift c) (hparameters : c.parameters = none)
    (ht : t.Oversized) (hp : d.derivative t (more + 1) = .ok p) : p.Oversized t := by
  obtain ⟨u, selected, hexpand, hselected, -, hp⟩ := derivative_succ_eq_ok hp
  have hexpands : Expands t u := by
    unfold Differentiator.expand at hexpand
    rw [hcost] at hexpand
    exact (Expands.of_expandDifferentiable ht.placed hexpand).1
  have htrained : t.trainable ≠ [] → u.trainable ≠ [] := mt (trainable_eq_nil_iff hexpands).mp
  split at hp
  · next hempty =>
    obtain ⟨shape, -, hp⟩ := bind_eq_ok hp
    obtain rfl := Except.ok.inj hp
    refine ⟨fun w hw => absurd hw List.not_mem_nil, fun htrains => ?_⟩
    rw [hmethod, show GradientMethod.parameters (.parameterShift c) = none from hparameters]
      at hselected
    obtain rfl : u.trainableIndices = selected := Except.ok.inj hselected
    exact absurd (List.isEmpty_iff.mp hempty)
      ((trainable_ne_nil_iff u).mp (htrained htrains))
  · have hnested := nested_oversized hmethod hparameters (oversized_expands ht hexpands) hp
    exact ⟨fun w hw => ((hnested.traces w hw).imp_right fun h => h ∘ htrained),
      hnested.nonempty ∘ htrained⟩

theorem decompositionPlan_oversized {b : Backend ℝ σ} (ht : t.Oversized)
    (hp : b.decompositionPlan t = .ok p) : p.Oversized t := by
  obtain ⟨u, hu, hp⟩ := bind_eq_ok hp
  obtain rfl := Except.ok.inj hp
  exact oversized_identity ht (.of_decompose ht.placed hu)

theorem split_oversized {c : Capabilities} (ht : t.Admissible)
    (hexceeds : StateVector.maxWires < t.register) (hp : t.splitFor c = .ok p) :
    p.Oversized t := by
  refine ⟨fun w hw => ?_, fun _ => ?_⟩
  · have hvalid := valid_of_mem_split ht.placed.valid hp hw
    obtain ⟨hsame, -⟩ := of_mem_split ht hp hw
    rw [hsame] at hvalid ⊢
    exact ⟨⟨⟨hvalid, ht.placed.standard⟩, hexceeds⟩, id⟩
  · rcases parts_of_splitFor hp with rfl | ⟨shares, parts, hshared, hparts, rfl⟩
    · exact List.cons_ne_nil _ _
    · obtain ⟨part, hpart⟩ := exists_part ht.placed.valid (fun m hm => (ht.measurements m hm).2)
        hshared hparts
      exact List.ne_nil_of_mem (List.mem_map_of_mem hpart)

variable {b : Binding ℝ σ}

theorem pipeline_oversized (hd : b.differentiator = some d)
    (hcost : d.cost = trainableOperations) (hmethod : d.method = .parameterShift c)
    (hparameters : c.parameters = none) (ht : t.Admissible)
    (hexceeds : StateVector.maxWires < t.register)
    (hmain : (b.pipeline (more + 1)).apply t = .ok p) : p.Oversized t := by
  obtain ⟨parts, first, second, hparts, -, htraces, hsecond, hthird⟩ := pipeline_eq_ok hd hmain
  have hsplit := split_oversized ht hexceeds hparts
  have hfirst : first.Oversized t := ⟨by rw [htraces]; exact hsplit.traces,
    by rw [htraces]; exact hsplit.nonempty⟩
  have hderivative := oversized_andThen hfirst
    (fun w _ hw r hr => derivative_oversized hcost hmethod hparameters hw hr) hsecond
  exact oversized_andThen hderivative (fun w _ hw r hr => decompositionPlan_oversized hw hr) hthird

/-- The plan of a derivative of an oversized trace executes oversized traces, and some if
    anything is trainable. -/
theorem derivativePlan_oversized (hd : b.differentiator = some d)
    (hcost : d.cost = trainableOperations) (hmethod : d.method = .parameterShift c)
    (hparameters : c.parameters = none) (ht : t.Admissible)
    (hexceeds : StateVector.maxWires < t.register) {r : InputRange} {order : ℕ}
    (horder : order ≠ 0) (hplan : b.derivativePlan d t r order = .ok p) : p.Oversized t := by
  obtain ⟨u, hprepared, hplan⟩ := bind_eq_ok hplan
  obtain ⟨hexpands, -⟩ := expands_of_prepare hcost ht.placed hprepared
  have htrained : t.trainable ≠ [] → u.trainable ≠ [] := mt (trainable_eq_nil_iff hexpands).mp
  have hexceeds' : StateVector.maxWires < u.register := by
    rw [hexpands.same]
    exact hexceeds
  have hpipeline : ∀ k, k ≠ 0 → ∀ q, (b.pipeline k).apply u = .ok q → q.Oversized u := by
    intro k hk q hq
    obtain ⟨more, rfl⟩ := Nat.exists_eq_succ_of_ne_zero hk
    exact pipeline_oversized hd hcost hmethod hparameters (admissible_of_expands hexpands ht)
      hexceeds' hq
  have hover : p.Oversized u := by
    obtain ⟨main, hmain, hdirect, hcurved⟩ := plan_cases hplan
    have hmain := hpipeline order horder main hmain
    by_cases hsimple : order = 1 ∨ u.trainable.all (·.isAffine) = true
    · obtain rfl := hdirect hsimple
      exact ⟨hmain.traces, hmain.nonempty⟩
    · obtain ⟨first, hfirst, rfl⟩ := hcurved hsimple
      have hfirst := hpipeline 1 one_ne_zero first hfirst
      refine ⟨?_, fun htrains => ?_⟩
      · rw [traces_both]
        exact List.forall_mem_append.mpr ⟨hmain.traces, hfirst.traces⟩
      · rw [traces_both]
        exact List.append_ne_nil_of_left_ne_nil (hmain.nonempty htrains) _
  exact ⟨fun w hw => (hover.traces w hw).imp_right fun h => h ∘ htrained,
    hover.nonempty ∘ htrained⟩

end Stages

/-! ## Execution -/

theorem simulate_oversized (sampler : Sampler ℝ ρ) (h : StateVector.maxWires < t.register) :
    ∃ e, t.simulate sampler = .error e := by
  have hcond : (t.register = 0 || t.register > StateVector.maxWires) = true := by simp [h]
  unfold Trace.simulate Simulation.results Simulation.finalState StateVector.zero
  rw [if_pos hcond]
  exact ⟨_, rfl⟩

section Submission

variable {β γ : Type} {c : SimulatorConfig} {table : GateTable ℝ} {sampler : Sampler ℝ ρ}
  {ts : List (Trace ℝ)} {jobs : List (Job ℝ)}

open Execution (Ensures)

/-- The computation does not succeed. -/
def Fails [Scalar α] (x : Execution α σ β) (s : Session α σ) : Prop :=
  x.Ensures s fun r _ => ∃ e, r = .error e

theorem Fails.bind [Scalar α] {x : Execution α σ β} {s : Session α σ} (hx : Fails x s)
    (f : β → Execution α σ γ) : Fails (x >>= f) s :=
  Ensures.bind hx (fun _ _ h => by cases h; contradiction) fun e _ _ => ⟨e, rfl⟩

theorem lookup_fresh (c : SimulatorConfig) (key : Fingerprint ℝ) :
    c.session.lookup key = none := by
  obtain ⟨_, _, _, _ | _, _⟩ := c <;> rfl

theorem call_oversized (hne : ts ≠ []) (h : ∀ t ∈ ts, StateVector.maxWires < t.register)
    (s : Session ℝ ExecutionCounts) : Fails ((c.backend table sampler).call ts) s := by
  obtain ⟨t, rest, rfl⟩ := List.exists_cons_of_ne_nil hne
  obtain ⟨e, he⟩ := simulate_oversized sampler (h t List.mem_cons_self)
  unfold Fails Ensures
  rw [perform_call]
  refine ⟨e, ?_⟩
  show (t :: rest).mapM (·.simulate sampler) = _
  rw [List.mapM_cons, he]
  rfl

theorem runJobs_oversized (hne : jobs ≠ [])
    (h : ∀ job ∈ jobs, StateVector.maxWires < job.trace.register)
    (s : Session ℝ ExecutionCounts) : Fails ((c.backend table sampler).runJobs jobs) s := by
  obtain ⟨job, rest, rfl⟩ := List.exists_cons_of_ne_nil hne
  unfold Backend.runJobs
  rw [if_neg (by simp)]
  split
  · exact call_oversized (by simp) (List.forall_mem_map.mpr h) s
  · -- One by one, the first job fails.
    have hfirst : Fails ((c.backend table sampler).call [job.trace]) s :=
      call_oversized (List.cons_ne_nil job.trace []) (by simpa using h job List.mem_cons_self) s
    rw [List.mapM_cons]
    exact (hfirst.bind _).bind _

/-- Oversized traces are not executed, so the submission of some fails. -/
theorem submit_oversized (hne : ts ≠ []) (h : ∀ t ∈ ts, StateVector.maxWires < t.register) :
    Fails ((c.backend table sampler).submit ts none) c.session := by
  have hfailed (e : Error) :
      ∃ e', (.error e : Except Error (List (Tensor ℝ))) = .error e' := ⟨e, rfl⟩
  unfold Fails
  rw [Backend.submit_eq]
  have hvalidated (s : Session ℝ ExecutionCounts) :
      (Execution.each (fun t => liftM ((c.backend table sampler).validate t))
        (overridden ts none)).Ensures s fun _ s' => s' = s := by
    refine .each (· = s) rfl ?_
    rintro t - _ rfl
    exact .lift rfl
  refine (hvalidated c.session).bind ?_ fun e _ _ => hfailed e
  intro _ s₀ hs₀
  subst hs₀
  refine (ensures_assign _ [] c.session).bind ?_ fun e _ _ => hfailed e
  rintro _ s₁ ⟨⟨slots, jobs, ⟨⟩, hassigned⟩, -⟩
  have hjobs : ∀ job ∈ jobs, StateVector.maxWires < job.trace.register :=
    fun job hjob => h _ (hassigned.of_mem hjob).2.1
  have hjobsNe : jobs ≠ [] := by
    -- Nothing is known yet, so the first trace is a job.
    obtain ⟨t, rest, rfl⟩ := List.exists_cons_of_ne_nil hne
    cases hassigned with
    | shared hfound _ => cases hfound
    | known hknown _ => cases (lookup_fresh c _).symm.trans hknown
    | job _ _ _ => exact List.cons_ne_nil _ _
  exact (runJobs_oversized hjobsNe hjobs s₁).bind _

end Submission

end Proofs

end CircuitGrad
