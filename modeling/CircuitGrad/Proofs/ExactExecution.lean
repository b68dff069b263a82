import CircuitGrad.Backend.Simulator
import CircuitGrad.Proofs.Dispatch
import CircuitGrad.Proofs.ExactKeys

/-! # Exact execution

    A submission of traces that a backend validates and executes succeeds: the
    checks on the way never fail then (`submit_succeeds`).  The state-vector
    backend executes all exact traces, with results that depend on nothing but
    the fingerprint, so its first submission of validated exact traces returns
    their results (`submit_simulated`).
-/

namespace CircuitGrad

variable {α σ : Type} [Scalar α]

/-- The traces of a family are executed, and have results of their own shape. -/
structure Backend.Serves (b : Backend α σ) (family : Set (Trace α))
    (result : Trace α → Tensor α) : Prop where
  reliable : b.Reliable family result
  executes : ∀ ts state, (∀ t ∈ ts, t ∈ family) → ∃ rs, (b.execute ts state).1 = .ok rs
  shaped   : ∀ t ∈ family, t.outputShape = .ok (result t).shape

namespace Proofs

open Execution (Ensures)

/-! ## Submissions that succeed -/

section Success

variable {b : Backend α σ} {family : Set (Trace α)} {result : Trace α → Tensor α}
  {ts : List (Trace α)} {jobs : List (Job α)}

theorem call_succeeds (hb : b.Serves family result) (hts : ∀ t ∈ ts, t ∈ family)
    (s : Session α σ) : (b.call ts).Ensures s fun r _ => r = .ok (ts.map result) := by
  unfold Ensures
  rw [perform_call]
  obtain ⟨rs, hrs⟩ := hb.executes ts s.device hts
  exact hrs.trans (congrArg Except.ok (hb.reliable.executes ts s.device rs hts hrs))

theorem calls_succeed (hb : b.Serves family result) (hjobs : ∀ job ∈ jobs, job.trace ∈ family)
    (s : Session α σ) : (jobs.mapM fun job => b.call [job.trace]).Ensures s fun r _ =>
      r = .ok (jobs.map fun job => [result job.trace]) := by
  induction jobs generalizing s with
  | nil => rfl
  | cons job jobs ih =>
    obtain ⟨hfirst, hrest⟩ := List.forall_mem_cons.mp hjobs
    rw [List.mapM_cons]
    refine (call_succeeds hb (List.forall_mem_singleton.mpr hfirst) s).bind ?_ nofun
    rintro _ s₁ ⟨⟩
    refine (ih hrest s₁).bind ?_ nofun
    rintro _ _ ⟨⟩
    rfl

theorem runJobs_succeeds (hb : b.Serves family result) (hjobs : ∀ job ∈ jobs, job.trace ∈ family)
    (s : Session α σ) : (b.runJobs jobs).Ensures s fun r _ =>
      r = .ok (jobs.map fun job => result job.trace) := by
  unfold Backend.runJobs
  split
  · next hempty =>
    obtain rfl := List.isEmpty_iff.mp hempty
    rfl
  · split
    · refine (call_succeeds hb (List.forall_mem_map.mpr hjobs) s).mono ?_
      rintro _ _ rfl
      rw [List.map_map]
      rfl
    · refine (calls_succeed hb hjobs s).bind ?_ nofun
      rintro _ _ ⟨⟩
      exact congrArg Except.ok (List.map_eq_flatMap ..).symm

theorem each_succeeds {ι : Type} {g : ι → Execution α σ Unit} (invariant : Session α σ → Prop)
    {items : List ι} (h : ∀ i ∈ items, ∀ s, invariant s →
      (g i).Ensures s fun r s' => r = .ok () ∧ invariant s') {s : Session α σ} (hs : invariant s) :
    (Execution.each g items).Ensures s fun r s' => r = .ok PUnit.unit ∧ invariant s' := by
  induction items generalizing s with
  | nil => exact ⟨rfl, hs⟩
  | cons i items ih =>
    obtain ⟨hfirst, hrest⟩ := List.forall_mem_cons.mp h
    rw [Execution.each_cons]
    exact (hfirst s hs).bind (fun _ _ h => ih hrest h.2) fun _ _ h => nomatch h.1

/-- A result of the shape of its trace is accepted. -/
theorem accept_succeeds {job : Job α} {r : Tensor α}
    (h : job.trace.outputShape = .ok r.shape) (s : Session α σ) :
    (b.accept job r).Ensures s fun r _ => r = .ok () ∧ True := by
  unfold Backend.accept
  rw [h]
  have hshape : Ensures (liftM (.ok r.shape : Except Error (List ℕ))) s fun shape _ =>
      shape = .ok r.shape := .lift rfl
  refine hshape.bind ?_ nofun
  rintro _ s' ⟨⟩
  dsimp only
  rw [if_neg (not_not.mpr rfl)]
  exact ⟨rfl, trivial⟩

/-- The jobs of a batch that is validated are executed and answer all slots. -/
theorem execution_succeeds (hb : b.Serves family result) (hts : ∀ t ∈ ts, t ∈ family)
    {memory : Fingerprint α → Option (Tensor α)} {slots : List (Slot α)}
    (hassigned : Assigned memory ts [] slots jobs)
    (hknown : ∀ t ∈ ts, ∀ r, memory t.fingerprint = some r → r = result t) (s : Session α σ) :
    Ensures (do
      let fresh ← b.runJobs jobs
      b.conclude slots jobs fresh) s fun r _ => r = .ok (ts.map result) := by
  have hjobs : ∀ job ∈ jobs, job.trace ∈ family :=
    fun job hjob => hts _ (hassigned.of_mem hjob).2.1
  have hanswers : slots.mapM (Backend.answer (jobs.map fun job => result job.trace).toArray) =
      .ok (ts.map result) :=
    hassigned.answers hknown fun job hjob t ht hkey =>
      hb.reliable.keyed _ (hjobs job hjob) t (hts t ht)
        ((hassigned.of_mem hjob).1.symm.trans hkey)
  refine (runJobs_succeeds hb hjobs s).bind ?_ nofun
  rintro _ s₁ ⟨⟩
  unfold Backend.conclude
  rw [if_neg (not_not.mpr (List.length_map _))]
  have haccepted : (Execution.each (fun p => b.accept p.1 p.2)
      (jobs.zip (jobs.map fun job => result job.trace))).Ensures s₁ fun r _ =>
        r = .ok PUnit.unit ∧ True := by
    refine each_succeeds (fun _ => True) (fun p hp s _ => ?_) trivial
    rw [← List.map_prod_left_eq_zip] at hp
    obtain ⟨job, hjob, rfl⟩ := List.mem_map.mp hp
    exact accept_succeeds (hb.shaped _ (hjobs job hjob)) s
  refine haccepted.bind ?_ fun _ _ h => nomatch h.1
  intro _ s₂ _
  unfold Ensures
  rw [Execution.perform_mapM_lift]
  exact hanswers

/-- A batch that is validated and can be executed gets its results. -/
theorem submit_succeeds (hb : b.Serves family result) (hts : ∀ t ∈ ts, t ∈ family)
    (hvalid : ∀ t ∈ ts, b.validate t = .ok ()) {s : Session α σ}
    (hs : s.Correct family result) :
    ((b.submit ts none).perform s).1 = .ok (ts.map result) := by
  show (b.submit ts none).Ensures s fun r _ => r = .ok (ts.map result)
  rw [Backend.submit_eq]
  have hvalidated : (Execution.each (fun t => liftM (b.validate t)) (overridden ts none)).Ensures s
      fun r s' => r = .ok PUnit.unit ∧ s' = s :=
    each_succeeds (· = s) (fun t ht _ hsame => .lift ⟨hvalid t ht, hsame⟩) rfl
  refine hvalidated.bind ?_ fun _ _ h => nomatch h.1
  rintro _ _ ⟨-, rfl⟩
  refine (ensures_assign _ [] _).bind ?_ ?_
  · rintro _ s₁ ⟨⟨slots, jobs, ⟨⟩, hassigned⟩, -⟩
    exact execution_succeeds hb hts hassigned
      (fun t ht r hr => (hs _ (Session.mem_of_lookup hr)).right t (hts t ht) rfl) s₁
  · rintro _ _ ⟨⟨_, _, ⟨⟩, -⟩, -⟩

end Success

/-! ## The state-vector backend -/

section Simulator

variable {ρ : Type} {c : SimulatorConfig} {table : GateTable ℝ} {sampler : Sampler ℝ ρ}
  {t : Trace ℝ} {ts : List (Trace ℝ)}

theorem simulate_eq_ok (ht : t.Exact) (sampler : Sampler ℝ ρ) :
    ∃ T, t.simulate sampler = .ok T ∧ t.outputShape = .ok T.shape := by
  obtain ⟨T, hT, hshape, -⟩ := simulate_assign ht sampler t.point
  rw [assign_point] at hT
  exact ⟨T, hT, by rw [hshape, traceOutputShape_eq ht.measurements ht.analytic]⟩

/-- Exact traces are executed, with results that depend on the fingerprint only. -/
theorem serves_simulator : (c.backend table sampler).Serves {t | t.Exact ∧ t.Counted}
    (resultOf (·.simulate sampler)) := by
  have hshaped : ∀ t : Trace ℝ, t.Exact →
      t.outputShape = .ok (resultOf (·.simulate sampler) t).shape := by
    intro t ht
    obtain ⟨T, hT, hshape⟩ := simulate_eq_ok ht sampler
    rw [resultOf_eq hT, hshape]
  refine ⟨⟨fun ts _ rs _ h => ?_, fun t ht shape hshape => ?_, fun t ht u hu hkey => ?_⟩,
    fun ts _ hts => ?_, fun t ht => hshaped t ht.1⟩
  · exact eq_map_of_mapM h fun _ _ _ hr => Eq.symm (resultOf_eq hr)
  · exact Except.ok.inj ((hshaped t ht.1).symm.trans hshape)
  · have hsame := simulate_eq_of_fingerprint_eq sampler ht.1 hu.1 ht.2 hu.2 hkey
    unfold resultOf
    simp only [hsame]
  · exact exists_mapM_eq_ok fun t ht => (simulate_eq_ok (hts t ht).1 sampler).imp fun _ h => h.1

theorem correct_fresh (family : Set (Trace ℝ)) (result : Trace ℝ → Tensor ℝ) :
    c.session.Correct family result := by
  intro e he
  obtain ⟨_, _, _, _ | _, _⟩ := c <;> cases he

/-- A first submission of exact traces, if it succeeds, returns their results. -/
theorem submit_eq_map (hts : ∀ t ∈ ts, t.Exact ∧ t.Counted) {rs : List (Tensor ℝ)}
    (h : (((c.backend table sampler).submit ts none).perform c.session).1 = .ok rs) :
    rs = ts.map (resultOf (·.simulate sampler)) := by
  have hfresh : (c.session.withLog ([] : List (Trace ℝ))).Correct {t | t.Exact ∧ t.Counted}
      (resultOf (·.simulate sampler)) := correct_fresh (c := c) _ _
  have hserves : (c.backend table sampler).Serves {t | t.Exact ∧ t.Counted}
      (resultOf (·.simulate sampler)) := serves_simulator
  have hsubmitted : ∀ t ∈ overridden ts none, t ∈ {t : Trace ℝ | t.Exact ∧ t.Counted} := hts
  rw [submit_withLog _ ts none c.session []] at h
  exact (ensures_submit hserves.reliable hsubmitted hfresh).right rs h

/-- It succeeds if all traces are validated. -/
theorem submit_simulated (hts : ∀ t ∈ ts, t.Exact ∧ t.Counted)
    (hvalid : ∀ t ∈ ts, (c.backend table sampler).validate t = .ok ()) :
    (((c.backend table sampler).submit ts none).perform c.session).1 =
      .ok (ts.map (resultOf (·.simulate sampler))) :=
  submit_succeeds serves_simulator hts hvalid (correct_fresh _ _)

end Simulator

end Proofs

end CircuitGrad
