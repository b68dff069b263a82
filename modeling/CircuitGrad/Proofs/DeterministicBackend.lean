import CircuitGrad.Proofs.ExactExecution
import CircuitGrad.Proofs.ReturnedResults

/-! # Deterministic backends

    When the outcome of every trace is fixed, and no two traces with different
    results share a fingerprint, the session does not matter: whatever was
    submitted before, a submission succeeds just when its traces are validated
    and each of them has a result, and then returns those results
    (`submit_eq_ok_iff`).

    The invariant is that every cached result is that of some trace with its
    fingerprint (`Settled`).  Executing may fail for some traces of the family,
    so the invariant of reliable backends, which speaks of the result of every
    trace, does not apply until the traces are known to have results
    (`serves_of_deterministic`).
-/

namespace CircuitGrad

variable {α σ : Type} [Scalar α]

/-- What executing the trace gives, and has the shape that the trace calls for. -/
def HasResult (outcome : Trace α → Except Error (Tensor α)) (t : Trace α) (r : Tensor α) : Prop :=
  outcome t = .ok r ∧ Suits t r

/-- The result of a trace that has one. -/
def valueOf (outcome : Trace α → Except Error (Tensor α)) (t : Trace α) : Tensor α :=
  (outcome t).toOption.getD (.zeros [])

/-- For the traces of a family, executing some of them succeeds just when each of them has an
    outcome, which depends neither on the state of the backend nor on the others.  Traces with
    one fingerprint have the same results. -/
structure Backend.Deterministic (b : Backend α σ) (family : Set (Trace α))
    (outcome : Trace α → Except Error (Tensor α)) : Prop where
  executes      : ∀ ts state rs, (∀ t ∈ ts, t ∈ family) →
    ((b.execute ts state).1 = .ok rs ↔ ts.mapM outcome = .ok rs)
  distinguishes : ∀ t ∈ family, ∀ u ∈ family, t.fingerprint = u.fingerprint →
    ∀ r, HasResult outcome t r → HasResult outcome u r

/-- A session that arises from requests for traces of a family. -/
def Backend.Reached (b : Backend α σ) (family : Set (Trace α)) (s : Session α σ) : Prop :=
  ∃ device capacity history, (∀ r ∈ history, ∀ t ∈ SessionStep.traces r, t ∈ family) ∧
    s = b.sessionAfter device capacity history

/-- Every cached result is that of a trace with its key. -/
def Session.Settled (family : Set (Trace α)) (outcome : Trace α → Except Error (Tensor α))
    (s : Session α σ) : Prop :=
  ∀ e ∈ s.entries, ∃ t ∈ family, t.fingerprint = e.1 ∧ HasResult outcome t e.2

namespace Proofs

open Execution (Ensures)

variable {b : Backend α σ} {family : Set (Trace α)}
  {outcome : Trace α → Except Error (Tensor α)} {ts : List (Trace α)} {jobs : List (Job α)}
  {s : Session α σ}

theorem valueOf_eq {t : Trace α} {r : Tensor α} (h : outcome t = .ok r) :
    valueOf outcome t = r := by
  unfold valueOf
  rw [h]
  rfl

/-! ## Sessions -/

theorem reached_submit (hs : b.Reached family s) {shots : Option Shots}
    (hts : ∀ t ∈ overridden ts shots, t ∈ family) :
    b.Reached family ((b.submit ts shots).perform s).2 := by
  obtain ⟨device, capacity, history, hhistory, rfl⟩ := hs
  refine ⟨device, capacity, history ++ [.submit ts shots], ?_, ?_⟩
  · intro r hr
    rcases List.mem_append.mp hr with hr | hr
    · exact hhistory r hr
    · obtain rfl := List.mem_singleton.mp hr
      exact hts
  · unfold Backend.sessionAfter
    rw [List.foldl_append]
    rfl

section Deterministic

variable (hb : b.Deterministic family outcome)
include hb

/-- A remembered result is that of every trace with its key. -/
theorem hasResult_of_lookup (hs : s.Settled family outcome) {t : Trace α} (ht : t ∈ family)
    {r : Tensor α} (hr : s.lookup t.fingerprint = some r) : HasResult outcome t r := by
  obtain ⟨u, hu, hkey, hresult⟩ := hs _ (Session.mem_of_lookup hr)
  exact hb.distinguishes u hu t ht hkey r hresult

/-! ## What a submission gives -/

theorem ensures_call_outcomes (hts : ∀ t ∈ ts, t ∈ family) (s : Session α σ) :
    (b.call ts).Ensures s fun r s' => s'.entries = s.entries ∧
      ∀ rs, r = .ok rs → List.Forall₂ (fun t r => outcome t = .ok r) ts rs := by
  unfold Ensures
  rw [perform_call]
  refine ⟨rfl, fun rs hrs => ?_⟩
  exact forall₂_of_mapM (fun _ _ _ h => h) ((hb.executes ts s.device rs hts).mp hrs)

theorem ensures_calls_outcomes (hjobs : ∀ job ∈ jobs, job.trace ∈ family) (s : Session α σ) :
    (jobs.mapM fun job => b.call [job.trace]).Ensures s fun r s' => s'.entries = s.entries ∧
      ∀ rss, r = .ok rss →
        List.Forall₂ (fun (job : Job α) r => outcome job.trace = .ok r) jobs rss.flatten := by
  induction jobs generalizing s with
  | nil =>
    refine ⟨rfl, ?_⟩
    rintro _ ⟨⟩
    exact .nil
  | cons job jobs ih =>
    obtain ⟨hfirst, hrest⟩ := List.forall_mem_cons.mp hjobs
    rw [List.mapM_cons]
    refine (ensures_call_outcomes hb (List.forall_mem_singleton.mpr hfirst) s).bind ?_ ?_
    · rintro rs s₁ ⟨hentries₁, hcall⟩
      refine (ih hrest s₁).bind ?_ ?_
      · rintro rss s' ⟨hentries, hcalls⟩
        refine ⟨hentries.trans hentries₁, ?_⟩
        rintro _ ⟨⟩
        -- One trace was handed over, so one result came back.
        obtain ⟨r, rest, hr, hnone, rfl⟩ := List.forall₂_cons_left_iff.mp (hcall rs rfl)
        obtain rfl := List.forall₂_nil_left_iff.mp hnone
        exact .cons hr (hcalls rss rfl)
      · rintro e s' ⟨hentries, -⟩
        exact ⟨hentries.trans hentries₁, nofun⟩
    · rintro e s₁ ⟨hentries₁, -⟩
      exact ⟨hentries₁, nofun⟩

theorem ensures_runJobs_outcomes (hjobs : ∀ job ∈ jobs, job.trace ∈ family) (s : Session α σ) :
    (b.runJobs jobs).Ensures s fun r s' => s'.entries = s.entries ∧
      ∀ rs, r = .ok rs →
        List.Forall₂ (fun (job : Job α) r => outcome job.trace = .ok r) jobs rs := by
  unfold Backend.runJobs
  split
  · next hempty =>
    obtain rfl := List.isEmpty_iff.mp hempty
    refine ⟨rfl, ?_⟩
    rintro _ ⟨⟩
    exact .nil
  · split
    · refine (ensures_call_outcomes hb (List.forall_mem_map.mpr hjobs) s).mono ?_
      rintro r s' ⟨hentries, hcall⟩
      exact ⟨hentries, fun rs hrs => List.forall₂_map_left_iff.mp (hcall rs hrs)⟩
    · refine (ensures_calls_outcomes hb hjobs s).bind ?_ ?_
      · rintro rss s' ⟨hentries, hcalls⟩
        refine ⟨hentries, ?_⟩
        rintro _ ⟨⟩
        exact hcalls rss rfl
      · rintro e s' ⟨hentries, -⟩
        exact ⟨hentries, nofun⟩

omit hb in
/-- Whether or not the checks pass, what is stored are results. -/
theorem ensures_conclude_settled {slots : List (Slot α)} {fresh : List (Tensor α)}
    (hjobs : ∀ job ∈ jobs, job.key = job.trace.fingerprint ∧ job.trace ∈ family)
    (hfresh : List.Forall₂ (fun (job : Job α) r => outcome job.trace = .ok r) jobs fresh)
    (hs : s.Settled family outcome) :
    (b.conclude slots jobs fresh).Ensures s fun _ s' => s'.Settled family outcome := by
  unfold Backend.conclude
  rw [if_neg (not_not.mpr hfresh.length_eq.symm)]
  have hstored : (Execution.each (fun p => b.accept p.1 p.2) (jobs.zip fresh)).Ensures s
      fun _ s' => s'.Settled family outcome := by
    refine .each (fun s' => s'.Settled family outcome) hs ?_
    rintro ⟨job, r⟩ hplace s₁ hs₁
    obtain ⟨hkey, hfamily⟩ := hjobs job (List.of_mem_zip hplace).1
    have hr : outcome job.trace = .ok r := (List.forall₂_iff_zip.mp hfresh).2 hplace
    refine (ensures_accept job r s₁).mono ?_
    rintro _ s' ⟨-, hentries⟩ e he
    rcases hentries e he with he | ⟨rfl, hshape⟩
    · exact hs₁ e he
    · exact ⟨job.trace, hfamily, hkey.symm, hr, hshape⟩
  refine hstored.bind (fun _ s' hs' => ?_) fun _ _ hs' => hs'
  unfold Ensures
  rw [Execution.perform_mapM_lift]
  exact hs'

/-- A submission keeps the session settled and gives results only. -/
theorem ensures_submit_settled {shots : Option Shots}
    (hts : ∀ t ∈ overridden ts shots, t ∈ family) (hs : s.Settled family outcome) :
    (b.submit ts shots).Ensures s fun r s' => s'.Settled family outcome ∧
      ∀ rs, r = .ok rs → (∀ t ∈ overridden ts shots, b.validate t = .ok ()) ∧
        List.Forall₂ (HasResult outcome) (overridden ts shots) rs := by
  rw [Backend.submit_eq]
  have hvalidated : (Execution.each (fun t => liftM (b.validate t))
      (overridden ts shots)).Ensures s fun r s' =>
        s' = s ∧ r = (overridden ts shots).forM b.validate := by
    refine ⟨?_, ensures_each_forM (fun t _ _ => .lift rfl) s⟩
    refine Ensures.each (· = s) rfl ?_
    rintro t - _ rfl
    exact .lift rfl
  refine hvalidated.bind ?_ ?_
  · rintro _ s₀ ⟨rfl, hvalid⟩
    refine (ensures_assign _ [] s₀).bind ?_ ?_
    · rintro _ s₁ ⟨⟨slots, jobs, ⟨⟩, hassigned⟩, hsame⟩
      have hs₁ : s₁.Settled family outcome := fun e he => hs e (hsame.entries e he)
      have hjobs : ∀ job ∈ jobs, job.key = job.trace.fingerprint ∧ job.trace ∈ family := by
        intro job hjob
        obtain ⟨hkey, hmem, -⟩ := hassigned.of_mem hjob
        exact ⟨hkey, hts _ hmem⟩
      refine (ensures_runJobs_outcomes hb (fun job hjob => (hjobs job hjob).2) s₁).bind ?_ ?_
      · rintro fresh s₂ ⟨hentries, hfresh⟩
        have hs₂ : s₂.Settled family outcome := by
          unfold Session.Settled
          rw [hentries]
          exact hs₁
        refine ⟨ensures_conclude_settled hjobs (hfresh fresh rfl) hs₂, fun rs hrs => ?_⟩
        refine ⟨forM_eq_ok_iff.mp hvalid.symm, ?_⟩
        have hconcluded := ensures_concluded b hassigned fresh s₂
        have hsuits := (suits_iff.mp (hconcluded.ok_iff.mp ⟨rs, hrs⟩)).2
        refine (forall₂_with (fun t ht => ht) (fun _ _ => trivial)
          (hconcluded.answers rs hrs)).imp ?_
        rintro t r ⟨hknown | ⟨job, hplace, hkey⟩, ht, -⟩
        · exact hasResult_of_lookup hb hs (hts t ht) hknown
        · obtain ⟨hown, hfamily⟩ := hjobs job (List.of_mem_zip hplace).1
          have hr : outcome job.trace = .ok r :=
            (List.forall₂_iff_zip.mp (hfresh fresh rfl)).2 hplace
          exact hb.distinguishes _ hfamily t (hts t ht) (hown.symm.trans hkey) r
            ⟨hr, hsuits _ hplace⟩
      · rintro e s₂ ⟨hentries, -⟩
        refine ⟨?_, nofun⟩
        unfold Session.Settled
        rw [hentries]
        exact hs₁
    · rintro e s' ⟨⟨slots, jobs, ⟨⟩, -⟩, -⟩
  · rintro e _ ⟨rfl, -⟩
    exact ⟨hs, nofun⟩

/-- Every session that is reached is settled. -/
theorem settled_of_reached (hs : b.Reached family s) : s.Settled family outcome := by
  obtain ⟨device, capacity, history, hhistory, rfl⟩ := hs
  induction history using List.reverseRecOn with
  | nil => cases capacity <;> exact fun e he => absurd he List.not_mem_nil
  | append_singleton history r ih =>
    have hstep : b.sessionAfter device capacity (history ++ [r]) =
        b.serve (b.sessionAfter device capacity history) r := List.foldl_append
    obtain ⟨hbefore, hr⟩ := List.forall_mem_append.mp hhistory
    rw [hstep]
    cases r with
    | submit ts shots =>
      exact (ensures_submit_settled hb (hr _ List.mem_cons_self) (ih hbefore)).1
    | clear =>
      generalize b.sessionAfter device capacity history = s
      obtain ⟨device, cache⟩ := s
      cases cache <;> exact fun e he => absurd he List.not_mem_nil

/-! ## Submissions that succeed -/

/-- Those traces of the family that have results are served. -/
theorem serves_of_deterministic :
    b.Serves {t | t ∈ family ∧ ∃ r, HasResult outcome t r} (valueOf outcome) := by
  have hresult {t : Trace α} {r : Tensor α} (h : HasResult outcome t r) : valueOf outcome t = r :=
    valueOf_eq h.1
  refine ⟨⟨fun ts state rs hts h => ?_, fun t ht shape hshape => ?_, fun t ht u hu hkey => ?_⟩,
    fun ts state hts => ?_, fun t ht => ?_⟩
  · have hrs := (hb.executes ts state rs fun t ht => (hts t ht).1).mp h
    exact eq_map_of_mapM hrs fun _ _ _ hr => (valueOf_eq hr).symm
  · obtain ⟨-, r, hr⟩ := ht
    rw [hresult hr]
    exact Except.ok.inj (hr.2.symm.trans hshape)
  · obtain ⟨ht, r, hr⟩ := ht
    rw [hresult hr, hresult (hb.distinguishes t ht u hu.1 hkey r hr)]
  · obtain ⟨rs, hrs⟩ := exists_mapM_eq_ok fun t ht => (hts t ht).2.imp fun _ h => h.1
    exact ⟨rs, (hb.executes ts state rs fun t ht => (hts t ht).1).mpr hrs⟩
  · obtain ⟨-, r, hr⟩ := ht
    rw [hresult hr]
    exact hr.2

theorem correct_of_settled (hs : s.Settled family outcome) :
    s.Correct {t | t ∈ family ∧ ∃ r, HasResult outcome t r} (valueOf outcome) := by
  intro e he
  obtain ⟨t, ht, hkey, hr⟩ := hs e he
  have hsame : ∀ u ∈ {t | t ∈ family ∧ ∃ r, HasResult outcome t r}, u.fingerprint = e.1 →
      HasResult outcome u e.2 :=
    fun u hu hu_key => hb.distinguishes t ht u hu.1 (hkey.trans hu_key.symm) _ hr
  refine ⟨⟨t, ⟨ht, _, hr⟩, hkey, hr.2⟩, fun u hu hu_key => ?_, fun u hu hu_key shape hshape => ?_⟩
  · exact (valueOf_eq (hsame u hu hu_key).1).symm
  · exact Except.ok.inj ((hsame u hu hu_key).2.symm.trans hshape)

/-- Whatever was submitted before, a submission gives the results of its traces, just when
    they are validated and have results. -/
theorem submit_eq_ok_iff (hs : b.Reached family s) (hts : ∀ t ∈ ts, t ∈ family)
    {rs : List (Tensor α)} : ((b.submit ts none).perform s).1 = .ok rs ↔
      (∀ t ∈ ts, b.validate t = .ok ()) ∧ List.Forall₂ (HasResult outcome) ts rs := by
  have hsettled : s.Settled family outcome := settled_of_reached hb hs
  constructor
  · have hall : ∀ t ∈ overridden ts none, t ∈ family := hts
    exact (ensures_submit_settled hb hall hsettled).2 rs
  · rintro ⟨hvalid, hrs⟩
    have hserved : ∀ t ∈ ts, t ∈ {t | t ∈ family ∧ ∃ r, HasResult outcome t r} := by
      intro t ht
      obtain ⟨r, -, hr⟩ := exists_of_forall₂ hrs ht
      exact ⟨hts t ht, r, hr⟩
    have hall : ts.map (valueOf outcome) = rs := by
      rw [← List.forall₂_eq_eq_eq]
      exact List.forall₂_map_left_iff.mpr (hrs.imp fun _ _ h => valueOf_eq h.1)
    rw [submit_succeeds (serves_of_deterministic hb) hserved hvalid
      (correct_of_settled hb hsettled), hall]

end Deterministic

/-! ## The state-vector backend -/

section Simulator

variable {ρ : Type} {c : SimulatorConfig} {table : GateTable ℝ} {sampler : Sampler ℝ ρ}

/-- Exact traces have outcomes that depend on their fingerprints only. -/
theorem deterministic_simulator : (c.backend table sampler).Deterministic {t | t.Exact ∧ t.Counted}
    (·.simulate sampler) where
  executes := fun _ _ _ _ => Iff.rfl
  distinguishes := by
    intro t ht u hu hkey r hr
    have hsame := simulate_eq_of_fingerprint_eq sampler ht.1 hu.1 ht.2 hu.2 hkey
    have hu_outcome : u.simulate sampler = .ok r := hsame.symm.trans hr.1
    obtain ⟨T, hT, hshape⟩ := simulate_eq_ok hu.1 sampler
    obtain rfl := Except.ok.inj (hT.symm.trans hu_outcome)
    exact ⟨hu_outcome, hshape⟩

theorem reached_fresh (family : Set (Trace ℝ)) :
    (c.backend table sampler).Reached family c.session :=
  ⟨⟨0, 0⟩, c.cacheSize, [], fun _ h => absurd h List.not_mem_nil, rfl⟩

end Simulator

end Proofs

end CircuitGrad
