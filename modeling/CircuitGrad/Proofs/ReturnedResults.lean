import CircuitGrad.Proofs.Dispatch

/-! # What a backend returned

    A backend may return anything: too few results for the traces of a call,
    too many, or results of other shapes.  A submission checks the results of
    all its calls as one sequence, by their number and by their shapes against
    the executed traces, and succeeds just when the traces are validated, no
    call fails, and this check passes (`submit_ok_iff`).

    Results are matched to traces by their places in the two sequences
    (`Delivered`).  If there is one call, or every call returns as many results
    as it was handed traces, these are their places in one call, so all that is
    returned or cached for a trace is what the backend returned for a trace
    with its fingerprint.  Without batched submission the numbers of single
    calls are not looked at, and what one call lacks another may make up for
    (`submit_lopsided`).
-/

namespace CircuitGrad

variable {α σ : Type} [Scalar α]

/-! ## Calls -/

section Calls

/-- The results of a call; there are none if it failed. -/
def Call.results (c : Call α) : List (Tensor α) :=
  match c.outcome with
  | .ok rs => rs
  | .error _ => []

def Call.Succeeds (c : Call α) : Prop := ∃ rs, c.outcome = .ok rs

/-- As many results as traces. -/
def Call.Even (c : Call α) : Prop := c.results.length = c.traces.length

/-- The result has the shape that the trace calls for. -/
def Suits (t : Trace α) (r : Tensor α) : Prop := t.outputShape = .ok r.shape

/-- One result for every trace, of its shape. -/
def Call.Answers (c : Call α) : Prop := ∃ rs, c.outcome = .ok rs ∧ List.Forall₂ Suits c.traces rs

/-- For a trace with the fingerprint the call returned this result. -/
def Call.Returns (c : Call α) (key : Fingerprint α) (r : Tensor α) : Prop :=
  ∃ t, (t, r) ∈ c.traces.zip c.results ∧ t.fingerprint = key

/-- The traces of some calls, in order. -/
def handed (calls : List (Call α)) : List (Trace α) := calls.flatMap (·.traces)

/-- Their results, in order. -/
def returned (calls : List (Call α)) : List (Tensor α) := calls.flatMap (·.results)

/-- Taking all calls together, the result is in the place of a trace with the
    fingerprint. -/
def Delivered (calls : List (Call α)) (key : Fingerprint α) (r : Tensor α) : Prop :=
  ∃ t, (t, r) ∈ (handed calls).zip (returned calls) ∧ t.fingerprint = key

end Calls

namespace Proofs

open Execution (Ensures)

section Places

variable {calls : List (Call α)}

/-- Places do not shift from one call to the next: there is no other, or every
    call returns as many results as it was handed traces. -/
def InStep (calls : List (Call α)) : Prop := calls.length ≤ 1 ∨ ∀ call ∈ calls, call.Even

omit [Scalar α] in
@[simp] theorem handed_singleton (call : Call α) : handed [call] = call.traces :=
  List.flatMap_singleton _ _

omit [Scalar α] in
@[simp] theorem returned_singleton (call : Call α) : returned [call] = call.results :=
  List.flatMap_singleton _ _

omit [Scalar α] in
theorem zip_of_inStep (h : InStep calls) :
    (handed calls).zip (returned calls) =
      calls.flatMap fun call => call.traces.zip call.results := by
  rcases h with h | h
  · rcases calls with _ | ⟨call, _ | ⟨_, _⟩⟩
    · rfl
    · rw [handed_singleton, returned_singleton, List.flatMap_singleton]
    · simp at h
  · induction calls with
    | nil => rfl
    | cons call calls ih =>
      obtain ⟨heven, hrest⟩ := List.forall_mem_cons.mp h
      rw [List.flatMap_cons, ← ih hrest]
      exact List.zip_append heven.symm

omit [Scalar α] in
/-- If there are as many results as traces in all, every call returned as many
    as it was handed. -/
theorem even_of_inStep (h : InStep calls)
    (hlength : (handed calls).length = (returned calls).length) : ∀ call ∈ calls, call.Even := by
  rcases h with h | h
  · rcases calls with _ | ⟨call, _ | ⟨_, _⟩⟩
    · simp
    · simpa [Call.Even, eq_comm] using hlength
    · simp at h
  · exact h

/-- The place of a result is its place in its call. -/
theorem returns_of_delivered (h : InStep calls) {key : Fingerprint α} {r : Tensor α}
    (hr : Delivered calls key r) : ∃ call ∈ calls, call.Returns key r := by
  obtain ⟨t, hmem, hkey⟩ := hr
  rw [zip_of_inStep h] at hmem
  obtain ⟨call, hcall, hplace⟩ := List.mem_flatMap.mp hmem
  exact ⟨call, hcall, t, hplace, hkey⟩

omit [Scalar α] in
/-- If the results fit taken together, those of every call do. -/
theorem answers_of_suits (h : InStep calls) (hok : ∀ call ∈ calls, call.Succeeds)
    (hsuits : List.Forall₂ Suits (handed calls) (returned calls)) :
    ∀ call ∈ calls, call.Answers := by
  intro call hcall
  obtain ⟨hlength, hshapes⟩ := List.forall₂_iff_zip.mp hsuits
  obtain ⟨rs, hrs⟩ := hok call hcall
  have hresults : call.results = rs := by
    unfold Call.results
    rw [hrs]
  refine ⟨rs, hrs, List.forall₂_iff_zip.mpr ⟨?_, fun hplace => hshapes ?_⟩⟩
  · rw [← hresults]
    exact (even_of_inStep h hlength call hcall).symm
  · rw [zip_of_inStep h]
    exact List.mem_flatMap.mpr ⟨call, hcall, hresults ▸ hplace⟩

end Places

/-! ## Recorded executions -/

section Executing

variable {b : Backend α σ} {s : Session α (σ × List (Call α))}

/-- Calls were added to the record and nothing was stored.  The execution
    succeeded just if all of them did, and gave what they returned. -/
structure Called (ts : List (Trace α)) (s : Session α (σ × List (Call α)))
    (r : Except Error (List (Tensor α))) (s' : Session α (σ × List (Call α)))
    (calls : List (Call α)) : Prop where
  cache   : s'.cache = s.cache
  log     : s'.log = s.log ++ calls
  ok_iff  : (∃ rs, r = .ok rs) ↔ ∀ call ∈ calls, call.Succeeds
  errors  : ∀ e, r = .error e → ∃ call ∈ calls, call.outcome = .error e
  results : ∀ rs, r = .ok rs → handed calls = ts ∧ returned calls = rs

theorem called_nothing (s : Session α (σ × List (Call α))) : Called [] s (.ok []) s [] where
  cache := rfl
  log := (List.append_nil _).symm
  ok_iff := ⟨fun _ _ h => absurd h List.not_mem_nil, fun _ => ⟨_, rfl⟩⟩
  errors := nofun
  results := by
    rintro _ ⟨⟩
    exact ⟨rfl, rfl⟩

theorem ensures_called (b : Backend α σ) (ts : List (Trace α))
    (s : Session α (σ × List (Call α))) :
    (b.recorded.call ts).Ensures s fun r s' => Called ts s r s' [⟨ts, r⟩] := by
  unfold Ensures
  rw [perform_call]
  refine ⟨rfl, rfl, ⟨?_, ?_⟩, fun e he => ⟨_, List.mem_cons_self, he⟩, ?_⟩
  · rintro hok _ (_ | ⟨_, ⟨⟩⟩)
    exact hok
  · intro hok
    exact hok _ List.mem_cons_self
  · intro rs hrs
    unfold handed returned Call.results
    rw [hrs]
    exact ⟨List.append_nil _, List.append_nil _⟩

namespace Called

variable {ts us : List (Trace α)} {s₁ s' : Session α (σ × List (Call α))}
  {rs : List (Tensor α)} {r : Except Error (List (Tensor α))} {calls more : List (Call α)}

/-- Where it failed, it does not matter what would have come next. -/
theorem failed {e : Error} (h : Called ts s (.error e) s' calls) (us : List (Trace α)) :
    Called us s (.error e) s' calls :=
  ⟨h.cache, h.log, h.ok_iff, h.errors, nofun⟩

theorem append (h : Called ts s (.ok rs) s₁ calls) (h' : Called us s₁ r s' more) :
    Called (ts ++ us) s ((rs ++ ·) <$> r) s' (calls ++ more) where
  cache := h'.cache.trans h.cache
  log := by rw [h'.log, h.log, List.append_assoc]
  ok_iff := by
    have hdone : ∀ call ∈ calls, call.Succeeds := h.ok_iff.mp ⟨rs, rfl⟩
    rw [List.forall_mem_append, and_iff_right hdone, ← h'.ok_iff]
    cases r with
    | ok ss => exact ⟨fun _ => ⟨ss, rfl⟩, fun _ => ⟨rs ++ ss, rfl⟩⟩
    | error e => exact ⟨nofun, nofun⟩
  errors := by
    intro e he
    cases r with
    | ok ss => cases he
    | error e' =>
      obtain ⟨call, hcall, herror⟩ := h'.errors e' rfl
      cases he
      exact ⟨call, List.mem_append_right _ hcall, herror⟩
  results := by
    intro all hall
    cases r with
    | ok ss =>
      cases hall
      obtain ⟨hts, hrs⟩ := h.results rs rfl
      obtain ⟨hus, hss⟩ := h'.results ss rfl
      exact ⟨List.flatMap_append.trans (congrArg₂ _ hts hus),
        List.flatMap_append.trans (congrArg₂ _ hrs hss)⟩
    | error e => cases hall

end Called

/-- One call after the other, as long as they succeed. -/
theorem ensures_calls_recorded (b : Backend α σ) (jobs : List (Job α))
    (s : Session α (σ × List (Call α))) :
    (jobs.mapM fun job => b.recorded.call [job.trace]).Ensures s fun r s' =>
      ∃ calls, Called (jobs.map (·.trace)) s (List.flatten <$> r) s' calls := by
  induction jobs generalizing s with
  | nil => exact ⟨[], called_nothing s⟩
  | cons job jobs ih =>
    rw [List.mapM_cons]
    refine (ensures_called b [job.trace] s).bind ?_ fun e s₁ h => ⟨_, h.failed _⟩
    intro rs s₁ hfirst
    refine (ih s₁).bind ?_ ?_
    · rintro rss s' ⟨calls, hrest⟩
      exact ⟨_, hfirst.append hrest⟩
    · rintro e s' ⟨calls, hrest⟩
      exact ⟨_, hfirst.append hrest⟩

theorem ensures_runJobs_recorded (b : Backend α σ) (jobs : List (Job α))
    (s : Session α (σ × List (Call α))) :
    (b.recorded.runJobs jobs).Ensures s fun r s' => ∃ calls,
      Called (jobs.map (·.trace)) s r s' calls ∧
        (b.capabilities.batch = true → calls.length ≤ 1) := by
  unfold Backend.runJobs
  split
  · next hempty =>
    obtain rfl := List.isEmpty_iff.mp hempty
    exact ⟨[], called_nothing s, fun _ => Nat.zero_le 1⟩
  · split
    · exact (ensures_called b _ s).mono fun r s' h => ⟨_, h, fun _ => le_rfl⟩
    · next hsingle =>
      refine (ensures_calls_recorded b jobs s).bind ?_ ?_
      · rintro rss s' ⟨calls, h⟩
        exact ⟨calls, h, fun hbatch => absurd hbatch hsingle⟩
      · rintro e s' ⟨calls, h⟩
        exact ⟨calls, h, fun hbatch => absurd hbatch hsingle⟩

end Executing

/-! ## Checking and answering -/

section Concluding

variable {b : Backend α σ} {s : Session α σ}

/-- A loop whose rounds end as some checks do ends as the loop of the checks. -/
theorem ensures_each_forM {ι : Type} {g : ι → Execution α σ Unit} {check : ι → Except Error Unit}
    {items : List ι} (h : ∀ i ∈ items, ∀ s, (g i).Ensures s fun r _ => r = check i)
    (s : Session α σ) :
    (Execution.each g items).Ensures s fun r _ => r = items.forM check := by
  induction items generalizing s with
  | nil => rfl
  | cons i items ih =>
    obtain ⟨hfirst, hrest⟩ := List.forall_mem_cons.mp h
    have hcons : (i :: items).forM check = (check i >>= fun _ => items.forM check) := rfl
    rw [Execution.each_cons, hcons]
    refine (hfirst s).bind (fun _ s₁ hround => ?_) fun e _ hround => ?_
    · rw [← hround]
      exact ih hrest s₁
    · rw [← hround]
      rfl

/-- Whether a result is accepted. -/
def Backend.verdict (b : Backend α σ) (job : Job α) (r : Tensor α) : Except Error Unit := do
  let expected ← job.trace.outputShape
  if r.shape ≠ expected then .error (.shapeMismatch (.executionShape b.name r.shape expected))
  else .ok ()

theorem accept_verdict (b : Backend α σ) (job : Job α) (r : Tensor α) (s : Session α σ) :
    (b.accept job r).Ensures s fun o _ => o = Backend.verdict b job r := by
  unfold Backend.accept Backend.verdict
  have hexpected : Ensures (liftM job.trace.outputShape) s fun shape s' =>
      shape = job.trace.outputShape ∧ s' = s :=
    .lift ⟨rfl, rfl⟩
  refine hexpected.bind ?_ ?_
  · rintro shape _ ⟨hshape, rfl⟩
    rw [← hshape, ok_bind]
    split <;> rfl
  · rintro e _ ⟨herror, -⟩
    rw [← herror]
    rfl

/-- It is, just if it has the shape of the trace. -/
theorem verdict_ok_iff {job : Job α} {r : Tensor α} :
    Backend.verdict b job r = .ok () ↔ Suits job.trace r := by
  unfold Backend.verdict Suits
  cases job.trace.outputShape with
  | error e => exact ⟨nofun, nofun⟩
  | ok shape =>
    rw [ok_bind]
    split
    · next hne => exact ⟨nofun, fun h => absurd (Except.ok.inj h).symm hne⟩
    · next heq => exact ⟨fun _ => congrArg _ (not_not.mp heq).symm, fun _ => rfl⟩

theorem verdict_error {job : Job α} {r : Tensor α} {e : Error}
    (h : Backend.verdict b job r = .error e) :
    job.trace.outputShape = .error e ∨ ∃ fault, e = .shapeMismatch fault := by
  unfold Backend.verdict at h
  cases hshape : job.trace.outputShape with
  | error e' =>
    rw [hshape, error_bind] at h
    exact .inl (congrArg _ (Except.error.inj h))
  | ok shape =>
    rw [hshape, ok_bind] at h
    split at h
    · exact .inr ⟨_, (Except.error.inj h).symm⟩
    · cases h

/-- Results were stored up to the first that does not fit; if all of them do,
    every trace was answered. -/
structure Concluded (memory : Fingerprint α → Option (Tensor α)) (ts : List (Trace α))
    (jobs : List (Job α)) (fresh : List (Tensor α)) (s : Session α σ)
    (r : Except Error (List (Tensor α))) (s' : Session α σ) : Prop where
  device  : s'.device = s.device
  entries : ∀ e ∈ s'.entries, e ∈ s.entries ∨ JobReturned jobs fresh e.1 e.2
  ok_iff  : (∃ rs, r = .ok rs) ↔ List.Forall₂ Suits (jobs.map (·.trace)) fresh
  errors  : ∀ e, r = .error e → (∃ t ∈ jobs.map (·.trace), t.outputShape = .error e) ∨
    ∃ fault, e = .shapeMismatch fault
  answers : ∀ rs, r = .ok rs → List.Forall₂ (fun t r => memory t.fingerprint = some r ∨
    JobReturned jobs fresh t.fingerprint r) ts rs

theorem suits_iff {jobs : List (Job α)} {fresh : List (Tensor α)} :
    List.Forall₂ Suits (jobs.map (·.trace)) fresh ↔
      jobs.length = fresh.length ∧ ∀ p ∈ jobs.zip fresh, Suits p.1.trace p.2 := by
  rw [List.forall₂_map_left_iff, List.forall₂_iff_zip, Prod.forall]

theorem ensures_accepted (b : Backend α σ) (jobs : List (Job α)) (fresh : List (Tensor α))
    (s : Session α σ) :
    (Execution.each (fun p => b.accept p.1 p.2) (jobs.zip fresh)).Ensures s fun r s' =>
      (s'.device = s.device ∧
        ∀ e ∈ s'.entries, e ∈ s.entries ∨ JobReturned jobs fresh e.1 e.2) ∧
      r = (jobs.zip fresh).forM fun p => Backend.verdict b p.1 p.2 := by
  refine ⟨?_, ensures_each_forM (fun p _ s => accept_verdict b p.1 p.2 s) s⟩
  refine Ensures.each (fun s' => s'.device = s.device ∧
    ∀ e ∈ s'.entries, e ∈ s.entries ∨ JobReturned jobs fresh e.1 e.2) ⟨rfl, fun e he => .inl he⟩ ?_
  rintro ⟨job, r⟩ hplace s₁ ⟨hdevice, hentries⟩
  refine (ensures_accept job r s₁).mono ?_
  rintro _ s' ⟨hdevice', hentries'⟩
  refine ⟨hdevice'.trans hdevice, fun e he => ?_⟩
  rcases hentries' e he with he | ⟨rfl, -⟩
  · exact hentries e he
  · exact .inr ⟨job, hplace, rfl⟩

theorem ensures_concluded {memory : Fingerprint α → Option (Tensor α)} {ts : List (Trace α)}
    {jobs : List (Job α)} {slots : List (Slot α)} (b : Backend α σ)
    (h : Assigned memory ts [] slots jobs) (fresh : List (Tensor α)) (s : Session α σ) :
    (b.conclude slots jobs fresh).Ensures s (Concluded memory ts jobs fresh s) := by
  unfold Backend.conclude
  by_cases hlength : fresh.length = jobs.length
  · rw [if_neg (not_not.mpr hlength)]
    obtain ⟨rs, hrs, hanswered⟩ := Assigned.answered h hlength
    refine (ensures_accepted b jobs fresh s).bind ?_ ?_
    · rintro _ s₁ ⟨⟨hdevice, hentries⟩, hloop⟩
      have hall := forM_eq_ok_iff.mp hloop.symm
      unfold Ensures
      rw [Execution.perform_mapM_lift, hrs]
      refine ⟨hdevice, hentries, ⟨fun _ => ?_, fun _ => ⟨rs, rfl⟩⟩, nofun, ?_⟩
      · exact suits_iff.mpr ⟨hlength.symm, fun p hp => verdict_ok_iff.mp (hall p hp)⟩
      · rintro _ ⟨⟩
        exact hanswered
    · rintro e s₁ ⟨⟨hdevice, hentries⟩, hloop⟩
      obtain ⟨p, hp, hverdict⟩ := exists_of_forM_error hloop.symm
      refine ⟨hdevice, hentries, ⟨nofun, fun hsuits => ?_⟩, ?_, nofun⟩
      · exact nomatch hverdict.symm.trans (verdict_ok_iff.mpr ((suits_iff.mp hsuits).2 p hp))
      · rintro _ ⟨⟩
        refine (verdict_error hverdict).imp_left fun hshape => ⟨p.1.trace, ?_, hshape⟩
        exact List.mem_map_of_mem (List.of_mem_zip hp).1
  · rw [if_pos hlength]
    refine ⟨rfl, fun e he => .inl he, ⟨nofun, fun hsuits => ?_⟩, ?_, nofun⟩
    · exact absurd (suits_iff.mp hsuits).1.symm hlength
    · rintro _ ⟨⟩
      exact .inr ⟨_, rfl⟩

end Concluding

/-! ## Recorded submissions -/

section Submissions

/-- What a submission of traces ends with, by the calls that it made and by
    what is said of the traces beforehand. -/
structure Checked (b : Backend α σ) (accepted : Prop) (ts : List (Trace α))
    (s : Session α (σ × List (Call α))) (r : Except Error (List (Tensor α)))
    (s' : Session α (σ × List (Call α))) (calls : List (Call α)) : Prop where
  log     : s'.log = s.log ++ calls
  batched : b.capabilities.batch = true → calls.length ≤ 1
  entries : ∀ e ∈ s'.entries, e ∈ s.entries ∨ Delivered calls e.1 e.2
  ok_iff  : (∃ rs, r = .ok rs) ↔ accepted ∧ (∀ call ∈ calls, call.Succeeds) ∧
    List.Forall₂ Suits (handed calls) (returned calls)
  errors  : ∀ e, r = .error e → (∃ call ∈ calls, call.outcome = .error e) ∨
    (∃ t ∈ handed calls, t.outputShape = .error e) ∨ (∃ fault, e = .shapeMismatch fault) ∨
      ∃ t ∈ ts, b.validate t = .error e
  answers : ∀ rs, r = .ok rs → List.Forall₂ (fun t r => s.lookup t.fingerprint = some r ∨
    Delivered calls t.fingerprint r) ts rs

variable {b : Backend α σ} {s : Session α (σ × List (Call α))}

/-- What is left to do once every trace has its slot. -/
theorem ensures_executed (b : Backend α σ) {ts : List (Trace α)} {slots : List (Slot α)}
    {jobs : List (Job α)} {s₁ : Session α (σ × List (Call α))}
    (hassigned : Assigned s.lookup ts [] slots jobs) (hsame : SameContents s s₁) :
    Ensures (do
      let fresh ← b.recorded.runJobs jobs
      b.recorded.conclude slots jobs fresh) s₁ fun r s' =>
        ∃ calls, Checked b True ts s r s' calls := by
  have hlog₁ : s₁.log = s.log := congrArg Prod.snd hsame.device
  refine (ensures_runJobs_recorded b jobs s₁).bind ?_ ?_
  · rintro fresh s₂ ⟨calls, hcalled, hbatched⟩
    obtain ⟨hhanded, hreturned⟩ := hcalled.results fresh rfl
    have hdelivered {key : Fingerprint α} {r : Tensor α} (h : JobReturned jobs fresh key r) :
        Delivered calls key r := by
      obtain ⟨job, hplace, hkey⟩ := h
      have hjob := hassigned.of_mem (List.of_mem_zip hplace).1
      refine ⟨job.trace, ?_, hjob.1.symm.trans hkey⟩
      rw [hhanded, hreturned, List.zip_map_left]
      exact List.mem_map.mpr ⟨_, hplace, rfl⟩
    refine (ensures_concluded b.recorded hassigned fresh s₂).mono ?_
    rintro r s' ⟨hdevice, hentries, hok, herrors, hanswers⟩
    refine ⟨calls, ?_, hbatched, fun e he => ?_, ?_, fun e he => ?_, fun rs hrs => ?_⟩
    · rw [← hlog₁, ← hcalled.log]
      exact congrArg Prod.snd hdevice
    · rcases hentries e he with he | he
      · refine .inl (hsame.entries e ?_)
        unfold Session.entries at he ⊢
        rwa [hcalled.cache] at he
      · exact .inr (hdelivered he)
    · rw [hok, true_and, and_iff_right (hcalled.ok_iff.mp ⟨fresh, rfl⟩), hhanded, hreturned]
    · rw [hhanded]
      exact .inr ((herrors e he).imp_right .inl)
    · exact (hanswers rs hrs).imp fun t r h => h.imp_right hdelivered
  · rintro e s₂ ⟨calls, hcalled, hbatched⟩
    refine ⟨calls, hlog₁ ▸ hcalled.log, hbatched, fun e he => .inl (hsame.entries e ?_), ?_,
      fun e he => .inl (hcalled.errors e he), nofun⟩
    · unfold Session.entries at he ⊢
      rwa [hcalled.cache] at he
    · exact ⟨nofun, fun hall => hcalled.ok_iff.mpr hall.2.1⟩

theorem ensures_checked (b : Backend α σ) (ts : List (Trace α)) (shots : Option Shots)
    (s : Session α (σ × List (Call α))) :
    (b.recorded.submit ts shots).Ensures s fun r s' =>
      ∃ calls, Checked b (∀ t ∈ overridden ts shots, b.validate t = .ok ()) (overridden ts shots)
        s r s' calls := by
  rw [Backend.submit_eq]
  have hvalidated : (Execution.each (fun t => liftM (b.recorded.validate t))
      (overridden ts shots)).Ensures s fun r s' =>
        s' = s ∧ r = (overridden ts shots).forM b.validate := by
    refine ⟨?_, ensures_each_forM (fun t _ _ => .lift rfl) s⟩
    refine Ensures.each (· = s) rfl ?_
    rintro t - _ rfl
    exact .lift rfl
  refine hvalidated.bind ?_ ?_
  · rintro _ s₀ ⟨rfl, hvalid⟩
    refine (ensures_assign _ [] s₀).bind ?_ ?_
    · rintro _ s₁ ⟨⟨slots, jobs, ⟨⟩, hassigned⟩, hsame⟩
      have hall : ∀ t ∈ overridden ts shots, b.validate t = .ok () :=
        forM_eq_ok_iff.mp hvalid.symm
      exact (ensures_executed b hassigned hsame).mono fun r s' ⟨calls, h⟩ =>
        ⟨calls, h.log, h.batched, h.entries, by rw [h.ok_iff, true_and, and_iff_right hall],
          h.errors, h.answers⟩
    · rintro e s' ⟨⟨slots, jobs, ⟨⟩, -⟩, -⟩
  · rintro e _ ⟨rfl, hinvalid⟩
    refine ⟨[], (List.append_nil _).symm, fun _ => Nat.zero_le 1, fun e he => .inl he,
      ⟨nofun, fun hall => ?_⟩, ?_, nofun⟩
    · exact nomatch hinvalid.trans (forM_eq_ok_iff.mpr hall.1)
    · rintro _ ⟨⟩
      exact .inr (.inr (.inr (exists_of_forM_error hinvalid.symm)))

/-- Where places do not shift, every cached result is one that a call returned. -/
def Sourced (b : Backend α σ) (s : Session α (σ × List (Call α))) : Prop :=
  (b.capabilities.batch = true ∨ ∀ call ∈ s.log, call.Even) →
    ∀ e ∈ s.entries, ∃ call ∈ s.log, call.Returns e.1 e.2

namespace Checked

variable {accepted : Prop} {ts : List (Trace α)} {r : Except Error (List (Tensor α))}
  {s' : Session α (σ × List (Call α))} {calls : List (Call α)}

theorem inStep (h : Checked b accepted ts s r s' calls)
    (heven : b.capabilities.batch = true ∨ ∀ call ∈ s'.log, call.Even) : InStep calls := by
  refine heven.imp h.batched fun heven call hcall => heven call ?_
  rw [h.log]
  exact List.mem_append_right _ hcall

/-- What a call returned before this submission is in the record still. -/
theorem mem_log (h : Checked b accepted ts s r s' calls) {call : Call α}
    (hcall : call ∈ s.log ∨ call ∈ calls) : call ∈ s'.log := by
  rw [h.log]
  exact List.mem_append.mpr hcall

theorem cached (h : Checked b accepted ts s r s' calls) (hs : Sourced b s)
    (heven : b.capabilities.batch = true ∨ ∀ call ∈ s'.log, call.Even)
    {e : Fingerprint α × Tensor α} (he : e ∈ s.entries) :
    ∃ call ∈ s'.log, call.Returns e.1 e.2 := by
  have hbefore : b.capabilities.batch = true ∨ ∀ call ∈ s.log, call.Even :=
    heven.imp_right fun heven call hcall => heven call (h.mem_log (.inl hcall))
  obtain ⟨call, hcall, hreturns⟩ := hs hbefore e he
  exact ⟨call, h.mem_log (.inl hcall), hreturns⟩

theorem delivered (h : Checked b accepted ts s r s' calls)
    (heven : b.capabilities.batch = true ∨ ∀ call ∈ s'.log, call.Even) {key : Fingerprint α}
    {x : Tensor α} (hx : Delivered calls key x) : ∃ call ∈ s'.log, call.Returns key x := by
  obtain ⟨call, hcall, hreturns⟩ := returns_of_delivered (h.inStep heven) hx
  exact ⟨call, h.mem_log (.inr hcall), hreturns⟩

theorem sourced (h : Checked b accepted ts s r s' calls) (hs : Sourced b s) : Sourced b s' := by
  intro heven e he
  rcases h.entries e he with he | he
  · exact h.cached hs heven he
  · exact h.delivered heven he

end Checked

theorem sourced_serve (hs : Sourced b s) (r : SessionStep α) :
    Sourced b (b.recorded.serve s r) := by
  cases r with
  | submit ts shots =>
    obtain ⟨calls, h⟩ := ensures_checked b ts shots s
    exact h.sourced hs
  | clear =>
    obtain ⟨device, cache⟩ := s
    cases cache <;> exact fun _ e he => absurd he List.not_mem_nil

theorem sourced_sessionAfter (b : Backend α σ) (device : σ) (capacity : Option ℕ)
    (history : List (SessionStep α)) :
    Sourced b (b.recorded.sessionAfter (device, []) capacity history) := by
  induction history using List.reverseRecOn with
  | nil => cases capacity <;> exact fun _ e he => absurd he List.not_mem_nil
  | append_singleton history r ih =>
    have hstep : b.recorded.sessionAfter (device, []) capacity (history ++ [r]) =
        b.recorded.serve (b.recorded.sessionAfter (device, []) capacity history) r :=
      List.foldl_append
    rw [hstep]
    exact sourced_serve ih r

/-- Whether with or without a record, a request does the same. -/
theorem unlogged_serve (b : Backend α σ) (s : Session α (σ × List (Call α))) (r : SessionStep α) :
    (b.recorded.serve s r).unlogged = b.serve s.unlogged r := by
  cases r with
  | submit ts shots => exact (congrArg Prod.snd (Mirrors.submit b _ ts shots s)).symm
  | clear =>
    obtain ⟨device, cache⟩ := s
    cases cache <;> rfl

theorem unlogged_sessionAfter (b : Backend α σ) (device : σ) (capacity : Option ℕ)
    (history : List (SessionStep α)) :
    (b.recorded.sessionAfter (device, []) capacity history).unlogged =
      b.sessionAfter device capacity history :=
  (List.foldl_hom Session.unlogged fun s r => (unlogged_serve b s r).symm).symm

/-- After any requests, and whatever the backend returns: a submission
    succeeds just if its traces are validated, no call of it fails, and the
    results of its calls, as one sequence, have the number and the shapes that
    the executed traces call for.  It then returns for a trace what was in the
    cache before or what stands in the place of a trace with its fingerprint.

    If batches are submitted whole, or if every call returned as many results
    as it was handed traces, then each call of a submission that succeeds
    answered its traces one by one, and all that is returned or cached for a
    fingerprint is what a call returned for a trace with that fingerprint. -/
theorem submit_ok_iff (b : Backend α σ) (device : σ) (capacity : Option ℕ)
    (history : List (SessionStep α)) (ts : List (Trace α)) (shots : Option Shots) :
    let before := b.recorded.sessionAfter (device, []) capacity history
    let (outcome, after) := (b.recorded.submit ts shots).perform before
    (b.submit ts shots).perform (b.sessionAfter device capacity history) =
      (outcome, after.unlogged) ∧
    ∃ calls, after.log = before.log ++ calls ∧
      ((∃ rs, outcome = .ok rs) ↔ (∀ t ∈ overridden ts shots, b.validate t = .ok ()) ∧
        (∀ call ∈ calls, call.Succeeds) ∧ List.Forall₂ Suits (handed calls) (returned calls)) ∧
      (∀ e, outcome = .error e → (∃ call ∈ calls, call.outcome = .error e) ∨
        (∃ t ∈ handed calls, t.outputShape = .error e) ∨ (∃ fault, e = .shapeMismatch fault) ∨
          ∃ t ∈ overridden ts shots, b.validate t = .error e) ∧
      (∀ rs, outcome = .ok rs → List.Forall₂ (fun t r => before.lookup t.fingerprint = some r ∨
        Delivered calls t.fingerprint r) (overridden ts shots) rs) ∧
      ((b.capabilities.batch = true ∨ ∀ call ∈ after.log, call.Even) →
        (∀ rs, outcome = .ok rs → (∀ call ∈ calls, call.Answers) ∧
          List.Forall₂ (fun t r => ∃ call ∈ after.log, call.Returns t.fingerprint r)
            (overridden ts shots) rs) ∧
        ∀ e ∈ after.entries, ∃ call ∈ after.log, call.Returns e.1 e.2) := by
  intro before
  have hsourced : Sourced b before := sourced_sessionAfter b device capacity history
  obtain ⟨calls, h⟩ := ensures_checked b ts shots before
  have hmirrors : Mirrors (b.recorded.submit ts shots) (b.submit ts shots) :=
    Mirrors.submit b _ ts shots
  have hsame : before.unlogged = b.sessionAfter device capacity history :=
    unlogged_sessionAfter b device capacity history
  refine ⟨hsame ▸ hmirrors before, calls, h.log, h.ok_iff, h.errors, h.answers,
    fun heven => ⟨fun rs hrs => ?_, h.sourced hsourced heven⟩⟩
  obtain ⟨-, hsucceeds, hsuits⟩ := h.ok_iff.mp ⟨rs, hrs⟩
  refine ⟨answers_of_suits (h.inStep heven) hsucceeds hsuits, (h.answers rs hrs).imp ?_⟩
  rintro t r (hknown | hplaced)
  · exact h.cached hsourced heven (Session.mem_of_lookup hknown)
  · exact h.delivered heven hplaced

end Submissions

/-! ## Where places shift -/

/-- One call for every trace that was not cached. -/
def sizingCalls : List (Call Float) :=
  [1, 2, 2, 3].map fun n => ⟨[probe n], .ok [registerSize (probe n)]⟩

/-- One trace at a time, and one result each: what is cached at the end was
    returned for its fingerprint. -/
theorem submit_ok_iff_sizing :
    let before := sizing.recorded.sessionAfter ((), []) (some 1) earlierRequests
    let after := ((sizing.recorded.submit laterTraces (some .analytic)).perform before).2
    after.log = sizingCalls ∧ (∀ call ∈ sizingCalls, call.Even) ∧
    ∀ e ∈ after.entries, ∃ call ∈ sizingCalls, call.Returns e.1 e.2 := by
  intro before after
  have hlog : after.log = sizingCalls := rfl
  have heven : ∀ call ∈ sizingCalls, call.Even := List.forall_mem_map.mpr fun _ _ => rfl
  obtain ⟨-, calls, -, -, -, -, hanswered⟩ :=
    submit_ok_iff sizing () (some 1) earlierRequests laterTraces (some .analytic)
  exact ⟨hlog, heven, (hanswered (.inr heven)).2⟩

/-- It returns nothing for one wire, and for more of them everything twice. -/
def lopsided : Backend Float Unit :=
  { sizing with
    execute := fun ts _ =>
      (.ok (ts.flatMap fun t => if t.register = 1 then [] else [registerSize t, registerSize t]),
        ()) }

/-- How many wires are acted on, once for every entry of six. -/
def actedOn (t : Trace Float) : Tensor Float :=
  ⟨[6], Array.replicate 6 (Float.ofNat (t.operations.flatMap (·.wires)).length), rfl⟩

/-- It takes batches whole, and has a gate on any number of wires. -/
def counting : Backend Float Unit :=
  { sizing with
    capabilities := { Capabilities.simulator 64 with native := [spreading.name] }
    execute := fun ts _ => (.ok (ts.map actedOn), ()) }

/-- Of two traces with one fingerprint the second shares the job of the first. -/
theorem assign_twins {t u : Trace α} (h : u.fingerprint = t.fingerprint) {s : Session α σ}
    (hs : s.cache = none) :
    (Backend.assign [t, u] []).perform s =
      (.ok ([.awaited 0, .awaited 0], [⟨t.fingerprint, t⟩]), s) := by
  obtain ⟨device, cache⟩ := s
  subst hs
  unfold Backend.assign
  simp only [List.findIdx?_nil]
  unfold Backend.assign
  simp only [h, List.findIdx?_cons, List.nil_append, beq_self_eq_true]
  unfold Backend.assign
  rfl

theorem submit_counting :
    (counting.recorded.submit [onOneWire, onTwoWires] none).perform ⟨((), []), none⟩ =
      (.ok [actedOn onOneWire, actedOn onOneWire],
        ⟨((), [⟨[onOneWire], .ok [actedOn onOneWire]⟩]), none⟩) := by
  have hkey : onTwoWires.fingerprint = onOneWire.fingerprint := by decide +kernel
  have hvalid : (Execution.each (fun t => liftM (counting.recorded.validate t))
      [onOneWire, onTwoWires]).perform (⟨((), []), none⟩ : Session Float (Unit × List (Call Float)))
        = (.ok (), ⟨((), []), none⟩) := rfl
  rw [Backend.submit_eq, Execution.perform_bind]
  unfold overridden
  dsimp only
  rw [hvalid]
  dsimp only
  rw [Execution.perform_bind, assign_twins hkey rfl]
  rfl

/-- **Submissions that succeed and should not.**  The first call returns
    nothing and the second two results, which makes two for two traces: the
    result for two wires is returned and cached for one wire.  And of two traces
    with one fingerprint only the first is executed, and the second gets its
    result. -/
theorem submit_lopsided :
    let (outcome, after) := (lopsided.recorded.submit [probe 1, probe 2] none).perform
      ⟨((), []), some (.empty 0)⟩
    let (shared, done) := (counting.recorded.submit [onOneWire, onTwoWires] none).perform
      ⟨((), []), none⟩
    (outcome = .ok [registerSize (probe 2), registerSize (probe 2)] ∧
      after.log = [⟨[probe 1], .ok []⟩,
        ⟨[probe 2], .ok [registerSize (probe 2), registerSize (probe 2)]⟩] ∧
      after.lookup (probe 1).fingerprint = some (registerSize (probe 2)) ∧
      ¬ ∀ call ∈ after.log, call.Answers) ∧
    shared = .ok [actedOn onOneWire, actedOn onOneWire] ∧
    ∀ call ∈ done.log, onTwoWires ∉ call.traces := by
  rw [submit_counting]
  refine ⟨⟨rfl, rfl, rfl, fun hanswers => ?_⟩, rfl, ?_⟩
  · -- no result for the one trace of the first call
    obtain ⟨rs, hrs, hshapes⟩ := hanswers ⟨[probe 1], .ok []⟩ List.mem_cons_self
    obtain rfl : [] = rs := Except.ok.inj hrs
    cases hshapes
  · rintro _ (_ | ⟨_, ⟨⟩⟩) hmem
    have hread : onTwoWires.measurements.map (·.wires) = onOneWire.measurements.map (·.wires) :=
      congrArg (fun t : Trace Float => t.measurements.map (·.wires)) (List.mem_singleton.mp hmem)
    exact absurd hread (by decide)

end Proofs

end CircuitGrad
