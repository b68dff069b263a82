import CircuitGrad.Proofs.ExecutionLog
import CircuitGrad.Proofs.Fingerprint

/-! # Dispatch

    Submitting traces gives the backend's results of these traces, whatever is
    in the cache, and executes no more than it must (`submit_correct`).

    The invariant of a session is that every cached result is right for all
    traces with its key (`Session.Correct`).  One submission assigns to every
    trace the place that its result comes from (`Assigned`), executes the
    jobs, and stores what comes back; each of these steps is stated once, by
    what it ends with, and the history of a session is an induction over
    requests.
-/

namespace CircuitGrad

variable {α σ : Type} [Scalar α]

/-- For the traces of a family the backend gives one result per trace, in
    order.  It depends on that trace alone, has its shape, and is the result of
    all traces with its fingerprint.  Executing may fail. -/
structure Backend.Reliable (b : Backend α σ) (family : Set (Trace α))
    (result : Trace α → Tensor α) : Prop where
  executes : ∀ ts state rs, (∀ t ∈ ts, t ∈ family) → (b.execute ts state).1 = .ok rs →
    rs = ts.map result
  shaped   : ∀ t ∈ family, ∀ shape, t.outputShape = .ok shape → (result t).shape = shape
  keyed    : ∀ t ∈ family, ∀ u ∈ family, t.fingerprint = u.fingerprint → result t = result u

/-- What a session is asked for. -/
inductive SessionStep (α : Type) where
  | submit (traces : List (Trace α)) (shots : Option Shots)
  | clear

/-- The traces that a request may execute. -/
def SessionStep.traces : SessionStep α → List (Trace α)
  | .submit ts shots => overridden ts shots
  | .clear => []

/-- Serve one request; what it gives to its caller is left out. -/
def Backend.serve (b : Backend α σ) (s : Session α σ) : SessionStep α → Session α σ
  | .submit ts shots => ((b.submit ts shots).perform s).2
  | .clear => (Backend.clearCache.perform s).2

/-- The session after some requests, beginning with an empty cache, if any. -/
def Backend.sessionAfter (b : Backend α σ) (device : σ) (capacity : Option ℕ)
    (history : List (SessionStep α)) : Session α σ :=
  history.foldl b.serve ⟨device, capacity.map .empty⟩

/-- The cached result is that of all traces with its key, and has their
    shape; one of them was executed. -/
structure EntryCorrect (family : Set (Trace α)) (result : Trace α → Tensor α)
    (e : Fingerprint α × Tensor α) : Prop where
  executed : ∃ t ∈ family, t.fingerprint = e.1 ∧ t.outputShape = .ok e.2.shape
  right    : ∀ t ∈ family, t.fingerprint = e.1 → e.2 = result t
  shaped   : ∀ t ∈ family, t.fingerprint = e.1 → ∀ shape, t.outputShape = .ok shape →
    e.2.shape = shape

/-- All cached results are correct. -/
def Session.Correct (family : Set (Trace α)) (result : Trace α → Tensor α) (s : Session α σ) :
    Prop :=
  ∀ e ∈ s.entries, EntryCorrect family result e

theorem Backend.Reliable.logged {b : Backend α σ} {family : Set (Trace α)}
    {result : Trace α → Tensor α} (hb : b.Reliable family result) :
    b.logged.Reliable family result where
  executes := fun ts state rs hts h => hb.executes ts state.1 rs hts h
  shaped := hb.shaped
  keyed := hb.keyed

namespace Proofs

open Execution (Ensures)

/-! ## Assigning traces to jobs -/

/-- A session as good as the other: looking up gives the same, and the cache
    holds nothing else. -/
structure SameContents (s s' : Session α σ) : Prop where
  device  : s'.device = s.device
  lookup  : s'.lookup = s.lookup
  entries : ∀ e ∈ s'.entries, e ∈ s.entries

theorem SameContents.refl (s : Session α σ) : SameContents s s := ⟨rfl, rfl, fun _ h => h⟩

theorem SameContents.trans {s s' s'' : Session α σ} (h : SameContents s s')
    (h' : SameContents s' s'') : SameContents s s'' :=
  ⟨h'.device.trans h.device, h'.lookup.trans h.lookup, fun e he => h.entries e (h'.entries e he)⟩

theorem ensures_lookUp (key : Fingerprint α) (s : Session α σ) :
    (Backend.lookUp key).Ensures s fun r s' => r = .ok (s.lookup key) ∧ SameContents s s' := by
  obtain ⟨device, cache⟩ := s
  cases cache with
  | none => exact ⟨rfl, .refl _⟩
  | some c =>
    refine ⟨congrArg Except.ok (LruCache.get_fst c key), rfl, ?_, ?_⟩
    · exact funext fun k => congrArg (List.lookup k) (LruCache.entries_get c key)
    · intro e he
      have hmem : e ∈ (c.get key).2.entries := he
      rwa [LruCache.entries_get] at hmem

/-- The slots of traces and the jobs that they add, by what is remembered and
    the jobs so far. -/
inductive Assigned (memory : Fingerprint α → Option (Tensor α)) :
    List (Trace α) → List (Job α) → List (Slot α) → List (Job α) → Prop
  | nil {jobs} : Assigned memory [] jobs [] []
  | shared {t ts jobs slots new j} : jobs.findIdx? (·.key == t.fingerprint) = some j →
      Assigned memory ts jobs slots new → Assigned memory (t :: ts) jobs (.awaited j :: slots) new
  | known {t ts jobs slots new r} : memory t.fingerprint = some r →
      Assigned memory ts jobs slots new → Assigned memory (t :: ts) jobs (.known r :: slots) new
  | job {t ts jobs slots new} : jobs.findIdx? (·.key == t.fingerprint) = none →
      memory t.fingerprint = none →
      Assigned memory ts (jobs ++ [⟨t.fingerprint, t⟩]) slots new →
      Assigned memory (t :: ts) jobs (.awaited jobs.length :: slots) (⟨t.fingerprint, t⟩ :: new)

theorem ensures_assign (ts : List (Trace α)) (jobs : List (Job α)) (s : Session α σ) :
    (Backend.assign ts jobs).Ensures s fun r s' =>
      (∃ slots new, r = .ok (slots, jobs ++ new) ∧ Assigned s.lookup ts jobs slots new) ∧
        SameContents s s' := by
  induction ts generalizing jobs s with
  | nil => exact ⟨⟨[], [], by rw [List.append_nil]; rfl, .nil⟩, .refl s⟩
  | cons t ts ih =>
    unfold Backend.assign
    dsimp only
    split
    · next j hj =>
      refine (ih jobs s).bind ?_ ?_
      · rintro _ s' ⟨⟨slots, new, ⟨⟩, hassigned⟩, hsame⟩
        exact ⟨⟨_, new, rfl, .shared hj hassigned⟩, hsame⟩
      · rintro e s' ⟨⟨slots, new, ⟨⟩, -⟩, -⟩
    · next hj =>
      refine (ensures_lookUp _ s).bind ?_ ?_
      · rintro found s₁ ⟨⟨⟩, hsame₁⟩
        cases hfound : s.lookup t.fingerprint with
        | some r =>
          refine (ih jobs s₁).bind ?_ ?_
          · rintro _ s' ⟨⟨slots, new, ⟨⟩, hassigned⟩, hsame⟩
            rw [hsame₁.lookup] at hassigned
            exact ⟨⟨_, new, rfl, .known hfound hassigned⟩, hsame₁.trans hsame⟩
          · rintro e s' ⟨⟨slots, new, ⟨⟩, -⟩, -⟩
        | none =>
          refine (ih _ s₁).bind ?_ ?_
          · rintro _ s' ⟨⟨slots, new, ⟨⟩, hassigned⟩, hsame⟩
            rw [hsame₁.lookup] at hassigned
            refine ⟨⟨_, _, ?_, .job hj hfound hassigned⟩, hsame₁.trans hsame⟩
            rw [List.append_assoc]
            rfl
          · rintro e s' ⟨⟨slots, new, ⟨⟩, -⟩, -⟩
      · rintro e s' ⟨⟨⟩, -⟩

/-- The result in the place of a job answers the slots that await it. -/
theorem exists_answer {jobs : List (Job α)} {fresh : List (Tensor α)} {job : Job α} {j : ℕ}
    (hlength : fresh.length = jobs.length) (hget : jobs[j]? = some job) :
    ∃ r, Backend.answer fresh.toArray (.awaited j) = .ok r ∧ (job, r) ∈ jobs.zip fresh := by
  obtain ⟨hlt, hjob⟩ := List.getElem?_eq_some_iff.mp hget
  have hfresh : fresh[j]? = some fresh[j] := List.getElem?_eq_getElem (hlength ▸ hlt)
  refine ⟨fresh[j], ?_, List.mem_of_getElem? (List.getElem?_zip_eq_some.mpr ⟨hget, hfresh⟩)⟩
  unfold Backend.answer
  simp only [List.getElem?_toArray, hfresh]

/-- The result is in the place of a job with the key. -/
def JobReturned (jobs : List (Job α)) (fresh : List (Tensor α)) (key : Fingerprint α)
    (r : Tensor α) : Prop :=
  ∃ job, (job, r) ∈ jobs.zip fresh ∧ job.key = key

namespace Assigned

variable {memory : Fingerprint α → Option (Tensor α)} {ts : List (Trace α)}
  {jobs new : List (Job α)} {slots : List (Slot α)}

/-- Only traces of the batch that are not remembered become jobs. -/
theorem of_mem (h : Assigned memory ts jobs slots new) {job : Job α} (hjob : job ∈ new) :
    job.key = job.trace.fingerprint ∧ job.trace ∈ ts ∧ memory job.key = none := by
  induction h with
  | nil => cases hjob
  | shared _ _ ih | known _ _ ih =>
    obtain ⟨hkey, hmem, hnone⟩ := ih hjob
    exact ⟨hkey, List.mem_cons_of_mem _ hmem, hnone⟩
  | job _ hmemory _ ih =>
    rcases List.mem_cons.mp hjob with rfl | hjob
    · exact ⟨rfl, List.mem_cons_self, hmemory⟩
    · obtain ⟨hkey, hmem, hnone⟩ := ih hjob
      exact ⟨hkey, List.mem_cons_of_mem _ hmem, hnone⟩

/-- No two jobs have one key. -/
theorem nodup (h : Assigned memory ts jobs slots new) (hjobs : (jobs.map (·.key)).Nodup) :
    ((jobs ++ new).map (·.key)).Nodup := by
  induction h with
  | nil => rwa [List.append_nil]
  | shared _ _ ih | known _ _ ih => exact ih hjobs
  | @job t ts jobs slots new hj _ _ ih =>
    rw [List.append_cons]
    refine ih ?_
    rw [List.map_append, List.nodup_append]
    refine ⟨hjobs, List.nodup_singleton _, ?_⟩
    rintro key hkey _ (_ | ⟨_, ⟨⟩⟩) rfl
    obtain ⟨job, hjob, hsame⟩ := List.mem_map.mp hkey
    have hnone := List.findIdx?_eq_none_iff.mp hj job hjob
    simp [hsame] at hnone

/-- The traces of the first jobs have different keys, and none of them is
    remembered. -/
theorem fresh_of_initial (h : Assigned memory ts [] slots new) {executed : List (Trace α)}
    (hinit : executed <+: new.map (·.trace)) :
    (executed.map (·.fingerprint)).Nodup ∧
      ∀ t ∈ executed, t ∈ ts ∧ memory t.fingerprint = none := by
  have hkeys : (new.map (·.trace)).map (·.fingerprint) = new.map (·.key) := by
    rw [List.map_map]
    exact List.map_congr_left fun job hjob => (h.of_mem hjob).1.symm
  constructor
  · have hnodup := h.nodup List.nodup_nil
    rw [List.nil_append, ← hkeys] at hnodup
    exact hnodup.sublist (hinit.sublist.map _)
  · intro t ht
    obtain ⟨job, hjob, rfl⟩ := List.mem_map.mp (hinit.subset ht)
    obtain ⟨hkey, hmem, hnone⟩ := h.of_mem hjob
    exact ⟨hmem, hkey ▸ hnone⟩

/-- With a result for every job, each trace gets what is remembered for it or
    the result of a job with its key. -/
theorem answered {fresh : List (Tensor α)} (h : Assigned memory ts jobs slots new)
    (hlength : fresh.length = (jobs ++ new).length) :
    ∃ rs, slots.mapM (Backend.answer fresh.toArray) = .ok rs ∧
      List.Forall₂ (fun t r => memory t.fingerprint = some r ∨
        JobReturned (jobs ++ new) fresh t.fingerprint r) ts rs := by
  induction h with
  | nil => exact ⟨[], rfl, .nil⟩
  | @shared t ts jobs slots new j hj _ ih =>
    obtain ⟨rs, hrs, hrest⟩ := ih hlength
    obtain ⟨hlt, hkey, -⟩ := List.findIdx?_eq_some_iff_getElem.mp hj
    have hget : (jobs ++ new)[j]? = some jobs[j] := by
      rw [List.getElem?_append_left hlt, List.getElem?_eq_getElem hlt]
    obtain ⟨r, hr, hplace⟩ := exists_answer hlength hget
    refine ⟨r :: rs, ?_, .cons (.inr ⟨_, hplace, by simpa using hkey⟩) hrest⟩
    rw [List.mapM_cons, hr, hrs]
    rfl
  | @known t ts jobs slots new r hmemory _ ih =>
    obtain ⟨rs, hrs, hrest⟩ := ih hlength
    refine ⟨r :: rs, ?_, .cons (.inl hmemory) hrest⟩
    rw [List.mapM_cons, hrs]
    rfl
  | @job t ts jobs slots new _ _ _ ih =>
    rw [List.append_assoc] at ih
    obtain ⟨rs, hrs, hrest⟩ := ih hlength
    have hget : (jobs ++ ⟨t.fingerprint, t⟩ :: new)[jobs.length]? = some ⟨t.fingerprint, t⟩ := by
      rw [List.getElem?_append_right le_rfl, Nat.sub_self]
      rfl
    obtain ⟨r, hr, hplace⟩ := exists_answer hlength hget
    refine ⟨r :: rs, ?_, .cons (.inr ⟨_, hplace, rfl⟩) hrest⟩
    rw [List.mapM_cons, hr]
    exact congrArg (fun rest => rest >>= fun rs => .ok (r :: rs)) hrs

/-- Every trace gets its result if remembered results and those of the jobs
    are right. -/
theorem answers {result : Trace α → Tensor α} (h : Assigned memory ts jobs slots new)
    (hknown : ∀ t ∈ ts, ∀ r, memory t.fingerprint = some r → r = result t)
    (hjobs : ∀ job ∈ jobs ++ new, ∀ t ∈ ts, job.key = t.fingerprint →
      result job.trace = result t) :
    slots.mapM (Backend.answer ((jobs ++ new).map fun job => result job.trace).toArray) =
      .ok (ts.map result) := by
  obtain ⟨rs, hrs, hanswered⟩ := h.answered (List.length_map fun job => result job.trace)
  have hright : List.Forall₂ (fun t r => result t = r) ts rs := by
    refine (forall₂_with (fun _ ht => ht) (fun _ _ => trivial) hanswered).imp ?_
    rintro t r ⟨hmemory | ⟨job, hplace, hkey⟩, ht, -⟩
    · exact (hknown t ht r hmemory).symm
    · rw [← List.map_prod_left_eq_zip] at hplace
      obtain ⟨_, hjob, ⟨⟩⟩ := List.mem_map.mp hplace
      exact (hjobs job hjob t ht hkey).symm
  have hall : ts.map result = rs := by
    rw [← List.forall₂_eq_eq_eq]
    exact List.forall₂_map_left_iff.mpr hright
  rw [hrs, hall]

end Assigned

/-! ## Executing jobs -/

section Executing

variable {b : Backend α σ} {family : Set (Trace α)} {result : Trace α → Tensor α}

theorem ensures_call (hb : b.Reliable family result) {ts : List (Trace α)}
    (hts : ∀ t ∈ ts, t ∈ family) (s : Session α (σ × List (Trace α))) :
    (b.logged.call ts).Ensures s fun r s' =>
      s'.cache = s.cache ∧ s'.log = s.log ++ ts ∧ ∀ rs, r = .ok rs → rs = ts.map result := by
  unfold Ensures
  rw [perform_call]
  exact ⟨rfl, rfl, fun rs h => hb.executes ts s.device.1 rs hts h⟩

/-- What is executed is logged, which may be a prefix only, and what comes back
    is right. -/
structure Executed (result : Trace α → Tensor α) (ts : List (Trace α))
    (s : Session α (σ × List (Trace α))) (r : Except Error (List (Tensor α)))
    (s' : Session α (σ × List (Trace α))) : Prop where
  cache : s'.cache = s.cache
  log   : ∃ executed, executed <+: ts ∧ s'.log = s.log ++ executed
  right : ∀ rs, r = .ok rs → rs = ts.map result

theorem ensures_calls (hb : b.Reliable family result) {jobs : List (Job α)}
    (hjobs : ∀ job ∈ jobs, job.trace ∈ family) (s : Session α (σ × List (Trace α))) :
    (jobs.mapM fun job => b.logged.call [job.trace]).Ensures s fun r s' =>
      Executed result (jobs.map (·.trace)) s (List.flatten <$> r) s' := by
  induction jobs generalizing s with
  | nil =>
    refine ⟨rfl, ⟨[], List.prefix_rfl, (List.append_nil _).symm⟩, ?_⟩
    rintro rs ⟨⟩
    rfl
  | cons job jobs ih =>
    obtain ⟨hfirst, hrest⟩ := List.forall_mem_cons.mp hjobs
    rw [List.mapM_cons]
    refine (ensures_call hb (List.forall_mem_singleton.mpr hfirst) s).bind ?_ ?_
    · rintro rs₁ s₁ ⟨hcache₁, hlog₁, hright₁⟩
      have hlog {executed : List (Trace α)} {s' : Session α (σ × List (Trace α))}
          (h : s'.log = s₁.log ++ executed) : s'.log = s.log ++ job.trace :: executed := by
        rw [h, hlog₁, List.append_assoc]
        rfl
      refine (ih hrest s₁).bind ?_ ?_
      · rintro rss s' ⟨hcache, ⟨executed, hinit, hlog'⟩, hright⟩
        refine ⟨hcache.trans hcache₁, ⟨_, (List.prefix_cons_inj _).mpr hinit, hlog hlog'⟩, ?_⟩
        rintro _ ⟨⟩
        rw [List.flatten_cons, hright₁ rs₁ rfl, hright _ rfl]
        rfl
      · rintro e s' ⟨hcache, ⟨executed, hinit, hlog'⟩, -⟩
        refine ⟨hcache.trans hcache₁, ⟨_, (List.prefix_cons_inj _).mpr hinit, hlog hlog'⟩, ?_⟩
        rintro _ ⟨⟩
    · rintro e s₁ ⟨hcache₁, hlog₁, -⟩
      refine ⟨hcache₁, ⟨_, List.prefix_append [job.trace] _, hlog₁⟩, ?_⟩
      rintro _ ⟨⟩

theorem ensures_runJobs (hb : b.Reliable family result) {jobs : List (Job α)}
    (hjobs : ∀ job ∈ jobs, job.trace ∈ family) (s : Session α (σ × List (Trace α))) :
    (b.logged.runJobs jobs).Ensures s (Executed result (jobs.map (·.trace)) s) := by
  unfold Backend.runJobs
  split
  · next hempty =>
    obtain rfl := List.isEmpty_iff.mp hempty
    refine ⟨rfl, ⟨[], List.prefix_rfl, (List.append_nil _).symm⟩, ?_⟩
    rintro rs ⟨⟩
    rfl
  · split
    · refine (ensures_call hb (List.forall_mem_map.mpr hjobs) s).mono ?_
      rintro r s' ⟨hcache, hlog, hright⟩
      exact ⟨hcache, ⟨_, List.prefix_rfl, hlog⟩, hright⟩
    · exact (ensures_calls hb hjobs s).bind (fun rss s' h => h) fun e s' h => h

/-! ## Storing results -/

/-- A result with another shape than that of the trace is not stored. -/
theorem ensures_accept (job : Job α) (r : Tensor α) (s : Session α σ) :
    (b.accept job r).Ensures s fun _ s' => s'.device = s.device ∧
      ∀ e ∈ s'.entries, e ∈ s.entries ∨
        e = (job.key, r) ∧ job.trace.outputShape = .ok r.shape := by
  have hsame : s.device = s.device ∧ ∀ e ∈ s.entries, e ∈ s.entries ∨
      e = (job.key, r) ∧ job.trace.outputShape = .ok r.shape :=
    ⟨rfl, fun e he => .inl he⟩
  unfold Backend.accept
  have hexpected : Ensures (liftM job.trace.outputShape) s fun shape s' =>
      shape = job.trace.outputShape ∧ s' = s :=
    .lift ⟨rfl, rfl⟩
  refine hexpected.bind ?_ ?_
  · rintro shape _ ⟨hshape, rfl⟩
    dsimp only
    split
    · exact hsame
    · next hne =>
      have hright : job.trace.outputShape = .ok r.shape := by
        rw [← hshape, not_not.mp hne]
      refine ⟨rfl, fun e he => ?_⟩
      rcases Session.mem_entries_of_insert he with rfl | he
      · exact .inr ⟨rfl, hright⟩
      · exact .inl he
  · rintro e _ ⟨-, rfl⟩
    exact hsame

/-- The result of a trace may be stored under its fingerprint. -/
theorem entryCorrect_of_executed (hb : b.Reliable family result) {t : Trace α} (ht : t ∈ family)
    (hshape : t.outputShape = .ok (result t).shape) :
    EntryCorrect family result (t.fingerprint, result t) where
  executed := ⟨t, ht, rfl, hshape⟩
  right := fun u hu hkey => hb.keyed t ht u hu hkey.symm
  shaped := fun u hu hkey shape hu_shape => by
    rw [show result t = result u from hb.keyed t ht u hu hkey.symm]
    exact hb.shaped u hu shape hu_shape

/-- Storing the results of jobs keeps the cache correct, also if a shape is
    wrong. -/
theorem ensures_conclude (hb : b.Reliable family result) {ts : List (Trace α)}
    {slots : List (Slot α)} {jobs : List (Job α)}
    (hjobs : ∀ job ∈ jobs, job.key = job.trace.fingerprint ∧ job.trace ∈ family)
    (hanswers : slots.mapM (Backend.answer (jobs.map fun job => result job.trace).toArray) =
      .ok (ts.map result)) {s : Session α σ} (hs : s.Correct family result) :
    (b.conclude slots jobs (jobs.map fun job => result job.trace)).Ensures s fun r s' =>
      s'.device = s.device ∧ s'.Correct family result ∧
        ∀ rs, r = .ok rs → rs = ts.map result := by
  unfold Backend.conclude
  rw [if_neg (not_not.mpr (List.length_map _))]
  have hstored : (Execution.each (fun p => b.accept p.1 p.2)
      (jobs.zip (jobs.map fun job => result job.trace))).Ensures s
        fun _ s' => s'.device = s.device ∧ s'.Correct family result := by
    refine .each (fun s' => s'.device = s.device ∧ s'.Correct family result) ⟨rfl, hs⟩ ?_
    rintro ⟨job, r⟩ hmem s₁ ⟨hdevice₁, hs₁⟩
    obtain ⟨hjob, rfl⟩ : job ∈ jobs ∧ r = result job.trace := by
      rw [← List.map_prod_left_eq_zip] at hmem
      obtain ⟨_, hjob, ⟨⟩⟩ := List.mem_map.mp hmem
      exact ⟨hjob, rfl⟩
    obtain ⟨hkey, hfamily⟩ := hjobs job hjob
    refine (ensures_accept job _ s₁).mono ?_
    rintro _ s' ⟨hdevice', hentries⟩
    refine ⟨hdevice'.trans hdevice₁, fun e he => ?_⟩
    rcases hentries e he with he | ⟨rfl, hshape⟩
    · exact hs₁ e he
    · rw [hkey]
      exact entryCorrect_of_executed hb hfamily hshape
  refine hstored.bind ?_ ?_
  · rintro _ s' ⟨hdevice', hs'⟩
    unfold Ensures
    rw [Execution.perform_mapM_lift, hanswers]
    refine ⟨hdevice', hs', ?_⟩
    rintro _ ⟨⟩
    rfl
  · rintro e s' ⟨hdevice', hs'⟩
    refine ⟨hdevice', hs', ?_⟩
    rintro _ ⟨⟩

/-! ## Submissions -/

/-- What a submission of traces ends with. -/
structure Submitted (family : Set (Trace α)) (result : Trace α → Tensor α) (ts : List (Trace α))
    (s : Session α (σ × List (Trace α))) (r : Except Error (List (Tensor α)))
    (s' : Session α (σ × List (Trace α))) : Prop where
  right   : ∀ rs, r = .ok rs → rs = ts.map result
  correct : s'.Correct family result
  log     : ∃ executed, s'.log = s.log ++ executed ∧ (executed.map (·.fingerprint)).Nodup ∧
    ∀ t ∈ executed, t ∈ ts ∧ s.lookup t.fingerprint = none

/-- What is left to do once every trace has its slot. -/
theorem ensures_execution (hb : b.Reliable family result) {ts : List (Trace α)}
    (hts : ∀ t ∈ ts, t ∈ family) {s s₁ : Session α (σ × List (Trace α))}
    (hs : s.Correct family result) {slots : List (Slot α)} {jobs : List (Job α)}
    (hassigned : Assigned s.lookup ts [] slots jobs) (hsame : SameContents s s₁) :
    Ensures (do
      let fresh ← b.logged.runJobs jobs
      b.logged.conclude slots jobs fresh) s₁ (Submitted family result ts s) := by
  have hs₁ : s₁.Correct family result := fun e he => hs e (hsame.entries e he)
  have hjobs : ∀ job ∈ jobs, job.key = job.trace.fingerprint ∧ job.trace ∈ family := by
    intro job hjob
    obtain ⟨hkey, hmem, -⟩ := hassigned.of_mem hjob
    exact ⟨hkey, hts _ hmem⟩
  have hanswers : slots.mapM (Backend.answer (jobs.map fun job => result job.trace).toArray) =
      .ok (ts.map result) := by
    refine hassigned.answers ?_ ?_
    · intro t ht r hr
      exact (hs _ (Session.mem_of_lookup hr)).right t (hts t ht) rfl
    · intro job hjob t ht hkey
      obtain ⟨hown, hfamily⟩ := hjobs job hjob
      exact hb.keyed _ hfamily t (hts t ht) (hown.symm.trans hkey)
  have hentries {s' : Session α (σ × List (Trace α))} (h : s'.cache = s₁.cache) :
      s'.Correct family result := by
    unfold Session.Correct Session.entries
    rw [h]
    exact hs₁
  have hdevice : s₁.log = s.log := congrArg Prod.snd hsame.device
  refine (ensures_runJobs hb (fun job hjob => (hjobs job hjob).2) s₁).bind ?_ ?_
  · rintro fresh s₂ ⟨hcache, ⟨executed, hinit, hlog₂⟩, hright⟩
    obtain rfl := hright fresh rfl
    rw [List.map_map]
    refine (ensures_conclude hb.logged hjobs hanswers (hentries hcache)).mono ?_
    rintro r s' ⟨hdevice', hcorrect, hright'⟩
    refine ⟨hright', hcorrect, executed, ?_, hassigned.fresh_of_initial hinit⟩
    rw [← hdevice, ← hlog₂]
    exact congrArg Prod.snd hdevice'
  · rintro e s₂ ⟨hcache, ⟨executed, hinit, hlog₂⟩, -⟩
    refine ⟨nofun, hentries hcache, executed, ?_, hassigned.fresh_of_initial hinit⟩
    rw [← hdevice, hlog₂]

theorem ensures_submit (hb : b.Reliable family result) {ts : List (Trace α)} {shots : Option Shots}
    (hts : ∀ t ∈ overridden ts shots, t ∈ family) {s : Session α (σ × List (Trace α))}
    (hs : s.Correct family result) :
    (b.logged.submit ts shots).Ensures s (Submitted family result (overridden ts shots) s) := by
  have hfailed (e : Error) : Submitted family result (overridden ts shots) s (.error e) s :=
    ⟨nofun, hs, [], (List.append_nil _).symm, List.nodup_nil,
      fun _ h => absurd h List.not_mem_nil⟩
  rw [Backend.submit_eq]
  have hvalidated : (Execution.each (fun t => liftM (b.logged.validate t))
      (overridden ts shots)).Ensures s fun _ s' => s' = s := by
    refine .each (· = s) rfl ?_
    rintro t - _ rfl
    exact .lift rfl
  refine hvalidated.bind ?_ ?_
  · intro _ s₀ hs₀
    subst hs₀
    refine (ensures_assign _ [] s₀).bind ?_ ?_
    · rintro _ s₁ ⟨⟨slots, jobs, ⟨⟩, hassigned⟩, hsame⟩
      exact ensures_execution hb hts hs hassigned hsame
    · rintro e s' ⟨⟨slots, jobs, ⟨⟩, -⟩, -⟩
  · rintro e _ rfl
    exact hfailed e

/-! ## Histories -/

/-- Whether with or without a log, a submission does the same. -/
theorem submit_withLog (b : Backend α σ) (ts : List (Trace α)) (shots : Option Shots)
    (s : Session α σ) (log : List (Trace α)) :
    (b.submit ts shots).perform s =
      (((b.logged.submit ts shots).perform (s.withLog log)).1,
        ((b.logged.submit ts shots).perform (s.withLog log)).2.unlogged) :=
  Mirrors.submit b _ ts shots (s.withLog log)

/-- One request keeps the cache correct. -/
theorem correct_serve (hb : b.Reliable family result) {s : Session α σ}
    (hs : s.Correct family result) {r : SessionStep α} (hr : ∀ t ∈ r.traces, t ∈ family) :
    (b.serve s r).Correct family result := by
  cases r with
  | submit ts shots =>
    have hsubmitted := ensures_submit hb (s := s.withLog []) hr hs
    show ((b.submit ts shots).perform s).2.Correct family result
    rw [submit_withLog b ts shots s []]
    exact hsubmitted.correct
  | clear =>
    obtain ⟨device, cache⟩ := s
    cases cache <;> exact fun e he => absurd he List.not_mem_nil

/-- The cache is correct after all requests. -/
theorem correct_sessionAfter (hb : b.Reliable family result) (device : σ) (capacity : Option ℕ)
    {history : List (SessionStep α)} (hhistory : ∀ r ∈ history, ∀ t ∈ r.traces, t ∈ family) :
    (b.sessionAfter device capacity history).Correct family result := by
  have hfold (s : Session α σ) (hs : s.Correct family result) :
      (history.foldl b.serve s).Correct family result := by
    induction history generalizing s with
    | nil => exact hs
    | cons r history ih =>
      obtain ⟨hr, hrest⟩ := List.forall_mem_cons.mp hhistory
      exact ih hrest _ (correct_serve hb hs hr)
  refine hfold _ ?_
  cases capacity <;> exact fun e he => absurd he List.not_mem_nil

/-- After any requests, a submission that succeeds gives the backend's results
    of its traces, with the shots given, in order.  Whether it succeeds or
    fails, no two executed traces have one fingerprint, none of them is one
    whose result was in the cache before, and every result that is in the
    cache afterwards is correct. -/
theorem submit_correct (hb : b.Reliable family result) (device : σ) (capacity : Option ℕ)
    (history : List (SessionStep α)) (hhistory : ∀ r ∈ history, ∀ t ∈ r.traces, t ∈ family)
    (ts : List (Trace α)) (shots : Option Shots) (hts : ∀ t ∈ overridden ts shots, t ∈ family) :
    let before := b.sessionAfter device capacity history
    let (outcome, after) := (b.submit ts shots).perform before
    (∀ rs, outcome = .ok rs → rs = (overridden ts shots).map result) ∧
    (∃ executed, (b.logged.submit ts shots).perform (before.withLog []) =
        (outcome, after.withLog executed) ∧
      (executed.map (·.fingerprint)).Nodup ∧
      ∀ t ∈ executed, t ∈ overridden ts shots ∧ before.lookup t.fingerprint = none) ∧
    after.Correct family result := by
  intro before
  have hbefore : before.Correct family result := correct_sessionAfter hb device capacity hhistory
  obtain ⟨hright, hcorrect, executed, hlog, hnodup, hfresh⟩ :=
    ensures_submit hb (s := before.withLog []) hts hbefore
  rw [submit_withLog b ts shots before []]
  refine ⟨hright, ⟨executed, ?_, hnodup, hfresh⟩, hcorrect⟩
  rw [← show _ = executed from hlog]
  rfl

end Executing

/-! ## A backend that tells the size of the register -/

/-- No operations, and the first wire is measured. -/
def probe (register : Nat) : Trace Float :=
  ⟨[], [.ofObservable .expectation (.word (.single 0 .Z))], register, .analytic, .empty⟩

def probes : Set (Trace Float) := {t | ∃ n < 2 ^ 64, t = probe n}

/-- The number of wires. -/
def registerSize (t : Trace Float) : Tensor Float := .scalar (Float.ofNat t.register)

/-- It takes one trace at a time. -/
def sizing : Backend Float Unit where
  name := "sizing"
  capabilities := { Capabilities.simulator 64 with native := [], batch := false }
  expansionDepth := 0
  gates := ⟨#[]⟩
  execute ts _ := (if ts.length > 1 then .error .aborted else .ok (ts.map registerSize), ())

theorem reliable_sizing : sizing.Reliable probes registerSize where
  executes := by
    intro ts state rs _ h
    simp only [sizing] at h
    split at h
    · cases h
    · exact (Except.ok.inj h).symm
  shaped := by
    rintro _ ⟨n, -, rfl⟩ shape h
    exact Except.ok.inj h
  keyed := by
    rintro _ ⟨n, hn, rfl⟩ _ ⟨m, hm, rfl⟩ h
    have hcodes := congrArg Fingerprint.codes h
    simp only [Trace.fingerprint, List.append_assoc] at hcodes
    obtain rfl := (legible_toBits.decodes_word n m hn hm _ _ hcodes).1
    rfl

/-- Requests that leave the result for two wires in a cache for one result. -/
def earlierRequests : List (SessionStep Float) :=
  [.submit [probe 1, probe 2, probe 1] none, .clear, .submit [probe 2] none]

/-- The first is asked for twice once shots are overridden. -/
def laterTraces : List (Trace Float) := [(probe 3).withShots (.finite 7), probe 2, probe 3]

/-- Only the trace on three wires is executed, and once. -/
theorem submit_correct_sizing :
    let before := sizing.sessionAfter () (some 1) earlierRequests
    let (outcome, after) := (sizing.submit laterTraces (some .analytic)).perform before
    outcome = .ok [registerSize (probe 3), registerSize (probe 2), registerSize (probe 3)] ∧
    (sizing.logged.submit laterTraces (some .analytic)).perform (before.withLog []) =
      (outcome, after.withLog [probe 3]) ∧
    after.Correct probes registerSize := by
  have hprobe (n : Nat) (h : n < 2 ^ 64) : probe n ∈ probes := ⟨n, h, rfl⟩
  have hearlier : ∀ r ∈ earlierRequests, ∀ t ∈ r.traces, t ∈ probes := by
    simp [earlierRequests, SessionStep.traces, overridden, hprobe]
  have hlater : ∀ t ∈ overridden laterTraces (some .analytic), t ∈ probes := by
    show ∀ t ∈ [probe 3, probe 2, probe 3], t ∈ probes
    simp [hprobe]
  obtain ⟨-, -, hcorrect⟩ := submit_correct reliable_sizing () (some 1) earlierRequests hearlier
    laterTraces (some .analytic) hlater
  exact ⟨rfl, rfl, hcorrect⟩

end Proofs

end CircuitGrad
