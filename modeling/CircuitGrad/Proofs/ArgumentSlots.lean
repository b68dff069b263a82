import CircuitGrad.Proofs.BatchedRequest
import CircuitGrad.Proofs.SeededArguments

/-! # Where arguments stand among the inputs

    Each differentiable argument has a stretch of inputs of its own, after
    those of the arguments before it, and the others have none.  The layout of
    a trace says where the stretches start, for every trace that a binding
    constructs: whether it was recorded at the arguments or moved to them
    (`fits_of_construct`).  A trace that was constructed is constructed again
    by the requests that follow (`construct_again`).
-/

namespace CircuitGrad

/-- Every argument has its slot, and the inputs of the differentiable ones are in range. -/
structure ArgumentLayout.Fits (layout : ArgumentLayout) (args : List (Argument ℝ)) : Prop where
  count : layout.slots.length = args.length
  slot  : ∀ (i : ℕ) (a : Argument ℝ), args[i]? = some a → ∃ start,
    layout.slots[i]? = some ⟨a.shape, if a.differentiable then some start else none⟩ ∧
      (a.differentiable = true → start + Tensor.volume a.shape ≤ layout.inputCount)

/-- No circuit measures a Hamiltonian without terms. -/
def CircuitFunction.HasTerms (f : CircuitFunction ℝ) : Prop :=
  ∀ args n r, f args (.start n) = .ok r → ∀ m ∈ r.measurements, m.HasTerms

namespace Proofs

variable {σ : Type} {b : Binding ℝ σ} {args : List (Argument ℝ)} {s s₁ u : BindingState ℝ σ}
  {t : Trace ℝ}

/-! ## Slots -/

section Slots

/-- The layout that arguments are seeded with. -/
theorem fits_placedAt (hfilled : ∀ a ∈ args, a.Filled) :
    (ArgumentLayout.mk ((placedAt 0 args).map slotOf)).Fits args where
  count := by
    rw [List.length_map]
    exact length_zip_offsets 0 args
  slot := by
    intro i a ha
    refine ⟨((args.take i).map (·.inputCount)).sum, ?_, fun hkind => ?_⟩
    · show ((args.zip (Argument.offsets 0 args)).map slotOf)[i]? = _
      rw [List.getElem?_map, getElem?_zip_offsets ha, Nat.zero_add]
      rfl
    · have hown : a.inputCount = Tensor.volume a.shape :=
        (if_pos hkind).trans (hfilled a (List.mem_of_getElem? ha))
      rw [← hown, show (ArgumentLayout.mk ((placedAt 0 args).map slotOf)).inputCount =
        (args.map (·.inputCount)).sum from inputCount_slotsFrom hfilled 0]
      exact sum_take_add_le ha

theorem fits_of_seed {order : ℕ} {traced : List (TracedArgument ℝ)} {layout : ArgumentLayout}
    (hfilled : ∀ a ∈ args, a.Filled) (h : Argument.seed args order = .ok (traced, layout)) :
    layout.Fits args := by
  unfold Argument.seed at h
  split at h
  · cases h
  · obtain ⟨-, rfl⟩ := Prod.mk.inj (Except.ok.inj h)
    exact fits_placedAt hfilled

end Slots

/-! ## Recorded traces -/

section Recorded

/-- What a new recording holds. -/
theorem freshTrace_eq_ok (h : freshTrace b args = .ok t) : ∃ traced layout r,
    Argument.seed args b.config.maxOrder = .ok (traced, layout) ∧
      b.circuit traced (.start b.register) = .ok r ∧ t.measurements = r.measurements ∧
      t.layout = layout ∧ t.Valid := by
  obtain ⟨⟨traced, layout⟩, hseed, h⟩ := bind_eq_ok h
  obtain ⟨r, hr, h⟩ := bind_eq_ok h
  obtain ⟨made, hmade, h⟩ := bind_eq_ok h
  obtain rfl := Except.ok.inj h
  obtain ⟨-, rfl, hvalid⟩ := make_eq_ok_iff.mp hmade
  exact ⟨traced, layout, r, hseed, hr, rfl, rfl, hvalid.measured, hvalid.operations,
    hvalid.measurements⟩

/-- A moved trace has the layout of the arguments that it is moved to. -/
theorem fits_of_moved {r : RecordedTrace ℝ} (hrecorded : freshTrace b r.args = .ok r.trace)
    (hfilled : ∀ a ∈ r.args, a.Filled) (hfilled' : ∀ a ∈ args, a.Filled)
    (h : r.moved? args = some t) : t.layout.Fits args := by
  obtain ⟨v, rfl⟩ := eq_assign_of_moved h
  obtain ⟨traced, layout, _, hseed, -, -, hlayout, -⟩ := freshTrace_eq_ok hrecorded
  obtain ⟨_, hlength, h⟩ := Option.bind_eq_some_iff.mp h
  obtain ⟨owns, howns, -⟩ := Option.bind_eq_some_iff.mp h
  have hlength' : r.args.length = args.length := by
    by_contra hne
    simp [guard, hne] at hlength
  obtain ⟨traced', hseed', -⟩ := seed_follows hlength' howns hfilled hfilled' hseed
  show r.trace.layout.Fits args
  rw [hlayout]
  exact fits_of_seed hfilled' hseed'

/-- No argument changes against itself. -/
theorem eq_zero_of_changes_self {a : Argument ℝ} {own : List ℝ} (h : a.changes? a = some own) :
    ∀ d ∈ own, d = 0 := by
  obtain ⟨-, ⟨-, rfl⟩ | ⟨-, rfl, -⟩⟩ := changes_eq_some h
  · intro d hd
    obtain ⟨i, hi⟩ := List.mem_iff_getElem?.mp hd
    rw [List.getElem?_zipWith] at hi
    cases hv : a.values[i]? with
    | none => simp [hv] at hi
    | some v =>
      simp only [hv] at hi
      rw [← Option.some.inj hi, sub_self]
  · exact fun d hd => absurd hd List.not_mem_nil

/-- A jet keeps its value when no input changes. -/
theorem moved_of_zero {changes : List ℝ} (hzero : ∀ d ∈ changes, d = 0) {x : Jet ℝ} {v : ℝ}
    (h : x.moved? changes = some v) : v = x.value := by
  unfold Jet.moved? at h
  split at h
  · exact (Option.some.inj h).symm
  · split at h
    · cases h
    · rw [← Option.some.inj h, sum_eq_sum, List.sum_eq_zero, add_zero]
      intro y hy
      obtain ⟨e, he, rfl⟩ := List.mem_map.mp hy
      have hd : e.1 = 0 := hzero e.1 (List.fst_mem_of_mem_zipIdx he)
      simp [hd]

/-- A trace that is moved to the arguments that it was recorded at stays where it is. -/
theorem moved_self {t' : Trace ℝ} (h : (RecordedTrace.mk args t).moved? args = some t') :
    t' = t := by
  obtain ⟨_, -, h⟩ := Option.bind_eq_some_iff.mp h
  obtain ⟨owns, howns, h⟩ := Option.bind_eq_some_iff.mp h
  obtain ⟨values, hvalues, h⟩ := Option.bind_eq_some_iff.mp h
  have hpairs : args.zip args = args.map fun a => (a, a) := List.zipWith_self
  have hzero : ∀ d ∈ owns.flatten, d = 0 := by
    intro d hd
    obtain ⟨own, hown, hd⟩ := List.mem_flatten.mp hd
    have hchanges := forall₂_of_mapM_eq_some howns
    rw [hpairs, List.forall₂_map_left_iff] at hchanges
    obtain ⟨a, -, ha⟩ := exists_of_forall₂ hchanges.flip hown
    exact eq_zero_of_changes_self ha d hd
  have hmoved := forall₂_of_mapM_eq_some hvalues
  have hsame : values.map id = t.values :=
    map_of_forall₂ (fun _ _ hv => moved_of_zero hzero hv) hmoved
  rw [List.map_id] at hsame
  have hcount : values.length = t.paramCount := by
    rw [← hmoved.length_eq]
    exact List.length_flatMap
  subst hsame
  rw [withValues_eq_assign t t.values hcount] at h
  rw [← Option.some.inj h]
  exact assign_point t

end Recorded

/-! ## Constructed traces -/

section Constructed

/-- Nothing is executed. -/
theorem session_construct (args : List (Argument ℝ)) (s : BindingState ℝ σ) :
    ((b.construct args).run.run s).2.session = s.session := by
  by_cases hmutable : b.config.mutable = true
  · unfold Binding.construct
    rw [if_pos hmutable, record_run]
  · rw [Bool.not_eq_true] at hmutable
    obtain ⟨t, -, hrun⟩ | ⟨-, ⟨t, -, hrun⟩ | ⟨e, -, hrun⟩⟩ := construct_cases hmutable args s
    all_goals rw [hrun]

theorem session_after (b : Binding ℝ σ) (session : Session ℝ σ)
    (calls : List (List (Argument ℝ))) : (b.after session calls).session = session := by
  unfold Binding.after
  have hstart : (Binding.start session : BindingState ℝ σ).session = session := rfl
  generalize Binding.start session = s at hstart
  induction calls generalizing s with
  | nil => exact hstart
  | cons call calls ih => exact ih _ ((session_construct call s).trans hstart)

/-- A trace is moved from a recorded one or newly recorded. -/
theorem construct_eq_ok (h : (b.construct args).run.run s = (.ok t, s₁)) :
    (∃ r, s.recorded = some r ∧ r.moved? args = some t ∧ s₁.recorded = s.recorded) ∨
      freshTrace b args = .ok t ∧
        (s₁.recorded = s.recorded ∨ s₁.recorded = some ⟨args, t⟩) := by
  by_cases hmutable : b.config.mutable = true
  · unfold Binding.construct at h
    rw [if_pos hmutable, record_run] at h
    obtain ⟨hfresh, rfl⟩ := Prod.mk.inj h
    exact .inr ⟨hfresh, .inl rfl⟩
  · rw [Bool.not_eq_true] at hmutable
    obtain ⟨t', hmoved, hrun⟩ | ⟨-, ⟨t', hfresh, hrun⟩ | ⟨e, -, hrun⟩⟩ :=
      construct_cases hmutable args s
    · obtain ⟨htrace, rfl⟩ := Prod.mk.inj (hrun.symm.trans h)
      obtain rfl := Except.ok.inj htrace
      obtain ⟨r, hr, hmoved⟩ := Option.bind_eq_some_iff.mp hmoved
      exact .inl ⟨r, hr, hmoved, rfl⟩
    · obtain ⟨htrace, rfl⟩ := Prod.mk.inj (hrun.symm.trans h)
      obtain rfl := Except.ok.inj htrace
      exact .inr ⟨hfresh, .inr rfl⟩
    · cases hrun.symm.trans h

/-- What is constructed depends on nothing but the recorded trace. -/
theorem construct_congr (args : List (Argument ℝ)) (h : u.recorded = s.recorded) :
    ((b.construct args).run.run u).1 = ((b.construct args).run.run s).1 := by
  by_cases hmutable : b.config.mutable = true
  · unfold Binding.construct
    rw [if_pos hmutable, record_run, record_run]
  · rw [Bool.not_eq_true] at hmutable
    have hu := construct_cases hmutable args u
    rw [h] at hu
    obtain ⟨t, hmoved, hrun⟩ | ⟨hnone, hs⟩ := construct_cases hmutable args s
    · obtain ⟨t', hmoved', hrun'⟩ | ⟨hnone, -⟩ := hu
      · obtain rfl := Option.some.inj (hmoved.symm.trans hmoved')
        rw [hrun, hrun']
      · cases hmoved.symm.trans hnone
    · obtain ⟨t', hmoved', -⟩ | ⟨-, hu⟩ := hu
      · cases hnone.symm.trans hmoved'
      · obtain ⟨t, hfresh, hrun⟩ | ⟨e, hfresh, hrun⟩ := hs
        all_goals obtain ⟨t', hfresh', hrun'⟩ | ⟨e', hfresh', hrun'⟩ := hu
        all_goals rw [hrun, hrun', ← hfresh, ← hfresh']

/-- Requests that follow construct the same trace. -/
theorem construct_again (h : (b.construct args).run.run s = (.ok t, s₁))
    (hu : u.recorded = s.recorded ∨ u.recorded = s₁.recorded) :
    ((b.construct args).run.run u).1 = .ok t := by
  have hold : u.recorded = s.recorded → ((b.construct args).run.run u).1 = .ok t := by
    intro hu
    rw [construct_congr args hu, h]
  rcases hu with hu | hu
  · exact hold hu
  obtain ⟨r, hr, hmoved, hsame⟩ | ⟨hfresh, hsame | hrecorded⟩ := construct_eq_ok h
  · exact hold (hu.trans hsame)
  · exact hold (hu.trans hsame)
  -- The trace is recorded, and moving it to the same arguments leaves it as it is.
  by_cases hmutable : b.config.mutable = true
  · unfold Binding.construct
    rw [if_pos hmutable, record_run]
    exact hfresh
  · rw [Bool.not_eq_true] at hmutable
    obtain ⟨t', hmoved, hrun⟩ | ⟨-, ⟨t', hfresh', hrun⟩ | ⟨e, hfailed, -⟩⟩ :=
      construct_cases hmutable args u
    · rw [hu, hrecorded] at hmoved
      rw [hrun, moved_self hmoved]
    · rw [hrun, ← hfresh', hfresh]
    · cases hfresh.symm.trans hfailed

/-- The layout of a constructed trace is that of the arguments. -/
theorem fits_of_construct (hs : Faithful b s) (hfilled : ∀ a ∈ args, a.Filled)
    (h : (b.construct args).run.run s = (.ok t, s₁)) : t.layout.Fits args := by
  obtain ⟨r, hr, hmoved, -⟩ | ⟨hfresh, -⟩ := construct_eq_ok h
  · obtain ⟨hfilled', hrecorded⟩ := hs r hr
    exact fits_of_moved hrecorded hfilled' hfilled hmoved
  · obtain ⟨traced, layout, _, hseed, -, -, rfl, -⟩ := freshTrace_eq_ok hfresh
    exact fits_of_seed hfilled hseed

/-- A constructed trace is valid and measures what the circuit function measures. -/
theorem valid_of_construct (hterms : b.circuit.HasTerms) (hs : Faithful b s)
    (h : (b.construct args).run.run s = (.ok t, s₁)) :
    t.Valid ∧ ∀ m ∈ t.measurements, m.HasTerms := by
  have hrecorded : ∀ own u, freshTrace b own = .ok u →
      u.Valid ∧ ∀ m ∈ u.measurements, m.HasTerms := by
    intro own u hu
    obtain ⟨traced, _, r, -, hr, hmeasured, -, hvalid⟩ := freshTrace_eq_ok hu
    exact ⟨hvalid, hmeasured ▸ hterms traced _ r hr⟩
  obtain ⟨r, hr, hmoved, -⟩ | ⟨hfresh, -⟩ := construct_eq_ok h
  · obtain ⟨v, rfl⟩ := eq_assign_of_moved hmoved
    obtain ⟨hvalid, hms⟩ := hrecorded _ _ (hs r hr).2
    exact ⟨valid_assign hvalid v, hms⟩
  · exact hrecorded _ _ hfresh

end Constructed

end Proofs

end CircuitGrad
