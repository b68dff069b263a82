import CircuitGrad.Proofs.PlanAlgebra
import CircuitGrad.Proofs.ShareResults
import CircuitGrad.Proofs.TrailingDimensions

/-! # Splittings are exact

    Whatever way a trace is split, the exact results of the traces of the plan
    are combined to the exact result of the trace, and the traces can be
    executed when the trace can (`split_exact`).

    All traces of a plan end in one state.  In this state every share gives
    one contribution (`contributions_eq`), the contributions to one
    measurement are summed to its result (`collect_eq`), and the results are
    packed as those of the trace are (`recombine_eq`).
-/

namespace CircuitGrad

/-- The results of the plan's traces are combined to the result of the trace,
    and the traces can be executed when the trace can. -/
structure Plan.StandsFor (p : Plan ℝ) (t : Trace ℝ)
    (execute : Trace ℝ → Except Error (Tensor ℝ)) : Prop where
  combines : ∀ rs, p.traces.mapM execute = .ok rs → ∃ r, p.combine rs = .ok r ∧ execute t = .ok r
  executes : ∀ r, execute t = .ok r → ∃ rs, p.traces.mapM execute = .ok rs

namespace Proofs

variable {ρ : Type} {t : Trace ℝ} {s : StateVector ℝ}

/-! ## Execution -/

theorem wires_applyOperation {op : Operation ℝ} {s' : StateVector ℝ}
    (h : s.applyOperation op = .ok s') : s'.wires = s.wires := by
  unfold StateVector.applyOperation at h
  split at h
  · cases h
  · obtain ⟨_, -, h⟩ := bind_eq_ok h
    dsimp only at h
    split at h
    · cases h
    · obtain rfl := Except.ok.inj h
      exact StateVector.wires_applyBlocks ..

theorem wires_applyAll {ops : List (Operation ℝ)} {s' : StateVector ℝ}
    (h : s.applyAll ops = .ok s') : s'.wires = s.wires := by
  induction ops generalizing s with
  | nil =>
    cases h
    rfl
  | cons op ops ih =>
    obtain ⟨s₁, h₁, h⟩ := bind_eq_ok h
    exact (ih h).trans (wires_applyOperation h₁)

/-- No operation changes the register. -/
theorem wires_finalState (h : Simulation.finalState t = .ok s) : s.wires = t.register := by
  obtain ⟨s₀, h₀, h⟩ := bind_eq_ok h
  rw [wires_applyAll h]
  unfold StateVector.zero at h₀
  split at h₀
  · cases h₀
  · obtain rfl := Except.ok.inj h₀
    rfl

/-- A trace can be executed when the operations lead to a state in which all
    measurements can be evaluated. -/
theorem simulate_eq_ok_iff (sampler : Sampler ℝ ρ) (hshots : t.shots = .analytic) {T : Tensor ℝ} :
    t.simulate sampler = .ok T ↔ ∃ s, Simulation.finalState t = .ok s ∧
      (∀ m ∈ t.measurements, m.Evaluates s) ∧
      t.packResults [t.measurements.map (·.resultIn s)] = .ok T := by
  unfold Trace.simulate
  rw [results_of_analytic sampler hshots]
  constructor
  · intro h
    obtain ⟨results, hresults, hpack⟩ := bind_eq_ok h
    cases hfinal : Simulation.finalState t with
    | error e =>
      rw [hfinal] at hresults
      cases hresults
    | ok s =>
      rw [hfinal] at hresults
      cases hexact : t.measurements.mapM (Simulation.exact s) with
      | error e =>
        rw [ok_bind, hexact] at hresults
        cases hresults
      | ok rs =>
        rw [ok_bind, hexact] at hresults
        obtain rfl := Except.ok.inj hresults
        obtain ⟨hevaluates, rfl⟩ := mapM_exact_eq_ok_iff.mp hexact
        exact ⟨s, rfl, hevaluates, hpack⟩
  · rintro ⟨s, hfinal, hevaluates, hpack⟩
    rw [hfinal, ok_bind, mapM_exact_eq_ok_iff.mpr ⟨hevaluates, rfl⟩]
    exact hpack

/-- The shapes of the measurements are those of their results. -/
theorem measurementShapes_of_evaluates (hfinal : Simulation.finalState t = .ok s)
    (h : ∀ m ∈ t.measurements, m.Evaluates s) :
    t.measurementShapes none = .ok ((t.measurements.map (·.resultIn s)).map (·.shape)) := by
  rw [List.map_map]
  refine mapM_ok fun m hm => ?_
  rw [← wires_finalState hfinal]
  exact outputShape_of_evaluates (h m hm)

theorem packResults_of_evaluates (hshots : t.shots = .analytic)
    (hfinal : Simulation.finalState t = .ok s) (h : ∀ m ∈ t.measurements, m.Evaluates s) :
    ∃ T, t.packResults [t.measurements.map (·.resultIn s)] = .ok T ∧
      t.outputShape = .ok T.shape ∧
      t.unpackResult T = .ok [t.measurements.map (·.resultIn s)] := by
  have hshapes := measurementShapes_of_evaluates hfinal h
  obtain ⟨T, hpack, hshape, -⟩ := packResults_of_shapes hshapes hshots rfl
  refine ⟨T, hpack, ?_, unpack_packResults hshapes hshots rfl hpack⟩
  rw [outputShape_of_shapes hshapes hshots, hshape]

/-- Standard gates prepare a state of every register that can be held. -/
theorem exists_finalState (hvalid : t.Valid) (hstandard : ∀ op ∈ t.operations, op.Standard)
    (hnonempty : t.register ≠ 0) (hfits : t.register ≤ StateVector.maxWires) :
    ∃ ψ : Wave t.register, Simulation.finalState t = .ok (ofWave ψ) := by
  obtain ⟨A, hA⟩ := Acts.exists_of_standard hstandard hvalid.operations
  refine ⟨A (firstWave t.register), ?_⟩
  unfold Simulation.finalState
  rw [zero_eq_ok hnonempty hfits]
  exact hA _

/-- A trace of standard gates can be executed if every measurement has exact
    results. -/
theorem exists_simulate_eq_ok (sampler : Sampler ℝ ρ) (hvalid : t.Valid)
    (hstandard : ∀ op ∈ t.operations, op.Standard) (hshots : t.shots = .analytic)
    (hnonempty : t.register ≠ 0) (hfits : t.register ≤ StateVector.maxWires)
    (hms : ∀ m ∈ t.measurements, m.Analytic) : ∃ T, t.simulate sampler = .ok T := by
  obtain ⟨ψ, hfinal⟩ := exists_finalState hvalid hstandard hnonempty hfits
  have hevaluates : ∀ m ∈ t.measurements, m.Evaluates (ofWave ψ) := fun m hm =>
    evaluates_of_analytic (hms m hm) (hvalid.measurements m hm) ψ
  obtain ⟨T, hpack, -⟩ := packResults_of_evaluates hshots hfinal hevaluates
  exact ⟨T, (simulate_eq_ok_iff sampler hshots).mpr ⟨_, hfinal, hevaluates, hpack⟩⟩

/-! ## Recombination -/

/-- What the shares contribute in a state. -/
noncomputable def contributionsIn (s : StateVector ℝ) (shares : List (Share ℝ)) :
    List (Splitting.Contribution ℝ) :=
  shares.map fun share => ⟨0, share, share.measurement.resultIn s⟩

/-- The result of the part's trace in a state. -/
structure PartResult (s : StateVector ℝ) (part : Splitting.Part ℝ) (r : Tensor ℝ) : Prop where
  shape  : part.trace.outputShape = .ok r.shape
  unpack : part.trace.unpackResult r =
    .ok [(part.shares.map (·.measurement)).map (·.resultIn s)]

/-- A part gives one contribution for each of its shares. -/
theorem contributions_eq {part : Splitting.Part ℝ} {r : Tensor ℝ} (hr : PartResult s part r) :
    part.contributions r = .ok (contributionsIn s part.shares) := by
  unfold Splitting.Part.contributions
  rw [hr.unpack, ok_bind, List.map_map]
  refine congrArg Except.ok ((List.append_nil _).trans ?_)
  dsimp only
  rw [← List.map_prod_left_eq_zip, List.map_map]
  rfl

section Recombination

variable {shares : List (Share ℝ)} {parts : List (Splitting.Part ℝ)}

/-- The contributions to one measurement are summed to its result. -/
theorem collect_eq (hshared : t.Shared shares) {all : List (Share ℝ)} (hall : all.Perm shares)
    {e : Measurement ℝ × ℕ} (he : e ∈ t.measurements.zipIdx) (hterms : e.1.HasTerms)
    (hm : e.1.Evaluates s) :
    Splitting.collect (contributionsIn s all) 0 e.2 = .ok (e.1.resultIn s) := by
  have hown : (contributionsIn s all).filter (fun c => c.batch == 0 && c.share.parent == e.2) =
      contributionsIn s (all.filter fun share => share.parent == e.2) := by
    unfold contributionsIn
    rw [List.filter_map]
    rfl
  have hsharedAs := hshared.own e he
  have hsum := linearCombination_shares hsharedAs (ne_nil_of_sharedAs hterms hsharedAs) hm
    (hall.filter _)
  unfold Splitting.collect
  rw [hown]
  unfold contributionsIn
  simp only [List.map_map]
  exact hsum

/-- The parts give one contribution for each share of theirs. -/
theorem mapM_contributions {rs : List (Tensor ℝ)} (hrs : List.Forall₂ (PartResult s) parts rs) :
    (parts.zip rs).mapM (fun (p, r) => p.contributions r) =
      .ok (parts.map fun part => contributionsIn s part.shares) := by
  induction hrs with
  | nil => rfl
  | cons hr _ ih =>
    rw [List.zip_cons_cons, List.mapM_cons]
    dsimp only
    rw [contributions_eq hr, ih]
    rfl

/-- The contributions to all measurements are summed to their results. -/
theorem mapM_collect (hshared : t.Shared shares) {all : List (Share ℝ)} (hall : all.Perm shares)
    (hterms : ∀ m ∈ t.measurements, m.HasTerms) (hevaluates : ∀ m ∈ t.measurements, m.Evaluates s) :
    (List.range t.measurements.length).mapM (Splitting.collect (contributionsIn s all) 0) =
      .ok (t.measurements.map (·.resultIn s)) := by
  have hresults : t.measurements.map (·.resultIn s) =
      t.measurements.zipIdx.map fun e => e.1.resultIn s := by
    conv_lhs => rw [← List.zipIdx_map_fst 0 t.measurements, List.map_map]
    rfl
  rw [range_length_eq_zipIdx, hresults, List.mapM_map]
  refine mapM_ok fun e he => ?_
  have hmem : e.1 ∈ t.measurements := List.fst_mem_of_mem_zipIdx he
  exact collect_eq hshared hall he (hterms _ hmem) (hevaluates _ hmem)

/-- Under exact evaluation all contributions belong to one batch. -/
theorem recombine_analytic (hshots : t.shots = .analytic) {rs results : List (Tensor ℝ)}
    {css : List (List (Splitting.Contribution ℝ))}
    (hcss : (parts.zip rs).mapM (fun (p, r) => p.contributions r) = .ok css)
    (hresults : (List.range t.measurements.length).mapM (Splitting.collect css.flatten 0) =
      .ok results) :
    Splitting.recombine t parts rs = t.packResults [results] := by
  have hcount : t.shots.batchCount = 1 := by
    rw [hshots]
    rfl
  unfold Splitting.recombine
  rw [hcss, ok_bind, hcount]
  simp only [List.range_one, List.mapM_cons, List.mapM_nil, hresults]
  rfl

/-- What all parts contribute is packed as the result of the trace. -/
theorem recombine_eq (hshots : t.shots = .analytic) (hterms : ∀ m ∈ t.measurements, m.HasTerms)
    (hshared : t.Shared shares) (hparts : t.Distributes shares parts)
    (hevaluates : ∀ m ∈ t.measurements, m.Evaluates s) {rs : List (Tensor ℝ)}
    (hrs : List.Forall₂ (PartResult s) parts rs) :
    Splitting.recombine t parts rs = t.packResults [t.measurements.map (·.resultIn s)] := by
  have hflatten : (parts.map fun part => contributionsIn s part.shares).flatten =
      contributionsIn s (parts.flatMap (·.shares)) := by
    unfold contributionsIn
    rw [List.map_flatMap, List.flatMap_def]
  refine recombine_analytic hshots (mapM_contributions hrs) ?_
  rw [hflatten]
  exact mapM_collect hshared hparts.complete hterms hevaluates

end Recombination

/-! ## Plans of parts -/

section Parts

variable {shares : List (Share ℝ)} {parts : List (Splitting.Part ℝ)}

/-- In a state, the shares can be evaluated when the measurements can. -/
theorem evaluates_shared_iff (hshared : t.Shared shares) :
    (∀ share ∈ shares, share.measurement.Evaluates s) ↔ ∀ m ∈ t.measurements, m.Evaluates s := by
  constructor
  · intro h m hm
    obtain ⟨k, hk, rfl⟩ := List.getElem_of_mem hm
    have he : (t.measurements[k], k) ∈ t.measurements.zipIdx :=
      List.mem_zipIdx_iff_getElem?.mpr (List.getElem?_eq_getElem hk)
    exact (evaluates_shares_iff (hshared.own _ he)).mp fun share hshare =>
      h share (List.mem_of_mem_filter hshare)
  · intro h share hshare
    have hk := hshared.parents share hshare
    have he : (t.measurements[share.parent], share.parent) ∈ t.measurements.zipIdx :=
      List.mem_zipIdx_iff_getElem?.mpr (List.getElem?_eq_getElem hk)
    refine (evaluates_shares_iff (hshared.own _ he)).mpr (h _ (List.getElem_mem hk)) share ?_
    exact List.mem_filter.mpr ⟨hshare, beq_iff_eq.mpr rfl⟩

/-- All traces of a plan end in the state of the trace. -/
theorem finalState_part (hparts : t.Distributes shares parts) {part : Splitting.Part ℝ}
    (hpart : part ∈ parts) : Simulation.finalState part.trace = Simulation.finalState t := by
  rw [hparts.traces part hpart]
  rfl

theorem analytic_part (hshots : t.shots = .analytic) (hparts : t.Distributes shares parts)
    {part : Splitting.Part ℝ} (hpart : part ∈ parts) : part.trace.shots = .analytic := by
  rw [hparts.traces part hpart]
  exact hshots

/-- A part's trace can be executed when its shares can be evaluated. -/
theorem simulate_part (sampler : Sampler ℝ ρ) (hshots : t.shots = .analytic)
    (hparts : t.Distributes shares parts) (hfinal : Simulation.finalState t = .ok s)
    {part : Splitting.Part ℝ} (hpart : part ∈ parts)
    (h : ∀ share ∈ part.shares, share.measurement.Evaluates s) :
    ∃ r, part.trace.simulate sampler = .ok r ∧ PartResult s part r := by
  have hms := measurements_part hparts hpart
  have hanalytic := analytic_part hshots hparts hpart
  have hfinal' := (finalState_part hparts hpart).trans hfinal
  have hevaluates : ∀ m ∈ part.trace.measurements, m.Evaluates s := by
    rw [hms]
    exact List.forall_mem_map.mpr h
  obtain ⟨r, hpack, hshape, hunpack⟩ := packResults_of_evaluates hanalytic hfinal' hevaluates
  refine ⟨r, (simulate_eq_ok_iff sampler hanalytic).mpr ⟨s, hfinal', hevaluates, hpack⟩, hshape, ?_⟩
  rw [← hms]
  exact hunpack

/-- Results of all traces are results of the parts in the state of the trace. -/
theorem forall₂_partResult (sampler : Sampler ℝ ρ) (hshots : t.shots = .analytic)
    (hparts : t.Distributes shares parts) (hfinal : Simulation.finalState t = .ok s)
    (h : ∀ share ∈ shares, share.measurement.Evaluates s) {rs : List (Tensor ℝ)}
    (hrs : parts.mapM (fun part => part.trace.simulate sampler) = .ok rs) :
    List.Forall₂ (PartResult s) parts rs := by
  refine forall₂_of_mapM (fun part hpart r hr => ?_) hrs
  obtain ⟨r', hr', hresult⟩ := simulate_part sampler hshots hparts hfinal hpart
    fun share hshare => h share (mem_shares hparts hpart hshare)
  obtain rfl : r = r' := Except.ok.inj (hr.symm.trans hr')
  exact hresult

/-- If all parts can be executed, they end in one state, in which all
    measurements can be evaluated. -/
theorem exists_state_of_parts (sampler : Sampler ℝ ρ) (hvalid : t.Valid)
    (hshots : t.shots = .analytic) (hterms : ∀ m ∈ t.measurements, m.HasTerms)
    (hshared : t.Shared shares) (hparts : t.Distributes shares parts)
    (h : ∀ part ∈ parts, ∃ r, part.trace.simulate sampler = .ok r) :
    ∃ s, Simulation.finalState t = .ok s ∧ ∀ m ∈ t.measurements, m.Evaluates s := by
  have hstate : ∀ part ∈ parts, ∃ s, Simulation.finalState t = .ok s ∧
      ∀ share ∈ part.shares, share.measurement.Evaluates s := by
    intro part hpart
    obtain ⟨r, hr⟩ := h part hpart
    obtain ⟨s, hfinal, hevaluates, -⟩ :=
      (simulate_eq_ok_iff sampler (analytic_part hshots hparts hpart)).mp hr
    rw [measurements_part hparts hpart] at hevaluates
    exact ⟨s, (finalState_part hparts hpart).symm.trans hfinal,
      fun share hshare => hevaluates _ (List.mem_map_of_mem hshare)⟩
  obtain ⟨part, hpart⟩ := exists_part hvalid hterms hshared hparts
  obtain ⟨s, hfinal, -⟩ := hstate part hpart
  refine ⟨s, hfinal, (evaluates_shared_iff hshared).mp fun share hshare => ?_⟩
  obtain ⟨part', hpart', hshare'⟩ := List.mem_flatMap.mp (hparts.complete.mem_iff.mpr hshare)
  obtain ⟨s', hfinal', hevaluates⟩ := hstate part' hpart'
  obtain rfl : s = s' := Except.ok.inj (hfinal.symm.trans hfinal')
  exact hevaluates share hshare'

/-- Splitting is exact if the parts measure all shares. -/
theorem standsFor_parts (sampler : Sampler ℝ ρ) (hvalid : t.Valid) (hshots : t.shots = .analytic)
    (hterms : ∀ m ∈ t.measurements, m.HasTerms) (hshared : t.Shared shares)
    (hparts : t.Distributes shares parts) :
    (Plan.mk (parts.map (·.trace)) (Splitting.fold t parts)).StandsFor t (·.simulate sampler) := by
  -- In the final state, the plan combines to what the trace gives.
  have hcombine {s : StateVector ℝ} (hfinal : Simulation.finalState t = .ok s)
      (hevaluates : ∀ m ∈ t.measurements, m.Evaluates s) {rs : List (Tensor ℝ)}
      (hrs : (parts.map (·.trace)).mapM (·.simulate sampler) = .ok rs) :
      ∃ r, (Plan.mk (parts.map (·.trace)) (Splitting.fold t parts)).combine rs = .ok r ∧
        t.simulate sampler = .ok r := by
    obtain ⟨r, hpack, -⟩ := packResults_of_evaluates hshots hfinal hevaluates
    have hlength := length_of_mapM hrs
    rw [List.mapM_map] at hrs
    have hresults := forall₂_partResult sampler hshots hparts hfinal
      ((evaluates_shared_iff hshared).mpr hevaluates) hrs
    refine ⟨r, ?_, (simulate_eq_ok_iff sampler hshots).mpr ⟨s, hfinal, hevaluates, hpack⟩⟩
    rw [combine_of_length hlength]
    exact (fold_eq_recombine (hresults.imp fun _ _ hr => hr.shape)).trans
      ((recombine_eq hshots hterms hshared hparts hevaluates hresults).trans hpack)
  constructor
  · intro rs hrs
    have hall : ∀ part ∈ parts, ∃ r, part.trace.simulate sampler = .ok r := fun part hpart =>
      ok_of_mapM (x := part.trace) hrs (List.mem_map_of_mem hpart)
    obtain ⟨s, hfinal, hevaluates⟩ :=
      exists_state_of_parts sampler hvalid hshots hterms hshared hparts hall
    exact hcombine hfinal hevaluates hrs
  · intro r hr
    obtain ⟨s, hfinal, hevaluates, -⟩ := (simulate_eq_ok_iff sampler hshots).mp hr
    have hshares := (evaluates_shared_iff hshared).mpr hevaluates
    have hexists : ∀ u ∈ parts.map (·.trace), ∃ r, u.simulate sampler = .ok r := by
      intro u hu
      obtain ⟨part, hpart, rfl⟩ := List.mem_map.mp hu
      obtain ⟨r, hr, -⟩ := simulate_part sampler hshots hparts hfinal hpart
        fun share hshare => hshares share (mem_shares hparts hpart hshare)
      exact ⟨r, hr⟩
    exact exists_mapM_eq_ok hexists

end Parts

/-! ## Splittings -/

theorem standsFor_identity (t : Trace ℝ) (execute : Trace ℝ → Except Error (Tensor ℝ)) :
    (Plan.identity t).StandsFor t execute := by
  constructor
  · intro rs hrs
    obtain ⟨r, rs', hr, hrs', rfl⟩ := mapM_cons_eq_ok hrs
    cases hrs'
    exact ⟨r, rfl, hr⟩
  · intro r hr
    refine exists_mapM_eq_ok fun u hu => ?_
    obtain rfl := List.mem_singleton.mp hu
    exact ⟨r, hr⟩

section Splittings

variable {p : Plan ℝ} (sampler : Sampler ℝ ρ)

theorem standsFor_splitTerms (hvalid : t.Valid) (hshots : t.shots = .analytic)
    (hterms : ∀ m ∈ t.measurements, m.HasTerms) {grouped : Bool}
    (hp : t.splitTerms grouped = .ok p) : p.StandsFor t (·.simulate sampler) := by
  obtain ⟨shares, parts, hshared, hparts, rfl⟩ := parts_of_splitTerms hp
  exact standsFor_parts sampler hvalid hshots hterms hshared hparts

theorem standsFor_splitNonCommuting (hvalid : t.Valid) (hshots : t.shots = .analytic)
    (hterms : ∀ m ∈ t.measurements, m.HasTerms) (hp : t.splitNonCommuting = .ok p) :
    p.StandsFor t (·.simulate sampler) := by
  rcases parts_of_splitNonCommuting hp with rfl | ⟨shares, parts, hshared, hparts, rfl⟩
  · exact standsFor_identity t _
  · exact standsFor_parts sampler hvalid hshots hterms hshared hparts

/-- For a valid trace that is evaluated exactly, the plan of every splitting
    stands for the trace.  Hamiltonians have terms as soon as they are made
    (`terms_ne_nil_of_make`). -/
theorem split_exact (hvalid : t.Valid) (hshots : t.shots = .analytic)
    (hterms : ∀ m ∈ t.measurements, m.HasTerms)
    (hp : (∃ c, t.splitFor c = .ok p) ∨ t.splitNonCommuting = .ok p ∨
      ∃ grouped, t.splitTerms grouped = .ok p) : p.StandsFor t (·.simulate sampler) := by
  rcases hp with ⟨c, hp⟩ | hp | ⟨grouped, hp⟩
  · unfold Trace.splitFor at hp
    split at hp
    · exact standsFor_splitTerms sampler hvalid hshots hterms hp
    · split at hp
      · exact standsFor_splitNonCommuting sampler hvalid hshots hterms hp
      · obtain rfl := Except.ok.inj hp
        exact standsFor_identity t _
  · exact standsFor_splitNonCommuting sampler hvalid hshots hterms hp
  · exact standsFor_splitTerms sampler hvalid hshots hterms hp

end Splittings

/-! ## A mix of measurements -/

/-- The mean of a Hamiltonian whose words do not commute, a variance,
    probabilities and the state, after a controlled rotation. -/
noncomputable def mixed : Trace ℝ :=
  ⟨[⟨StandardGate.cry.spec, [.constant 1], [1, 0]⟩],
    [.ofObservable .expectation (.hamiltonian ⟨[(2, .single 0 .Z), (1, .single 0 .X)]⟩),
      .ofObservable .variance (.word (.single 1 .X)), .probs [1], .state], 2, .analytic, .empty⟩

/-- One trace measures the first word, the variance and the state, and the other
    the second word and the probabilities. -/
theorem split_exact_mixed : mixed.Valid ∧ (∀ m ∈ mixed.measurements, m.HasTerms) ∧
    ∃ p, mixed.splitTerms true = .ok p ∧
      p.traces.map (·.measurements.map (·.readout)) =
        [[.expectation, .variance, .state], [.expectation, .probability]] ∧
      ∀ sampler : Sampler ℝ Unit, ∃ rs r, p.traces.mapM (·.simulate sampler) = .ok rs ∧
        p.combine rs = .ok r ∧ mixed.simulate sampler = .ok r := by
  have hvalid : mixed.Valid := by
    refine ⟨List.cons_ne_nil _ _, ?_, ?_⟩
    · simp [mixed]
    · have hword : ∀ w ∈ (PauliWord.single 1 .X).wires, w < 2 := by decide
      simpa [mixed, Measurement.ofObservable, Measurement.probs, Measurement.state,
        Observable.wires, wires_of_two_terms] using hword
  have hterms : ∀ m ∈ mixed.measurements, m.HasTerms := by
    simp [mixed, Measurement.HasTerms, Measurement.ofObservable, Measurement.probs,
      Measurement.state]
  obtain ⟨p, hp, hreadouts⟩ : ∃ p, mixed.splitTerms true = .ok p ∧
      p.traces.map (·.measurements.map (·.readout)) =
        [[.expectation, .variance, .state], [.expectation, .probability]] := ⟨_, rfl, rfl⟩
  refine ⟨hvalid, hterms, p, hp, hreadouts, fun sampler => ?_⟩
  have hexact := split_exact sampler hvalid rfl hterms (.inr (.inr ⟨true, hp⟩))
  have hms : ∀ m ∈ mixed.measurements, m.Analytic := by
    refine List.forall_mem_cons.mpr ⟨.inr (.inr ⟨_, .inl rfl⟩), List.forall_mem_cons.mpr ⟨?_, ?_⟩⟩
    · exact .inr (.inr ⟨_, .inr rfl⟩)
    · exact List.forall_mem_cons.mpr ⟨.inr (.inl rfl), List.forall_mem_singleton.mpr (.inl rfl)⟩
  obtain ⟨T, hT⟩ := exists_simulate_eq_ok sampler hvalid
    (List.forall_mem_singleton.mpr ⟨.cry, rfl⟩) rfl (by decide) (by decide) hms
  obtain ⟨rs, hrs⟩ := hexact.executes T hT
  obtain ⟨r, hcombine, hr⟩ := hexact.combines rs hrs
  exact ⟨rs, r, hrs, hcombine, hr⟩

end Proofs

end CircuitGrad
