import CircuitGrad.Backend.Simulator
import CircuitGrad.Proofs.Isometry
import CircuitGrad.Proofs.Replacement
import CircuitGrad.Proofs.SplitExactness

/-! # States after a decomposition

    Every step of an expansion replaces a gate by others that do the same up
    to a global phase, so the whole decomposition of a trace changes the final
    state by the product of these phases and by nothing else
    (`finalState_of_replaces`).  A measured state shows the phase: the
    amplitudes are multiplied by it, and they stay what they were exactly when
    it is one (`decompose_amplitudes`).  A bit flip that is decomposed into a
    half turn is the smallest case in which it is not
    (`decompose_changes_amplitudes`).
-/

namespace CircuitGrad

/-- The global phase by which the decomposition of a standard operation differs from it. -/
noncomputable def Operation.expansionPhase (op : Operation ℝ) : ℂ :=
  match StandardGate.ofName? op.name with
  | some g => g.expansionPhase op.values
  | none => 1

/-- The global phase by which what an operation expands to differs from it: the phases of all
    decompositions on the way, of the operation and then of its parts. -/
noncomputable def GateTable.expansionPhase (table : GateTable ℝ) (stop : Criterion ℝ) :
    ℕ → Operation ℝ → ℂ
  | 0, _ => 1
  | depth + 1, op =>
    if stop.check op then 1
    else match table.decompose? op 0 with
      | some (.ok parts) => (parts.map (table.expansionPhase stop depth)).prod * op.expansionPhase
      | _ => 1

/-- The global phase by which the decomposition of a trace into native operations differs from
    the trace. -/
noncomputable def Backend.decompositionPhase {σ : Type} (b : Backend ℝ σ) (t : Trace ℝ) : ℂ :=
  (t.operations.map
    (b.gates.expansionPhase (.oneOf b.capabilities.native) b.expansionDepth)).prod

namespace Proofs

variable {n : ℕ}

/-! ## Replacing operations by a known phase -/

/-- On an `n`-wire register the operations `parts` do what `ops` do times a phase. -/
def Replaces (n : ℕ) (z : ℂ) (parts ops : List (Operation ℝ)) : Prop :=
  ∃ A B : Wave n →ₗ[ℂ] Wave n, Acts parts A ∧ Acts ops B ∧ DiffersBy z A B

namespace Replaces

variable {y z : ℂ} {ops ops' parts parts' : List (Operation ℝ)}

theorem refl (hops : ∀ op ∈ ops, op.Standard) (hwires : ∀ op ∈ ops, ∀ w ∈ op.wires, w < n) :
    Replaces n 1 ops ops := by
  obtain ⟨A, hA⟩ := Acts.exists_of_standard hops hwires
  exact ⟨A, A, hA, hA, .of_eq rfl⟩

theorem trans (h' : Replaces n y parts' parts) (h : Replaces n z parts ops) :
    Replaces n (y * z) parts' ops := by
  obtain ⟨A', B', hA', hB', hdiffers'⟩ := h'
  obtain ⟨A, B, hA, hB, hdiffers⟩ := h
  obtain rfl : B' = A := hB'.unique hA
  exact ⟨A', B, hA', hB, hdiffers'.trans hdiffers⟩

theorem append (h : Replaces n y parts ops) (h' : Replaces n z parts' ops') :
    Replaces n (y * z) (parts ++ parts') (ops ++ ops') := by
  obtain ⟨A, B, hA, hB, hdiffers⟩ := h
  obtain ⟨A', B', hA', hB', hdiffers'⟩ := h'
  exact ⟨_, _, hA.append hA', hB.append hB', mul_comm z y ▸ hdiffers'.comp hdiffers⟩

/-- If every operation is replaced by a phase of its own, all of them in a row are replaced by
    the product of the phases. -/
theorem flatten_mapM {f : Operation ℝ → Except Error (List (Operation ℝ))} {c : Operation ℝ → ℂ}
    {results : List (List (Operation ℝ))}
    (hf : ∀ op ∈ ops, ∀ parts, f op = .ok parts → Replaces n (c op) parts [op])
    (h : ops.mapM f = .ok results) : Replaces n (ops.map c).prod results.flatten ops := by
  induction ops generalizing results with
  | nil =>
    cases h
    exact refl (by simp) (by simp)
  | cons op rest ih =>
    obtain ⟨parts, results', hop, hrest, rfl⟩ := mapM_cons_eq_ok h
    have hfirst := hf op List.mem_cons_self parts hop
    rw [List.map_cons, List.prod_cons, List.flatten_cons]
    exact hfirst.append (ih (fun o ho => hf o (List.mem_cons_of_mem _ ho)) hrest)

end Replaces

/-! ## Expansions -/

theorem expansionPhase_of_places {op : Operation ℝ} {g : StandardGate} {ws : List (Fin n)}
    (h : Places op g ws) : op.expansionPhase = g.expansionPhase op.values := by
  have hname : op.name = g.name := congrArg GateSpec.name h.spec
  unfold Operation.expansionPhase
  rw [hname, ofName?_name]

/-- One decomposition. -/
theorem replaces_of_decompose {table : GateTable ℝ} {op : Operation ℝ} (hop : op.Standard)
    (hwires : ∀ w ∈ op.wires, w < n) {parts : List (Operation ℝ)}
    (hparts : table.decompose? op 0 = some (.ok parts)) :
    Replaces n op.expansionPhase parts [op] := by
  obtain ⟨g, ws, hplaces⟩ := places_of_standard hop hwires
  obtain ⟨⟨A, hA, hdiffers⟩, -⟩ := decompose_differsBy hplaces hparts
  exact ⟨A, _, hA, .single hplaces, expansionPhase_of_places hplaces ▸ hdiffers⟩

/-- An expanded operation differs from what it was by the phases of all decompositions. -/
theorem replaces_of_expandOperation {table : GateTable ℝ} {stop : Criterion ℝ} {depth : ℕ}
    {op : Operation ℝ} (hop : op.Standard) (hwires : ∀ w ∈ op.wires, w < n)
    {parts : List (Operation ℝ)} (h : table.expandOperation stop depth op = .ok parts) :
    Replaces n (table.expansionPhase stop depth op) parts [op] := by
  have hkept : Replaces n 1 [op] [op] := .refl (by simpa using hop) (by simpa using hwires)
  -- The depth bounds the recursion of the expansion and of its phase alike.
  induction depth generalizing op parts with
  | zero => exact Except.ok.inj h ▸ hkept
  | succ depth ih =>
    unfold GateTable.expandOperation at h
    unfold GateTable.expansionPhase
    by_cases hstop : stop.check op = true
    · rw [if_pos hstop] at h ⊢
      exact Except.ok.inj h ▸ hkept
    · rw [if_neg hstop] at h ⊢
      cases hdecompose : table.decompose? op 0 with
      | none =>
        rw [hdecompose] at h
        exact Except.ok.inj h ▸ hkept
      | some outcome =>
        cases outcome with
        | error e =>
          rw [hdecompose] at h
          cases h
        | ok direct =>
          simp only [hdecompose, ok_bind] at h
          obtain ⟨results, hresults, h⟩ := bind_eq_ok h
          obtain rfl := Except.ok.inj h
          have hstands := StandsIn.of_decompose hop hwires hdecompose
          have hdeeper : Replaces n (direct.map (table.expansionPhase stop depth)).prod
              results.flatten direct := by
            refine .flatten_mapM (fun o ho parts hparts => ?_) hresults
            have hstandard := hstands.standard o ho
            have hinside := hstands.inRegister o ho
            exact ih hstandard hinside hparts
              (.refl (by simpa using hstandard) (by simpa using hinside))
          exact hdeeper.trans (replaces_of_decompose hop hwires hdecompose)

/-- The operations of a decomposed trace are replaced. -/
theorem replaces_of_backend {σ : Type} {b : Backend ℝ σ} {t u : Trace ℝ} (hvalid : t.Valid)
    (hstandard : ∀ op ∈ t.operations, op.Standard) (hu : b.decompose t = .ok u) :
    u = { t with operations := u.operations } ∧
      Replaces t.register (b.decompositionPhase t) u.operations t.operations := by
  obtain ⟨hdepth, rfl⟩ | ⟨results, hresults, rfl, -⟩ := expand_cases (expand_of_decompose hu)
  · have hphase : b.decompositionPhase u = 1 := by
      unfold Backend.decompositionPhase
      rw [hdepth]
      exact List.prod_eq_one (by simp [GateTable.expansionPhase])
    exact ⟨rfl, hphase ▸ .refl hstandard hvalid.operations⟩
  · exact ⟨rfl, .flatten_mapM (fun op hop _ hparts => replaces_of_expandOperation
      (hstandard op hop) (hvalid.operations op hop) hparts) hresults⟩

/-! ## Final states -/

/-- The final state is multiplied by the phase. -/
theorem finalState_of_replaces {t : Trace ℝ} {ops : List (Operation ℝ)} {z : ℂ}
    (h : Replaces t.register z ops t.operations) {ψ : Wave t.register}
    (hfinal : Simulation.finalState t = .ok (ofWave ψ)) :
    Simulation.finalState { t with operations := ops } = .ok (ofWave (z • ψ)) := by
  obtain ⟨A, B, hA, hB, hdiffers⟩ := h
  unfold Simulation.finalState at hfinal ⊢
  rcases zero_eq_error_or_ok t.register with ⟨e, hzero⟩ | hzero
  · rw [hzero] at hfinal
    cases hfinal
  · rw [hzero, ok_bind] at hfinal ⊢
    obtain rfl : B (firstWave t.register) = ψ :=
      ofWave_injective (Except.ok.inj ((hB _).symm.trans hfinal))
    rw [← hdiffers.apply_eq]
    exact hA _

theorem weight_firstWave (n : ℕ) : weight (firstWave n) = 1 := by
  unfold weight firstWave
  rw [Finset.sum_eq_single fun _ => false]
  · simp
  · intro x _ hx
    simp [hx]
  · simp

/-- The final state is a wave of length one. -/
theorem weight_of_finalState {t : Trace ℝ} (hvalid : t.Valid)
    (hstandard : ∀ op ∈ t.operations, op.Standard) {ψ : Wave t.register}
    (hfinal : Simulation.finalState t = .ok (ofWave ψ)) : weight ψ = 1 := by
  obtain ⟨A, hA⟩ := Acts.exists_of_standard hstandard hvalid.operations
  unfold Simulation.finalState at hfinal
  rcases zero_eq_error_or_ok t.register with ⟨e, hzero⟩ | hzero
  · rw [hzero] at hfinal
    cases hfinal
  · rw [hzero, ok_bind] at hfinal
    obtain rfl : A (firstWave t.register) = ψ :=
      ofWave_injective (Except.ok.inj ((hA _).symm.trans hfinal))
    rw [weight_of_acts hstandard hvalid.operations hA, weight_firstWave]

/-! ## Measured states -/

/-- The amplitude of a basis state in the result of measuring the state. -/
noncomputable def amplitudeAt (r : Tensor ℝ) (k : ℕ) : ℂ := ⟨r.entry (2 * k), r.entry (2 * k + 1)⟩

theorem entry_eq_zero {r : Tensor ℝ} {i : ℕ} (hi : Tensor.volume r.shape ≤ i) : r.entry i = 0 := by
  rw [entry_eq_getD, List.getD_eq_default _ _ (by rwa [length_data])]

theorem amplitudeAt_stateTensor (ψ : Wave n) (x : Bits n) :
    amplitudeAt (Simulation.stateTensor (ofWave ψ)) (index x) = ψ x := by
  have hx := index_lt x
  have hvolume : Tensor.volume [2 ^ n, 2] = 2 ^ n * 2 := by simp
  have hre : (2 * index x) < Tensor.volume [2 ^ n, 2] := by omega
  have him : (2 * index x + 1) < Tensor.volume [2 ^ n, 2] := by omega
  have hdiv : (2 * index x + 1) / 2 = index x := by omega
  have hmod : (2 * index x + 1) % 2 ≠ 0 := by omega
  unfold amplitudeAt Simulation.stateTensor
  rw [wires_ofWave, Tensor.entry_ofFn hre, Tensor.entry_ofFn him, hdiv, if_neg hmod,
    Nat.mul_div_cancel_left _ two_pos, if_pos (Nat.mul_mod_right 2 _), amplitude_ofWave]
  rfl

/-- A phase of the state is a phase of every amplitude. -/
theorem amplitudeAt_smul (z : ℂ) (ψ : Wave n) (k : ℕ) :
    amplitudeAt (Simulation.stateTensor (ofWave (z • ψ))) k =
      z * amplitudeAt (Simulation.stateTensor (ofWave ψ)) k := by
  by_cases hk : k < 2 ^ n
  · have hindex := index_bits hk
    rw [← hindex, amplitudeAt_stateTensor, amplitudeAt_stateTensor]
    rfl
  -- There is no such basis state, and both results have no entry.
  · have hvolume : ∀ φ : Wave n, Tensor.volume (Simulation.stateTensor (ofWave φ)).shape =
        2 ^ n * 2 := fun φ => by simp [Simulation.stateTensor]
    have hnone : ∀ φ : Wave n, amplitudeAt (Simulation.stateTensor (ofWave φ)) k = 0 := by
      intro φ
      have hzero : ∀ i, 2 * k ≤ i → (Simulation.stateTensor (ofWave φ)).entry i = 0 :=
        fun i hi => entry_eq_zero (by rw [hvolume]; omega)
      unfold amplitudeAt
      rw [hzero _ le_rfl, hzero _ (Nat.le_succ _)]
      rfl
    rw [hnone, hnone, mul_zero]

/-- The measured state is the same exactly when the phase is one. -/
theorem stateTensor_smul_eq_iff {z : ℂ} {ψ : Wave n} (hψ : weight ψ = 1) :
    Simulation.stateTensor (ofWave (z • ψ)) = Simulation.stateTensor (ofWave ψ) ↔ z = 1 := by
  constructor
  · intro h
    obtain ⟨x, hx⟩ : ∃ x, ψ x ≠ 0 := by
      by_contra hall
      push Not at hall
      have hzero : weight ψ = 0 := Finset.sum_eq_zero fun x _ => by rw [hall x, map_zero]
      rw [hzero] at hψ
      exact zero_ne_one hψ
    have hsame := amplitudeAt_smul z ψ (index x)
    rw [h, amplitudeAt_stateTensor] at hsame
    exact mul_right_cancel₀ hx (hsame.symm.trans (one_mul _).symm)
  · rintro rfl
    rw [one_smul]

theorem resultIn_state {m : Measurement ℝ} (hm : m.readout = .state) (s : StateVector ℝ) :
    m.resultIn s = Simulation.stateTensor s := by
  unfold Measurement.resultIn Simulation.exact
  rw [hm]
  rfl

/-- Whether a measurement can be evaluated does not depend on the wave. -/
theorem evaluates_of_evaluates {m : Measurement ℝ} {ψ : Wave n} (h : m.Evaluates (ofWave ψ))
    (φ : Wave n) : m.Evaluates (ofWave φ) := by
  have hstat (hm : m.Statistical) : m.Evaluates (ofWave φ) :=
    (evaluates_iff hm).mpr ((evaluates_iff hm).mp h)
  cases hreadout : m.readout with
  | expectation => exact hstat (.inl hreadout)
  | variance => exact hstat (.inr (.inl hreadout))
  | probability => exact hstat (.inr (.inr hreadout))
  | state => exact ⟨_, by unfold Simulation.exact; rw [hreadout]; rfl⟩
  | sample =>
    obtain ⟨r, hr⟩ := h
    unfold Simulation.exact at hr
    simp only [hreadout] at hr
    cases hobservable : m.observable <;> simp only [hobservable] at hr <;> cases hr

/-! ## Decomposed traces -/

section Decomposed

variable {ρ σ : Type} {b : Backend ℝ σ} {t u : Trace ℝ}

/-- The results of a decomposed trace are those of the trace in a state of another phase. -/
theorem results_of_decompose (sampler : Sampler ℝ ρ) (hvalid : t.Valid)
    (hstandard : ∀ op ∈ t.operations, op.Standard) (hshots : t.shots = .analytic)
    (hu : b.decompose t = .ok u) {T : Tensor ℝ} (hT : t.simulate sampler = .ok T) :
    ∃ ψ : Wave t.register, weight ψ = 1 ∧ Simulation.finalState t = .ok (ofWave ψ) ∧
      t.unpackResult T = .ok [t.measurements.map (·.resultIn (ofWave ψ))] ∧
      ∃ T', u.simulate sampler = .ok T' ∧ u.unpackResult T' =
        .ok [t.measurements.map (·.resultIn (ofWave (b.decompositionPhase t • ψ)))] := by
  obtain ⟨s, hfinal, hevaluates, hpack⟩ := (simulate_eq_ok_iff sampler hshots).mp hT
  have hwires := wires_finalState hfinal
  obtain ⟨n, ψ, rfl⟩ := eq_ofWave s
  rw [wires_ofWave] at hwires
  subst hwires
  obtain ⟨hsame, hreplaces⟩ := replaces_of_backend hvalid hstandard hu
  have hfinal' := finalState_of_replaces hreplaces hfinal
  have hevaluates' : ∀ m ∈ t.measurements,
      m.Evaluates (ofWave (b.decompositionPhase t • ψ)) := fun m hm =>
    evaluates_of_evaluates (hevaluates m hm) _
  obtain ⟨T₁, hpack₁, -, hunpack⟩ := packResults_of_evaluates hshots hfinal hevaluates
  obtain rfl : T = T₁ := Except.ok.inj (hpack.symm.trans hpack₁)
  rw [← hsame] at hfinal'
  have hshots' : u.shots = .analytic := by rw [hsame]; exact hshots
  have hms : u.measurements = t.measurements := by rw [hsame]
  rw [← hms] at hevaluates'
  obtain ⟨T', hpack', -, hunpack'⟩ := packResults_of_evaluates hshots' hfinal' hevaluates'
  refine ⟨ψ, weight_of_finalState hvalid hstandard hfinal, hfinal, hunpack, T',
    (simulate_eq_ok_iff sampler hshots').mpr ⟨_, hfinal', hevaluates', hpack'⟩, ?_⟩
  rw [hunpack', hms]

/-- The decomposed trace can be executed when the trace can, and every measured state is
    multiplied by the phase of the decomposition: its amplitudes stay what they were exactly when
    the phase is one. -/
theorem decompose_amplitudes (sampler : Sampler ℝ ρ) (hvalid : t.Valid)
    (hstandard : ∀ op ∈ t.operations, op.Standard) (hshots : t.shots = .analytic)
    (hu : b.decompose t = .ok u) {T : Tensor ℝ} (hT : t.simulate sampler = .ok T) :
    ∃ T' rs rs', u.simulate sampler = .ok T' ∧ t.unpackResult T = .ok [rs] ∧
      u.unpackResult T' = .ok [rs'] ∧
      ∀ (i : ℕ) (m : Measurement ℝ), t.measurements[i]? = some m → m.readout = .state →
        ∃ r r', rs[i]? = some r ∧ rs'[i]? = some r' ∧
          (∀ k, amplitudeAt r' k = b.decompositionPhase t * amplitudeAt r k) ∧
          (r' = r ↔ b.decompositionPhase t = 1) := by
  obtain ⟨ψ, hψ, -, hunpack, T', hT', hunpack'⟩ :=
    results_of_decompose sampler hvalid hstandard hshots hu hT
  refine ⟨T', _, _, hT', hunpack, hunpack', fun i m hi hm => ?_⟩
  have hmeasured : ∀ s : StateVector ℝ,
      (t.measurements.map (·.resultIn s))[i]? = some (Simulation.stateTensor s) := by
    intro s
    rw [List.getElem?_map, hi]
    exact congrArg some (resultIn_state hm s)
  exact ⟨_, _, hmeasured _, hmeasured _, amplitudeAt_smul _ ψ, stateTensor_smul_eq_iff hψ⟩

end Decomposed

/-! ## Two wires that are entangled -/

/-- Two wires are entangled, and their state is measured. -/
noncomputable def entangled : Trace ℝ :=
  ⟨[⟨StandardGate.hadamard.spec, [], [0]⟩, ⟨StandardGate.cnot.spec, [], [0, 1]⟩], [.state], 2,
    .analytic, .empty⟩

/-- A backend of turns and controlled phase flips. -/
def turnsAndFlips : SimulatorConfig := { native := some ["CZ", "RX", "RZ"] }

theorem native_turnsAndFlips (sampler : Sampler ℝ Unit) :
    (turnsAndFlips.backend ⟨#[]⟩ sampler).capabilities.native = ["CZ", "RX", "RZ"] := by
  show Capabilities.nativeSet ["CZ", "RX", "RZ"] = _
  cbv

/-- Three Hadamard gates are decomposed, one of them directly and two of them as parts. -/
theorem decompositionPhase_entangled (sampler : Sampler ℝ Unit) :
    (turnsAndFlips.backend ⟨#[]⟩ sampler).decompositionPhase entangled = Complex.I := by
  have hhadamard : ∀ depth w, GateTable.expansionPhase ⟨#[]⟩ (.oneOf ["CZ", "RX", "RZ"])
      (depth + 2) ⟨StandardGate.hadamard.spec, [], [w]⟩ = -Complex.I := by
    intro depth w
    show 1 * (1 * (1 * 1)) * -Complex.I = -Complex.I
    ring
  have hcnot : GateTable.expansionPhase ⟨#[]⟩ (.oneOf ["CZ", "RX", "RZ"]) 10
      ⟨StandardGate.cnot.spec, [], [0, 1]⟩ = -Complex.I * (1 * (-Complex.I * 1)) * 1 := by
    rw [← hhadamard 7 1]
    rfl
  unfold Backend.decompositionPhase
  rw [native_turnsAndFlips]
  show GateTable.expansionPhase ⟨#[]⟩ _ 10 _ * (GateTable.expansionPhase ⟨#[]⟩ _ 10 _ * 1) = _
  rw [hhadamard 8 0, hcnot]
  linear_combination -Complex.I * Complex.I_sq

/-- Ten gates stand in for the two, and every amplitude is turned by a right angle. -/
theorem decompose_amplitudes_entangled : entangled.Valid ∧
    (∀ op ∈ entangled.operations, op.Standard) ∧ ∀ sampler : Sampler ℝ Unit, ∃ u T T' rs rs',
      (turnsAndFlips.backend ⟨#[]⟩ sampler).decompose entangled = .ok u ∧
        u.operations.length = 10 ∧ entangled.simulate sampler = .ok T ∧
        u.simulate sampler = .ok T' ∧ entangled.unpackResult T = .ok [rs] ∧
        u.unpackResult T' = .ok [rs'] ∧ ∃ r r', rs[0]? = some r ∧ rs'[0]? = some r' ∧
          (∀ k, amplitudeAt r' k = Complex.I * amplitudeAt r k) ∧ r' ≠ r := by
  have hvalid : entangled.Valid := by
    refine ⟨List.cons_ne_nil _ _, ?_, ?_⟩ <;> simp [entangled, Measurement.state]
  have hstandard : ∀ op ∈ entangled.operations, op.Standard :=
    List.forall_mem_cons.mpr ⟨⟨.hadamard, rfl⟩, List.forall_mem_singleton.mpr ⟨.cnot, rfl⟩⟩
  refine ⟨hvalid, hstandard, fun sampler => ?_⟩
  obtain ⟨u, hu, hlength⟩ : ∃ u, (turnsAndFlips.backend ⟨#[]⟩ sampler).decompose entangled =
      .ok u ∧ u.operations.length = 10 := by
    unfold Backend.decompose Backend.foreign? Capabilities.isNative
    rw [native_turnsAndFlips]
    exact ⟨_, rfl, rfl⟩
  obtain ⟨T, hT⟩ := exists_simulate_eq_ok sampler hvalid hstandard rfl (by decide) (by decide)
    (List.forall_mem_singleton.mpr (.inl rfl))
  obtain ⟨T', rs, rs', hT', hunpack, hunpack', hstates⟩ :=
    decompose_amplitudes sampler hvalid hstandard rfl hu hT
  obtain ⟨r, r', hr, hr', hamplitudes, hsame⟩ := hstates 0 .state rfl rfl
  rw [decompositionPhase_entangled] at hamplitudes hsame
  refine ⟨u, T, T', rs, rs', hu, hlength, hT, hT', hunpack, hunpack', r, r', hr, hr',
    hamplitudes, fun heq => ?_⟩
  have hI := congrArg Complex.re (hsame.mp heq)
  simp at hI

/-! ## A bit flip -/

/-- A bit is flipped, and the state is measured. -/
noncomputable def bitFlip : Trace ℝ :=
  ⟨[⟨StandardGate.pauliX.spec, [], [0]⟩], [.state], 1, .analytic, .empty⟩

/-- A backend of turns about one axis. -/
def turnsOnly : SimulatorConfig := { native := some ["RX"] }

theorem native_turnsOnly (sampler : Sampler ℝ Unit) :
    (turnsOnly.backend ⟨#[]⟩ sampler).capabilities.native = ["RX"] := by
  show Capabilities.nativeSet ["RX"] = _
  cbv

/-- The flip exchanges the amplitudes of the two basis states. -/
theorem finalState_bitFlip : ∃ ψ : Wave 1, Simulation.finalState bitFlip = .ok (ofWave ψ) ∧
    ψ (fun _ => true) = 1 := by
  have hplaces : Places (n := 1) ⟨StandardGate.pauliX.spec, [], [0]⟩ .pauliX [0] :=
    ⟨rfl, rfl, rfl, rfl, List.nodup_singleton _⟩
  refine ⟨StandardGate.pauliX.action [] [0] (firstWave 1), ?_, ?_⟩
  · show (StateVector.zero 1 >>= fun s => s.applyAll bitFlip.operations) = _
    rw [zero_eq_ok (by decide) (by decide)]
    exact Acts.single hplaces _
  · have hflipped : Function.update (fun _ : Fin 1 => true) 0 false = fun _ => false := by
      funext i
      rw [Subsingleton.elim i 0, Function.update_self]
    show onWire 0 (fun _ => toBlock Gate.Matrix.pauliX) (firstWave 1) _ = 1
    rw [onWire_apply, toBlock_pauliX, hflipped]
    simp [rows, firstWave]

/-- The bit flip gives the second basis state the amplitude one, and the half turn that it is
    decomposed into gives it another. -/
theorem decompose_changes_amplitudes : bitFlip.Valid ∧
    (∀ op ∈ bitFlip.operations, op.Standard) ∧ ∀ sampler : Sampler ℝ Unit, ∃ u T T' r r',
      (turnsOnly.backend ⟨#[]⟩ sampler).decompose bitFlip = .ok u ∧
        bitFlip.simulate sampler = .ok T ∧ bitFlip.unpackResult T = .ok [[r]] ∧
        u.simulate sampler = .ok T' ∧ u.unpackResult T' = .ok [[r']] ∧
        amplitudeAt r 1 = 1 ∧ amplitudeAt r' 1 = -Complex.I := by
  have hvalid : bitFlip.Valid := by
    refine ⟨List.cons_ne_nil _ _, ?_, ?_⟩ <;> simp [bitFlip, Measurement.state]
  have hstandard : ∀ op ∈ bitFlip.operations, op.Standard :=
    List.forall_mem_singleton.mpr ⟨.pauliX, rfl⟩
  refine ⟨hvalid, hstandard, fun sampler => ?_⟩
  obtain ⟨u, hu⟩ : ∃ u, (turnsOnly.backend ⟨#[]⟩ sampler).decompose bitFlip = .ok u := by
    unfold Backend.decompose Backend.foreign? Capabilities.isNative
    rw [native_turnsOnly]
    exact ⟨_, rfl⟩
  have hphase : (turnsOnly.backend ⟨#[]⟩ sampler).decompositionPhase bitFlip = -Complex.I := by
    unfold Backend.decompositionPhase
    rw [native_turnsOnly]
    show 1 * 1 * -Complex.I * 1 = -Complex.I
    ring
  obtain ⟨T, hT⟩ := exists_simulate_eq_ok sampler hvalid hstandard rfl (by decide) (by decide)
    (List.forall_mem_singleton.mpr (.inl rfl))
  obtain ⟨ψ, -, hfinal, hunpack, T', hT', hunpack'⟩ :=
    results_of_decompose sampler hvalid hstandard rfl hu hT
  obtain ⟨φ, hφ, hflipped⟩ := finalState_bitFlip
  obtain rfl : ψ = φ := ofWave_injective (Except.ok.inj (hfinal.symm.trans hφ))
  have hone : amplitudeAt (Simulation.stateTensor (ofWave ψ)) 1 = 1 := by
    have hindex : index (fun _ : Fin 1 => true) = 1 := rfl
    rw [← hindex]
    exact (amplitudeAt_stateTensor _ _).trans hflipped
  refine ⟨u, T, T', _, _, hu, hT, hunpack, hT', hunpack', hone, ?_⟩
  show amplitudeAt (Simulation.stateTensor (ofWave _)) 1 = _
  rw [amplitudeAt_smul, hone, hphase, mul_one]

end Proofs

end CircuitGrad
