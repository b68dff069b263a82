import Mathlib
import CircuitGrad.Backend.Basic
import CircuitGrad.Gradient.Expansion
import CircuitGrad.Proofs.Decomposition
import CircuitGrad.Proofs.Outcome
import CircuitGrad.Proofs.Validity

/-! # Replacing operations

    Operations may be replaced by others that do the same to every state up to
    a global phase, because no exact mean, variance or probability sees the
    phase (`outcome_smul`).  Both expansions, the one towards a criterion and
    the one towards differentiable operations, replace operations in this way,
    at every depth, so the results of a trace survive them.
-/

namespace CircuitGrad

namespace Proofs

variable {n : ℕ}

/-! ## Global phases are not seen -/

section GlobalPhase

variable {z : ℂ}

theorem normSq_of_norm_one (hz : ‖z‖ = 1) : Complex.normSq z = 1 := by
  rw [Complex.normSq_eq_norm_sq, hz, one_pow]

theorem chance_smul (hz : ‖z‖ = 1) (wires : List ℕ) (j : ℕ) (ψ : Wave n) :
    chance wires j (z • ψ) = chance wires j ψ := by
  unfold chance
  refine Finset.sum_congr rfl fun x _ => ?_
  rw [Pi.smul_apply, smul_eq_mul, Complex.normSq_mul, normSq_of_norm_one hz, one_mul]

theorem weight_smul (hz : ‖z‖ = 1) (ψ : Wave n) : weight (z • ψ) = weight ψ := by
  unfold weight
  refine Finset.sum_congr rfl fun x _ => ?_
  rw [Pi.smul_apply, smul_eq_mul, Complex.normSq_mul, normSq_of_norm_one hz, one_mul]

theorem braket_smul (hz : ‖z‖ = 1) (ψ φ : Wave n) : braket (z • ψ) (z • φ) = braket ψ φ := by
  have hconj : (starRingEnd ℂ) z * z = 1 := by
    rw [mul_comm, Complex.mul_conj, normSq_of_norm_one hz, Complex.ofReal_one]
  unfold braket
  refine Finset.sum_congr rfl fun x _ => ?_
  rw [Pi.smul_apply, Pi.smul_apply, smul_eq_mul, smul_eq_mul, map_mul, mul_mul_mul_comm, hconj,
    one_mul]

theorem mean_smul (hz : ‖z‖ = 1) (o : Observable ℝ) (ψ : Wave n) :
    mean o (z • ψ) = mean o ψ := by
  unfold mean
  rw [map_smul, braket_smul hz]

theorem variance_smul (hz : ‖z‖ = 1) (o : Observable ℝ) (ψ : Wave n) :
    variance o (z • ψ) = variance o ψ := by
  unfold variance
  rw [mean_smul hz, map_smul, weight_smul hz]

/-- Exact results do not depend on the global phase. -/
theorem outcome_smul (hz : ‖z‖ = 1) (m : Measurement ℝ) (ψ : Wave n) :
    outcome m (z • ψ) = outcome m ψ := by
  unfold outcome
  simp only [chance_smul hz, mean_smul hz, variance_smul hz]

end GlobalPhase

/-! ## Lists that stand in for others -/

/-- The operations `parts` can replace `ops` on an `n`-wire register: they are
    standard, stay in the register, and do the same up to a global phase. -/
structure StandsIn (n : ℕ) (parts ops : List (Operation ℝ)) : Prop where
  standard   : ∀ part ∈ parts, part.Standard
  inRegister : ∀ part ∈ parts, ∀ w ∈ part.wires, w < n
  upToPhase  : ∃ A B : Wave n →ₗ[ℂ] Wave n, Acts parts A ∧ Acts ops B ∧ UpToPhase A B

namespace StandsIn

variable {ops parts parts' : List (Operation ℝ)}

theorem refl (hops : ∀ op ∈ ops, op.Standard) (hwires : ∀ op ∈ ops, ∀ w ∈ op.wires, w < n) :
    StandsIn n ops ops := by
  obtain ⟨A, hA⟩ := Acts.exists_of_standard hops hwires
  exact ⟨hops, hwires, A, A, hA, hA, .of_eq rfl⟩

theorem trans (h' : StandsIn n parts' parts) (h : StandsIn n parts ops) :
    StandsIn n parts' ops := by
  obtain ⟨A', B', hA', hB', hphase'⟩ := h'.upToPhase
  obtain ⟨A, B, hA, hB, hphase⟩ := h.upToPhase
  have heq : B' = A := hB'.unique hA
  exact ⟨h'.standard, h'.inRegister, A', B, hA', hB, hphase'.trans (heq ▸ hphase)⟩

theorem append {ops' : List (Operation ℝ)} (h : StandsIn n parts ops)
    (h' : StandsIn n parts' ops') : StandsIn n (parts ++ parts') (ops ++ ops') := by
  obtain ⟨A, B, hA, hB, hphase⟩ := h.upToPhase
  obtain ⟨A', B', hA', hB', hphase'⟩ := h'.upToPhase
  refine ⟨?_, ?_, _, _, hA.append hA', hB.append hB', hphase'.comp hphase⟩
  · intro part hpart
    exact (List.mem_append.mp hpart).elim (h.standard part) (h'.standard part)
  · intro part hpart
    exact (List.mem_append.mp hpart).elim (h.inRegister part) (h'.inRegister part)

/-- A decomposition stands in for its operation. -/
theorem of_decompose {table : GateTable ℝ} {op : Operation ℝ} (hop : op.Standard)
    (hwires : ∀ w ∈ op.wires, w < n) {choice : ℕ}
    (hparts : table.decompose? op choice = some (.ok parts)) : StandsIn n parts [op] := by
  obtain ⟨g, ws, hplaces⟩ := places_of_standard hop hwires
  obtain ⟨⟨A, hA, hphase⟩, hall⟩ := decompose_differsBy hplaces hparts
  exact ⟨fun p hp => (hall p hp).1, fun p hp => (hall p hp).2, A, _, hA, .single hplaces,
    hphase.upToPhase⟩

/-- If what every operation is replaced by stands in for it, then all of this
    in a row stands in for the operations in a row. -/
theorem flatten_mapM {f : Operation ℝ → Except Error (List (Operation ℝ))}
    {results : List (List (Operation ℝ))} (hf : ∀ op ∈ ops, ∀ parts, f op = .ok parts →
      StandsIn n parts [op]) (h : ops.mapM f = .ok results) : StandsIn n results.flatten ops := by
  induction ops generalizing results with
  | nil =>
    cases h
    exact refl (by simp) (by simp)
  | cons op rest ih =>
    obtain ⟨parts, results', hop, hrest, rfl⟩ := mapM_cons_eq_ok h
    have hfirst := hf op List.mem_cons_self parts hop
    exact hfirst.append (ih (fun o ho => hf o (List.mem_cons_of_mem _ ho)) hrest)

end StandsIn

/-! ## Expansion towards a criterion -/

/-- A decomposition names gates, which the table then makes operations of. -/
theorem decompose_eq_ok {α : Type} [Scalar α] {table : GateTable α} {op : Operation α}
    {choice : ℕ} {parts : List (Operation α)}
    (h : table.decompose? op choice = some (.ok parts)) :
    ∃ rule calls, op.spec.decompositions[choice]? = some rule ∧
      rule op.params op.wires = .ok calls ∧ calls.mapM table.operation = .ok parts := by
  obtain ⟨rule, hrule, h⟩ := Option.map_eq_some_iff.mp h
  obtain ⟨calls, hcalls, hparts⟩ := bind_eq_ok h
  exact ⟨rule, calls, hrule, hcalls, hparts⟩

/-- An expanded operation is kept, or decomposed and its parts expanded. -/
theorem expandOperation_eq_ok {α : Type} [Scalar α] {table : GateTable α} {stop : Criterion α}
    {depth : ℕ} {op : Operation α} {parts : List (Operation α)}
    (h : table.expandOperation stop depth op = .ok parts) :
    parts = [op] ∨ ∃ depth' direct results, depth = depth' + 1 ∧
      table.decompose? op 0 = some (.ok direct) ∧
      direct.mapM (table.expandOperation stop depth') = .ok results ∧ parts = results.flatten := by
  cases depth with
  | zero => exact .inl (Except.ok.inj h).symm
  | succ depth =>
    unfold GateTable.expandOperation at h
    by_cases hstop : stop.check op = true
    · rw [if_pos hstop] at h
      exact .inl (Except.ok.inj h).symm
    · rw [if_neg hstop] at h
      cases hdec : table.decompose? op 0 with
      | none =>
        rw [hdec] at h
        exact .inl (Except.ok.inj h).symm
      | some answer =>
        simp only [hdec] at h
        obtain ⟨direct, hdirect, h⟩ := bind_eq_ok h
        obtain ⟨results, hresults, h⟩ := bind_eq_ok h
        refine .inr ⟨depth, direct, results, rfl, ?_, hresults, (Except.ok.inj h).symm⟩
        rw [hdirect]

/-- Expanding an operation, to any depth, gives operations that stand in for it. -/
theorem expandOperation_standsIn {table : GateTable ℝ} {stop : Criterion ℝ} {depth : ℕ}
    {op : Operation ℝ} (hop : op.Standard) (hwires : ∀ w ∈ op.wires, w < n)
    {parts : List (Operation ℝ)} (h : table.expandOperation stop depth op = .ok parts) :
    StandsIn n parts [op] := by
  induction depth using Nat.strong_induction_on generalizing op parts with
  | _ depth ih =>
    obtain rfl | ⟨depth', direct, results, rfl, hdec, hresults, rfl⟩ := expandOperation_eq_ok h
    · exact .refl (by simpa using hop) (by simpa using hwires)
    · have hdirect := StandsIn.of_decompose hop hwires hdec
      -- The parts are standard again, so the induction covers each of them.
      have hdeeper : StandsIn n results.flatten direct :=
        .flatten_mapM (fun o ho _ hparts => ih depth' (Nat.lt_succ_self _) (hdirect.standard o ho)
          (hdirect.inRegister o ho) hparts) hresults
      exact hdeeper.trans hdirect

/-! ## Expansion for differentiation -/

/-- Folding with a choice between the best so far and the next gives one of them. -/
theorem mem_of_foldl_choice {γ : Type} {f : Option γ → γ → Option γ}
    (hf : ∀ best c, f best c = best ∨ f best c = some c) {cs : List γ} {best : Option γ} {y : γ}
    (h : cs.foldl f best = some y) : best = some y ∨ y ∈ cs := by
  induction cs generalizing best with
  | nil => exact .inl h
  | cons c cs ih =>
    rcases ih h with hbest | hmem
    · rcases hf best c with hold | hnew
      · exact .inl (hold ▸ hbest)
      · rw [hnew] at hbest
        exact .inr (Option.some.inj hbest ▸ List.mem_cons_self)
    · exact .inr (List.mem_cons_of_mem _ hmem)

theorem mem_of_cheapest {α : Type} {cost : DecompositionCost α}
    {candidates : List (List (Operation α))} {ops : List (Operation α)}
    (h : cheapest? cost candidates = some ops) : ops ∈ candidates := by
  refine (mem_of_foldl_choice (fun best c => ?_) h).resolve_left (by simp)
  cases best with
  | none => exact .inr rfl
  | some b =>
    by_cases hlt : cost c < cost b
    · exact .inr (if_pos hlt)
    · exact .inl (if_neg hlt)

/-- The cheapest decomposition is one of the decompositions of the operation. -/
theorem cheapestDecomposition_eq_ok {α : Type} [Scalar α] {table : GateTable α}
    {cost : DecompositionCost α} {op : Operation α} {parts : List (Operation α)}
    (h : table.cheapestDecomposition cost op = .ok parts) :
    ∃ choice, table.decompose? op choice = some (.ok parts) := by
  obtain ⟨candidates, hcandidates, h⟩ := bind_eq_ok h
  cases hcheapest : cheapest? cost candidates with
  | none => rw [hcheapest] at h; cases h
  | some ops =>
    rw [hcheapest] at h
    obtain rfl := Except.ok.inj h
    -- Whatever the costs are, what is chosen is one of the candidates.
    obtain ⟨choice, hchoice, hops⟩ := mem_of_mapM hcandidates (mem_of_cheapest hcheapest)
    refine ⟨choice, ?_⟩
    have hlt : choice < op.spec.decompositions.length := List.mem_range.mp hchoice
    unfold GateTable.decompose? at hops ⊢
    rw [List.getElem?_eq_getElem hlt] at hops ⊢
    exact congrArg some hops

/-- A differentiable operation is kept; another one is decomposed, to one depth less. -/
theorem differentiable_eq_ok {α : Type} [Scalar α] {table : GateTable α}
    {cost : DecompositionCost α} {depth : ℕ} {op : Operation α} {parts : List (Operation α)}
    (h : table.differentiable cost depth op = .ok parts) :
    (op.isDifferentiable ∧ parts = [op]) ∨ ∃ depth' direct results, depth = depth' + 1 ∧
      ¬op.isDifferentiable ∧ table.cheapestDecomposition cost op = .ok direct ∧
      direct.mapM (table.differentiable cost depth') = .ok results ∧ parts = results.flatten := by
  cases depth with
  | zero =>
    unfold GateTable.differentiable at h
    by_cases hdiff : op.isDifferentiable = true
    · rw [if_pos hdiff] at h
      exact .inl ⟨hdiff, (Except.ok.inj h).symm⟩
    · rw [if_neg hdiff] at h
      cases h
  | succ depth =>
    unfold GateTable.differentiable at h
    by_cases hdiff : op.isDifferentiable = true
    · rw [if_pos hdiff] at h
      exact .inl ⟨hdiff, (Except.ok.inj h).symm⟩
    · rw [if_neg hdiff] at h
      obtain ⟨direct, hdirect, h⟩ := bind_eq_ok h
      obtain ⟨results, hresults, h⟩ := bind_eq_ok h
      exact .inr ⟨depth, direct, results, rfl, hdiff, hdirect, hresults, (Except.ok.inj h).symm⟩

/-- What an operation is replaced by for differentiation stands in for it. -/
theorem differentiable_standsIn {table : GateTable ℝ} {cost : DecompositionCost ℝ} {depth : ℕ}
    {op : Operation ℝ} (hop : op.Standard) (hwires : ∀ w ∈ op.wires, w < n)
    {parts : List (Operation ℝ)} (h : table.differentiable cost depth op = .ok parts) :
    StandsIn n parts [op] := by
  -- The depth bounds the recursion; at each level the parts are standard again.
  induction depth using Nat.strong_induction_on generalizing op parts with
  | _ depth ih =>
    obtain ⟨-, rfl⟩ | ⟨depth', direct, results, rfl, -, hdirect, hresults, rfl⟩ :=
      differentiable_eq_ok h
    · exact .refl (by simpa using hop) (by simpa using hwires)
    · obtain ⟨choice, hchoice⟩ := cheapestDecomposition_eq_ok hdirect
      have hstands := StandsIn.of_decompose hop hwires hchoice
      have hdeeper : StandsIn n results.flatten direct :=
        .flatten_mapM (fun o ho _ hparts => ih depth' (Nat.lt_succ_self _) (hstands.standard o ho)
          (hstands.inRegister o ho) hparts) hresults
      exact hdeeper.trans hstands

/-! ## Results of traces -/

/-- A register that is too small or too large has no first state. -/
theorem zero_eq_error_or_ok (n : ℕ) : (∃ e, (StateVector.zero n : Except _ (StateVector ℝ)) =
    .error e) ∨ StateVector.zero n = .ok (ofWave (firstWave n)) := by
  by_cases hn : n = 0 ∨ StateVector.maxWires < n
  · refine .inl ⟨.invalidDimension n, ?_⟩
    unfold StateVector.zero
    rw [if_pos (by simpa using hn)]
  · refine .inr (zero_eq_ok ?_ ?_) <;> omega

/-- A trace keeps its results when its operations are replaced. -/
theorem simulate_of_standsIn {ρ : Type} (sampler : Sampler ℝ ρ) {t : Trace ℝ}
    (hshots : t.shots = .analytic) (hstat : ∀ m ∈ t.measurements, m.Statistical)
    {ops : List (Operation ℝ)} (h : StandsIn t.register ops t.operations) :
    ({ t with operations := ops } : Trace ℝ).simulate sampler = t.simulate sampler := by
  rcases zero_eq_error_or_ok t.register with ⟨e, hzero⟩ | hzero
  · -- Neither trace has a state to start from.
    have hfail : ∀ u : Trace ℝ, u.shots = .analytic → u.register = t.register →
        u.simulate sampler = .error e.toError := by
      intro u hu hregister
      unfold Trace.simulate
      rw [results_of_analytic sampler hu]
      unfold Simulation.finalState
      rw [hregister, hzero]
      rfl
    rw [hfail t hshots rfl]
    exact hfail { t with operations := ops } hshots rfl
  · obtain ⟨A, B, hA, hB, z, hz, hphase⟩ := h.upToPhase
    have hfinal : Simulation.finalState t = .ok (ofWave (B (firstWave t.register))) := by
      unfold Simulation.finalState
      rw [hzero]
      exact hB _
    have hfinal' : Simulation.finalState { t with operations := ops } =
        .ok (ofWave (A (firstWave t.register))) := by
      unfold Simulation.finalState
      rw [hzero]
      exact hA _
    -- The final waves differ by a phase, which no exact result sees.
    rw [simulate_eq sampler hshots hstat hfinal]
    refine (simulate_eq sampler (t := { t with operations := ops }) hshots hstat hfinal').trans ?_
    rw [hphase]
    simp only [outcome_smul hz]
    rfl

/-- Expansion towards a criterion does not change the exact results of a trace
    over the standard gates. -/
theorem simulate_expand {ρ : Type} (sampler : Sampler ℝ ρ) {table : GateTable ℝ} {depth : ℕ}
    {stop : Criterion ℝ} {t u : Trace ℝ} (hvalid : t.Valid)
    (hstandard : ∀ op ∈ t.operations, op.Standard) (hshots : t.shots = .analytic)
    (hstat : ∀ m ∈ t.measurements, m.Statistical) (hexpand : t.expand table depth stop = .ok u) :
    u.simulate sampler = t.simulate sampler := by
  unfold Trace.expand at hexpand
  by_cases hdepth : depth = 0
  · rw [if_pos hdepth] at hexpand
    rw [Except.ok.inj hexpand]
  · rw [if_neg hdepth] at hexpand
    obtain ⟨ops, hops, hexpand⟩ := bind_eq_ok hexpand
    obtain ⟨results, hresults, hops⟩ := bind_eq_ok hops
    obtain rfl := Except.ok.inj hops
    obtain ⟨rfl, -⟩ := check_eq_ok_iff.mp hexpand
    have hstands : StandsIn t.register results.flatten t.operations :=
      .flatten_mapM (fun op hop _ hparts => expandOperation_standsIn (hstandard op hop)
        (hvalid.operations op hop) hparts) hresults
    exact simulate_of_standsIn sampler hshots hstat hstands

/-- A controlled rotation against the order of the wires, and all probabilities. -/
noncomputable def turned : Trace ℝ :=
  ⟨[⟨StandardGate.cry.spec, [.constant 1], [1, 0]⟩], [.probs []], 2, .analytic, .empty⟩

/-- Twelve gates on two levels replace the controlled rotation. -/
theorem simulate_expand_turned : turned.Valid ∧ (∀ op ∈ turned.operations, op.Standard) ∧
    (∀ m ∈ turned.measurements, m.Statistical) ∧ ∃ u, turned.expand ⟨#[]⟩ 2 .never = .ok u ∧
      u.operations.length = 12 ∧ ∀ sampler : Sampler ℝ Unit,
        u.simulate sampler = turned.simulate sampler := by
  have hvalid : turned.Valid := by
    refine ⟨List.cons_ne_nil _ _, ?_, ?_⟩ <;> simp [turned, Measurement.probs]
  have hstandard : ∀ op ∈ turned.operations, op.Standard := by
    intro op hop
    obtain rfl := List.mem_singleton.mp hop
    exact ⟨.cry, rfl⟩
  have hstat : ∀ m ∈ turned.measurements, m.Statistical := by
    intro m hm
    obtain rfl := List.mem_singleton.mp hm
    exact .inr (.inr rfl)
  obtain ⟨u, hu, hlength⟩ : ∃ u, turned.expand ⟨#[]⟩ 2 .never = .ok u ∧
      u.operations.length = 12 := ⟨_, rfl, rfl⟩
  exact ⟨hvalid, hstandard, hstat, u, hu, hlength, fun sampler =>
    simulate_expand sampler hvalid hstandard rfl hstat hu⟩

/-- A trace that is made differentiable has its operations replaced. -/
theorem expandDifferentiable_standsIn {table : GateTable ℝ} {depth : ℕ}
    {cost : DecompositionCost ℝ} {t u : Trace ℝ} (hvalid : t.Valid)
    (hstandard : ∀ op ∈ t.operations, op.Standard)
    (hexpand : t.expandDifferentiable table depth cost = .ok u) :
    u = { t with operations := u.operations } ∧
      StandsIn t.register u.operations t.operations := by
  obtain ⟨-, rfl⟩ | ⟨results, hresults, rfl, -⟩ := expandDifferentiable_cases hexpand
  · exact ⟨rfl, .refl hstandard hvalid.operations⟩
  · exact ⟨rfl, .flatten_mapM (fun op hop _ hparts => differentiable_standsIn (hstandard op hop)
      (hvalid.operations op hop) hparts) hresults⟩

end Proofs

end CircuitGrad
