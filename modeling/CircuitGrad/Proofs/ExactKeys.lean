import CircuitGrad.Proofs.Fingerprint
import CircuitGrad.Proofs.ShiftDerivative

/-! # Keys of exact traces

    Standard gates act on a number of wires that their name tells, so the
    fingerprint of an exact trace tells all that its result depends on: exact
    traces with equal fingerprints have equal results
    (`simulate_eq_of_fingerprint_eq`), whatever the derivatives that their
    parameters carry.
-/

namespace CircuitGrad

/-- All counts are 64-bit words. -/
structure Trace.Counted (t : Trace ℝ) : Prop where
  operations   : t.operations.length < 2 ^ 64
  measurements : t.measurements.length < 2 ^ 64
  wires        : ∀ m ∈ t.measurements, m.wires.length < 2 ^ 64
  terms        : ∀ m ∈ t.measurements, ∀ h, m.observable = some (.hamiltonian h) →
    h.terms.length < 2 ^ 64

namespace Proofs

/-- A real number is read back as it is. -/
theorem legible_id : Legible (id : ℝ → ℝ) where
  bytes := Sum.inl_injective
  numbers := decodes_of_length (n := 1) (fun _ => rfl) fun _ _ _ _ h =>
    Sum.inr_injective (List.singleton_injective h)

theorem viewed_id (m : Measurement ℝ) : m.viewed id = m := by
  obtain ⟨readout, observable, wires⟩ := m
  have hobservable : Observable.viewed (id : ℝ → ℝ) = id := by
    funext o
    cases o <;> simp [Observable.viewed]
  simp [Measurement.viewed, hobservable]

/-! ## Standard operations -/

variable {a b : Operation ℝ}

/-- Standard operations of one name are of one gate. -/
theorem spec_eq_of_name_eq (ha : a.Standard) (hb : b.Standard) (h : a.name = b.name) :
    a.spec = b.spec ∧ a.wires.length = b.wires.length := by
  obtain ⟨g, hmake⟩ := ha
  obtain ⟨g', hmake'⟩ := hb
  obtain ⟨-, hwires, -, hop⟩ := (make_operation_iff (wireCount_ne_zero g)).mp hmake
  obtain ⟨-, hwires', -, hop'⟩ := (make_operation_iff (wireCount_ne_zero g')).mp hmake'
  have hspec : a.spec = g.spec := congrArg Operation.spec hop
  have hspec' : b.spec = g'.spec := congrArg Operation.spec hop'
  have hname : g.name = g'.name := by
    unfold Operation.name at h
    rw [hspec, hspec'] at h
    exact h
  obtain rfl : g = g' := Option.some.inj <| by
    rw [← ofName?_name, ← ofName?_name, hname]
  exact ⟨hspec.trans hspec'.symm, hwires.trans hwires'.symm⟩

/-- Standard operations with one name, one list of wires and one list of values act
    alike. -/
theorem applyOperation_congr (ha : a.Standard) (hb : b.Standard)
    (h : a.viewed id = b.viewed id) (s : StateVector ℝ) :
    s.applyOperation a = s.applyOperation b := by
  simp only [Operation.viewed, Prod.mk.injEq, id] at h
  obtain ⟨hname, hwires, hvalues⟩ := h
  have hmatrix : a.matrix? = b.matrix? := by
    unfold Operation.matrix? Operation.values
    rw [(spec_eq_of_name_eq ha hb hname).1, hvalues]
  unfold StateVector.applyOperation
  rw [hmatrix, hwires, hname]

theorem applyAll_congr {as bs : List (Operation ℝ)} (has : ∀ op ∈ as, op.Standard)
    (hbs : ∀ op ∈ bs, op.Standard)
    (h : as.map (Operation.viewed id) = bs.map (Operation.viewed id)) (s : StateVector ℝ) :
    s.applyAll as = s.applyAll bs := by
  induction as generalizing bs s with
  | nil =>
    obtain rfl := List.map_eq_nil_iff.mp h.symm
    rfl
  | cons a as ih =>
    obtain ⟨b, bs, rfl, hab, hrest⟩ := List.map_eq_cons_iff.mp h.symm
    obtain ⟨ha, has⟩ := List.forall_mem_cons.mp has
    obtain ⟨hb, hbs⟩ := List.forall_mem_cons.mp hbs
    show (do (← s.applyOperation a).applyAll as) = (do (← s.applyOperation b).applyAll bs)
    rw [applyOperation_congr ha hb hab.symm]
    exact congrArg _ (funext fun s' => ih has hbs hrest.symm s')

/-! ## Traces -/

variable {ρ : Type} {t u : Trace ℝ}

theorem traceFits_of_exact (ht : t.Exact) (hcounted : t.Counted) : TraceFits t := by
  have hregister : t.register < 2 ^ 64 - 1 :=
    lt_of_le_of_lt ht.fits (by decide)
  refine ⟨by omega, hcounted.operations, fun op hop => ⟨fun w hw => ?_, ?_⟩,
    hcounted.measurements, fun m hm => ⟨hcounted.wires m hm, fun w hw => ?_, fun o ho => ⟨?_, ?_⟩⟩,
    ?_⟩
  · have hlt := ht.valid.operations op hop w hw
    omega
  · obtain ⟨g, hmake⟩ := ht.standard op hop
    rw [((make_operation_iff (wireCount_ne_zero g)).mp hmake).1]
    cases g <;> decide
  · have hlt := ht.valid.measurements m hm w hw
    omega
  · rintro h rfl
    exact hcounted.terms m hm h ho
  · intro w hw f hf
    -- The wires of a differentiable measurement are those of its observable.
    have hwires : m.wires = o.wires := by
      rcases ht.measurements m hm with ⟨o', rfl⟩ | ⟨w', rfl⟩ | ⟨ws, rfl⟩
      · obtain rfl := Option.some.inj ho
        rfl
      · obtain rfl := Option.some.inj ho
        rfl
      · cases ho
    have hlt := ht.valid.measurements m hm f.1
      (hwires ▸ mem_wires_of_word hw (List.mem_map_of_mem hf))
    omega
  · rw [ht.analytic]
    trivial

/-- Exact traces with equal fingerprints have equal results. -/
theorem simulate_eq_of_fingerprint_eq (sampler : Sampler ℝ ρ) (ht : t.Exact) (hu : u.Exact)
    (htc : t.Counted) (huc : u.Counted) (h : t.fingerprint = u.fingerprint) :
    t.simulate sampler = u.simulate sampler := by
  obtain ⟨hregister, hoperations, hmeasurements, hshots⟩ :=
    legible_id.viewed_eq_of_fingerprint_eq (traceFits_of_exact ht htc) (traceFits_of_exact hu huc) h
      fun p hp hname => by
        have hmem := List.of_mem_zip (show (p.1, p.2) ∈ t.operations.zip u.operations from hp)
        exact (spec_eq_of_name_eq (ht.standard _ hmem.1) (hu.standard _ hmem.2) hname).2
  have hstandard := ht.standard
  have hstandard' := hu.standard
  simp only [funext viewed_id] at hmeasurements
  obtain ⟨ops, ms, n, shots, layout⟩ := t
  obtain ⟨ops', ms', n', shots', layout'⟩ := u
  obtain rfl : n = n' := hregister
  obtain rfl : ms = ms' := by simpa using hmeasurements
  obtain rfl : shots = shots' := hshots
  have hfinal : Simulation.finalState ⟨ops, ms, n, shots, layout⟩ =
      Simulation.finalState ⟨ops', ms, n, shots, layout'⟩ :=
    congrArg (StateVector.zero n >>= ·)
      (funext fun s => applyAll_congr hstandard hstandard' hoperations s)
  unfold Trace.simulate Simulation.results
  rw [hfinal, h]
  rfl

end Proofs

end CircuitGrad
