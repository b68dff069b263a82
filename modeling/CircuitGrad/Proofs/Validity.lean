import Mathlib
import CircuitGrad.Backend.Basic
import CircuitGrad.Gradient.Expansion
import CircuitGrad.Proofs.RisingLists
import CircuitGrad.Proofs.Steps

/-! # Valid traces

    A trace is valid when it measures something and all its wires lie in its
    register.  The construction of a trace checks exactly this, and so does
    every change of its operations or measurements.
-/

namespace CircuitGrad

variable {α : Type}

/-- There is a measurement, and all wires lie in the register. -/
structure Trace.Valid (t : Trace α) : Prop where
  measured     : t.measurements ≠ []
  operations   : ∀ op ∈ t.operations, ∀ w ∈ op.wires, w < t.register
  measurements : ∀ m ∈ t.measurements, ∀ w ∈ m.wires, w < t.register

namespace Proofs

theorem checkWires_eq_ok_iff {register : Nat} {wires : List Nat} :
    Trace.checkWires register wires = .ok () ↔ ∀ w ∈ wires, w < register := by
  unfold Trace.checkWires
  cases h : wires.find? (· ≥ register) with
  | none => simpa using List.find?_eq_none.mp h
  | some w =>
    have hw : w ≥ register := by simpa using List.find?_some h
    have hmem : w ∈ wires := List.mem_of_find?_eq_some h
    simp only [reduceCtorEq, false_iff]
    intro hall
    have := hall w hmem
    omega

/-- The wires of all items lie in the register. -/
theorem checkWires_flatMap {β : Type} {register : Nat} {items : List β} {wires : β → List Nat} :
    Trace.checkWires register (items.flatMap wires) = .ok () ↔
      ∀ b ∈ items, ∀ w ∈ wires b, w < register := by
  rw [checkWires_eq_ok_iff]
  constructor
  · intro h b hb w hw
    exact h w (List.mem_flatMap.mpr ⟨b, hb, hw⟩)
  · intro h w hw
    obtain ⟨b, hb, hw⟩ := List.mem_flatMap.mp hw
    exact h b hb w hw

/-- A check succeeds on valid traces only, and gives the trace back. -/
theorem check_eq_ok_iff {t u : Trace α} : t.check = .ok u ↔ u = t ∧ t.Valid := by
  have hmeasured : t.measurements.isEmpty = true ↔ t.measurements = [] := List.isEmpty_iff
  unfold Trace.check
  constructor
  · intro h
    by_cases hempty : t.measurements.isEmpty = true
    · rw [if_pos hempty] at h
      cases h
    · rw [if_neg hempty] at h
      obtain ⟨_, hops, h⟩ := bind_eq_ok h
      obtain ⟨_, hms, h⟩ := bind_eq_ok h
      exact ⟨(Except.ok.inj h).symm, mt hmeasured.mpr hempty, checkWires_flatMap.mp hops,
        checkWires_flatMap.mp hms⟩
  · rintro ⟨rfl, hvalid⟩
    rw [if_neg (mt hmeasured.mp hvalid.measured), checkWires_flatMap.mpr hvalid.operations,
      checkWires_flatMap.mpr hvalid.measurements]
    rfl

/-- A trace can be made of a register that is not empty when it is valid. -/
theorem make_eq_ok_iff {n : Nat} {ops : List (Operation α)} {ms : List (Measurement α)}
    {t : Trace α} :
    Trace.make n ops ms = .ok t ↔ n ≠ 0 ∧ t = ⟨ops, ms, n, .analytic, .empty⟩ ∧ t.Valid := by
  unfold Trace.make
  split
  · next h => simp [h]
  · next h =>
    rw [check_eq_ok_iff]
    constructor
    · rintro ⟨rfl, hvalid⟩; exact ⟨h, rfl, hvalid⟩
    · rintro ⟨-, rfl, hvalid⟩; exact ⟨rfl, hvalid⟩

/-! ## Replaced operations -/

section Replaced

variable [Scalar α] {table : GateTable α} {depth : ℕ} {t u : Trace α}

/-- An expansion is checked.  At depth zero it is not, but then nothing has changed. -/
theorem expand_cases {stop : Criterion α} (h : t.expand table depth stop = .ok u) :
    (depth = 0 ∧ u = t) ∨ ∃ results,
      t.operations.mapM (table.expandOperation stop depth) = .ok results ∧
        u = { t with operations := results.flatten } ∧ u.Valid := by
  unfold Trace.expand at h
  split at h
  · next hdepth => exact .inl ⟨hdepth, (Except.ok.inj h).symm⟩
  · obtain ⟨ops, hops, h⟩ := bind_eq_ok h
    obtain ⟨results, hresults, hops⟩ := bind_eq_ok hops
    obtain rfl := Except.ok.inj hops
    obtain ⟨rfl, hvalid⟩ := check_eq_ok_iff.mp h
    exact .inr ⟨results, hresults, rfl, hvalid⟩

/-- An expansion for differentiation is checked, unless there is nothing to expand. -/
theorem expandDifferentiable_cases {cost : DecompositionCost α}
    (h : t.expandDifferentiable table depth cost = .ok u) :
    ((∀ op ∈ t.operations, op.isDifferentiable) ∧ u = t) ∨ ∃ results,
      t.operations.mapM (table.differentiable cost depth) = .ok results ∧
        u = { t with operations := results.flatten } ∧ u.Valid := by
  unfold Trace.expandDifferentiable at h
  split at h
  · next hall => exact .inl ⟨List.all_eq_true.mp hall, (Except.ok.inj h).symm⟩
  · obtain ⟨results, hresults, h⟩ := bind_eq_ok h
    obtain ⟨rfl, hvalid⟩ := check_eq_ok_iff.mp h
    exact .inr ⟨results, hresults, rfl, hvalid⟩

/-- What a backend decomposes a trace into is an expansion of the trace. -/
theorem expand_of_decompose {σ : Type} {b : Backend α σ} (h : b.decompose t = .ok u) :
    t.expand b.gates b.expansionDepth (.oneOf b.capabilities.native) = .ok u := by
  obtain ⟨expanded, hexpand, h⟩ := bind_eq_ok h
  split at h
  · cases h
  · rw [hexpand, Except.ok.inj h]

end Replaced

/-! ## Wires of observables -/

/-- The wires of an observable hold those of each of its words. -/
theorem mem_wires_of_word {o : Observable α} {word : PauliWord} (hword : word ∈ o.words)
    {w : Nat} (hw : w ∈ word.wires) : w ∈ o.wires := by
  cases o with
  | word v =>
    obtain rfl : word = v := by simpa [Observable.words] using hword
    exact hw
  | hamiltonian h =>
    obtain ⟨t, ht, rfl⟩ := List.mem_map.mp hword
    exact mem_eraseReps_iff.mpr (List.mem_mergeSort.mpr (List.mem_flatMap.mpr ⟨t, ht, hw⟩))

end Proofs

end CircuitGrad
