import Mathlib
import CircuitGrad.Backend.Simulator
import CircuitGrad.Proofs.FittingState
import CircuitGrad.Proofs.RealScalar

/-! # Reachable traces

    A trace begins as what the constructor makes of operations and
    measurements, or as the record of a circuit function.  From there it can
    be altered, and be sent through the stages of a pipeline, any number of
    times and in any order.

    All traces that can be reached in this way are well-formed
    (`wellFormed_of_reachable`): the beginnings are, and every step keeps
    them so.  A state vector therefore never finds that something does not
    fit, as long as the register is small enough and the matrices of the
    operations have the size of their wires (`reachable_traces_fit`).
-/

namespace CircuitGrad

variable {α : Type}

/-- A recording that a circuit function can have made. -/
inductive Recording.Reachable : Recording α → Prop
  | start (register : ℕ) : Reachable (.start register)
  | apply {r r' : Recording α} {spec : GateSpec α} {params : List (Jet α)} {wires : List ℕ} :
      Reachable r → r.apply spec params wires = .ok r' → Reachable r'
  | push {r r' : Recording α} {op : Operation α} :
      Reachable r → op.Made → r.push op = .ok r' → Reachable r'
  | measure {r r' : Recording α} {m : Measurement α} :
      Reachable r → m.Made → r.measure m = .ok r' → Reachable r'

/-- A trace that can be made, recorded, altered or emitted by a stage. -/
inductive Trace.Reachable [Scalar α] : Trace α → Prop
  | make {register : ℕ} {ops : List (Operation α)} {ms : List (Measurement α)} {t : Trace α} :
      (∀ op ∈ ops, op.Made) → (∀ m ∈ ms, m.Made) → Trace.make register ops ms = .ok t →
      Reachable t
  | finish {r : Recording α} {shots : Shots} {layout : ArgumentLayout} {t : Trace α} :
      r.Reachable → r.finish shots layout = .ok t → Reachable t
  | alter {t u : Trace α} : Reachable t → t.Alters u → Reachable u
  | emit {t u : Trace α} : Reachable t → t.Emits u → Reachable u

namespace Proofs

/-! ## Beginnings -/

/-- What a recording holds has been made by the constructors of its items. -/
theorem items_of_reachable {r : Recording α} (h : r.Reachable) :
    (∀ op ∈ r.operations, op.WellFormed) ∧ ∀ m ∈ r.measurements, m.Made := by
  induction h with
  | start => exact ⟨by simp [Recording.start], by simp [Recording.start]⟩
  | @apply r r' spec params wires _ happly ih =>
    obtain ⟨_, -, happly⟩ := bind_eq_ok happly
    obtain ⟨op, hop, happly⟩ := bind_eq_ok happly
    obtain rfl := Except.ok.inj happly
    refine ⟨List.forall_mem_append.mpr ⟨ih.1, ?_⟩, ih.2⟩
    exact List.forall_mem_singleton.mpr (make_eq_ok_iff_wellFormed.mp hop).2
  | @push r r' op _ hop hpush ih =>
    obtain ⟨_, -, hpush⟩ := bind_eq_ok hpush
    obtain rfl := Except.ok.inj hpush
    refine ⟨List.forall_mem_append.mpr ⟨ih.1, ?_⟩, ih.2⟩
    exact List.forall_mem_singleton.mpr (made_iff_wellFormed.mp hop)
  | @measure r r' m _ hm hmeasure ih =>
    obtain ⟨_, -, hmeasure⟩ := bind_eq_ok hmeasure
    obtain rfl := Except.ok.inj hmeasure
    exact ⟨ih.1, List.forall_mem_append.mpr ⟨ih.2, List.forall_mem_singleton.mpr hm⟩⟩

theorem wellFormed_of_make {register : ℕ} {ops : List (Operation α)} {ms : List (Measurement α)}
    {t : Trace α} (hops : ∀ op ∈ ops, op.WellFormed) (hms : ∀ m ∈ ms, m.Made)
    (h : Trace.make register ops ms = .ok t) : t.WellFormed := by
  obtain ⟨hregister, rfl, hvalid⟩ := make_eq_ok_iff.mp h
  exact { hvalid with
    register_pos := Nat.pos_of_ne_zero hregister
    operations_made := hops
    measurements_made := hms }

variable [Scalar α] {t u : Trace α}

theorem wellFormed_of_finish {r : Recording α} (hr : r.Reachable) {shots : Shots}
    {layout : ArgumentLayout} (h : r.finish shots layout = .ok t) : t.WellFormed := by
  obtain ⟨made, hmade, h⟩ := bind_eq_ok h
  obtain rfl := Except.ok.inj h
  obtain ⟨hops, hms⟩ := items_of_reachable hr
  exact wellFormed_of_alters (.layout layout)
    (wellFormed_of_alters (.shots shots) (wellFormed_of_make hops hms hmade))

/-! ## Runs -/

/-- Every trace that can be reached is well-formed. -/
theorem wellFormed_of_reachable (h : t.Reachable) : t.WellFormed := by
  induction h with
  | make hops hms h =>
    exact wellFormed_of_make (fun op hop => made_iff_wellFormed.mp (hops op hop)) hms h
  | finish hr h => exact wellFormed_of_finish hr h
  | alter _ halters ih => exact wellFormed_of_alters halters ih
  | emit _ hemits ih => exact (keeps_of_emits hemits).wellFormed ih

/-- Every trace that can be reached is well-formed, and the stages of a pipeline emit traces with
    its register, shots and layout.  So the state-vector backend finds nothing that does not fit
    in such traces, if their registers have at most thirty wires and the matrices of their
    operations have the size of the wires. -/
theorem reachable_traces_fit :
    (∀ t : Trace α, t.Reachable → t.WellFormed ∧ ∀ u, t.Emits u → t.SameSettings u) ∧
    ∀ (ρ : Type) (c : SimulatorConfig) (gates : GateTable α) (sampler : Sampler α ρ)
      (ts : List (Trace α)) (counts : ExecutionCounts),
      (∀ t ∈ ts, t.Reachable ∧ t.register ≤ 30 ∧ ∀ op ∈ t.operations, op.HasMatrix) →
      ∀ fault : SimulatorError, fault.Misfit →
        ((c.backend gates sampler).execute ts counts).1 ≠ .error fault.toError := by
  constructor
  · intro t ht
    exact ⟨wellFormed_of_reachable ht, fun u hu => (keeps_of_emits hu).settings⟩
  · intro ρ c gates sampler ts counts hts fault hfault
    have heach : ∀ t ∈ ts, t.simulate sampler ≠ .error fault.toError := by
      intro t ht
      obtain ⟨hreachable, hmax, hops⟩ := hts t ht
      exact simulate_ne_misfit sampler (wellFormed_of_reachable hreachable) hmax hops hfault
    exact mapM_ne_error heach

/-- A controlled rotation, with its parameter marked as trainable and then shifted in four ways. -/
theorem reachable_traces_fit_shifted :
    ∃ (made marked : Trace ℝ) (p : Plan ℝ),
      Trace.make 2 [⟨StandardGate.cry.spec, [.constant 1], [1, 0]⟩] [.probs []] = .ok made ∧
      made.withTrainable [0] = .ok marked ∧ ParameterShift.plan marked .standard = .ok p ∧
      p.traces.length = 4 ∧ (∀ u ∈ p.traces, u.WellFormed ∧ marked.SameSettings u) ∧
      ∀ (sampler : Sampler ℝ Unit) (fault : SimulatorError), fault.Misfit →
        ((({} : SimulatorConfig).backend ⟨#[]⟩ sampler).execute p.traces ⟨0, 0⟩).1 ≠
          .error fault.toError := by
  let turn : Operation ℝ := ⟨StandardGate.cry.spec, [.constant 1], [1, 0]⟩
  obtain ⟨made, hmade, htrace⟩ : ∃ made, Trace.make 2 [turn] [.probs []] = .ok made ∧
      made = ⟨[turn], [.probs []], 2, .analytic, .empty⟩ := ⟨_, rfl, rfl⟩
  obtain ⟨marked, hmarked⟩ : ∃ marked, made.withTrainable [0] = .ok marked := by
    rw [htrace]
    exact ⟨_, rfl⟩
  have hregister : marked.register = 2 := by
    rw [htrace] at hmarked
    obtain rfl := Except.ok.inj hmarked
    rfl
  obtain ⟨p, hp, hlength, hitems⟩ : ∃ p, ParameterShift.plan marked .standard = .ok p ∧
      p.traces.length = 4 ∧
      ∀ u ∈ p.traces, u.operations.map (fun op => (op.spec.matrix, op.wires)) =
        [(some StandardGate.cry.matrix, [1, 0])] := by
    rw [htrace] at hmarked
    obtain rfl := Except.ok.inj hmarked
    refine ⟨_, rfl, rfl, ?_⟩
    exact List.forall_mem_cons.mpr ⟨rfl, List.forall_mem_cons.mpr ⟨rfl,
      List.forall_mem_cons.mpr ⟨rfl, List.forall_mem_singleton.mpr rfl⟩⟩⟩
  have hturn : turn.Made := ⟨StandardGate.cry.spec, [.constant 1], [1, 0], rfl⟩
  have hreachable : marked.Reachable :=
    .alter (.make (List.forall_mem_singleton.mpr hturn) (List.forall_mem_singleton.mpr (.probs []))
      hmade) (.trainable hmarked)
  have hshifted : ∀ u ∈ p.traces, u.Reachable := fun u hu => .emit hreachable (.shift hp hu)
  have hsettings : ∀ u ∈ p.traces, marked.SameSettings u := fun u hu =>
    (reachable_traces_fit.1 marked hreachable).2 u (.shift hp hu)
  have hmatrices : ∀ u ∈ p.traces, ∀ op ∈ u.operations, op.HasMatrix := by
    intro u hu op hop
    have hmem : (op.spec.matrix, op.wires) ∈ [(some (StandardGate.cry.matrix (α := ℝ)), [1, 0])] :=
      hitems u hu ▸ List.mem_map_of_mem hop
    obtain ⟨hmatrix, hwires⟩ := Prod.mk.inj (List.mem_singleton.mp hmem)
    refine ⟨StandardGate.cry.matrix op.values, ?_, ?_⟩
    · rw [Operation.matrix?, hmatrix]
      rfl
    · rw [hwires]
      rfl
  refine ⟨made, marked, p, hmade, hmarked, hp, hlength, fun u hu => ?_, fun sampler fault => ?_⟩
  · exact ⟨(reachable_traces_fit.1 u (hshifted u hu)).1, hsettings u hu⟩
  · refine reachable_traces_fit.2 Unit _ _ sampler p.traces _ (fun u hu => ?_) fault
    refine ⟨hshifted u hu, ?_, hmatrices u hu⟩
    rw [(hsettings u hu).register, hregister]
    omega

end Proofs

end CircuitGrad
