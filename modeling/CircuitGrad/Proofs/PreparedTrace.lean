import Mathlib
import CircuitGrad.Binding.Basic
import CircuitGrad.Proofs.DisplacedTrace

/-! # Prepared traces

    Before a trace is differentiated its operations are replaced, by those of
    the backend and by differentiable ones, or by the latter alone.  Either way
    the prepared trace has the results of the trace, at the recorded parameters
    and after every displacement of them (`Expands.simulate_displaced`), and its
    parameters are affine when those of the trace are
    (`Expands.isAffine_iff`).
-/

namespace CircuitGrad

open Proofs

/-- Operations of `t` are replaced by what they expand to, for any values of the
    parameters. -/
structure Expands (t u : Trace ℝ) : Prop where
  same      : u = { t with operations := u.operations }
  stands    : StandsIn t.register u.operations t.operations
  displaced : ∀ c, StandsIn t.register (u.displaced c).operations (t.displaced c).operations
  params    : ∀ Q : Jet ℝ → Prop, (∀ x k, Q (x.scale k) ↔ Q x) → (∀ v, Q (.constant v)) →
    ((∀ op ∈ u.operations, ∀ x ∈ op.params, Q x) ↔ ∀ op ∈ t.operations, ∀ x ∈ op.params, Q x)

/-- The operations are standard and all wires lie in the register. -/
structure Trace.Placed (t : Trace ℝ) : Prop where
  valid    : t.Valid
  standard : ∀ op ∈ t.operations, op.Standard

theorem Trace.Placed.displaced {t : Trace ℝ} (h : t.Placed) (c : Displacement) :
    (t.displaced c).Placed :=
  ⟨valid_displaced c h.valid, standard_displaced c h.standard⟩

namespace Expands

variable {t u w : Trace ℝ} {table : GateTable ℝ}

theorem refl (h : t.Placed) : Expands t t where
  same := rfl
  stands := .refl h.standard h.valid.operations
  displaced c := .refl (h.displaced c).standard (h.displaced c).valid.operations
  params _ _ _ := Iff.rfl

theorem trans (h : Expands t u) (h' : Expands u w) : Expands t w := by
  have hregister : u.register = t.register := by rw [h.same]
  have hstands := h'.stands
  have hdisplaced := h'.displaced
  rw [hregister] at hstands hdisplaced
  refine ⟨?_, hstands.trans h.stands, fun c => (hdisplaced c).trans (h.displaced c), ?_⟩
  · rw [h'.same, h.same]
  · intro Q hscale hconstant
    exact (h'.params Q hscale hconstant).trans (h.params Q hscale hconstant)

/-- What expands every operation, displaced or not, expands the trace. -/
theorem of_mapM (ht : t.Placed) {f : Operation ℝ → Except Error (List (Operation ℝ))}
    (hstands : ∀ op, op.Standard → (∀ w ∈ op.wires, w < t.register) →
      ∀ parts, f op = .ok parts → StandsIn t.register parts [op])
    (hdisplaced : ∀ c op, op.Standard → (∀ w ∈ op.wires, w < t.register) →
      ∀ parts, f op = .ok parts → f (op.displaced c) = .ok (parts.map (·.displaced c)))
    (hunfolds : ∀ op parts, f op = .ok parts → Unfolds table [op] parts)
    {results : List (List (Operation ℝ))} (h : t.operations.mapM f = .ok results) :
    Expands t { t with operations := results.flatten } := by
  have hrow : ∀ (w : Trace ℝ), w.Placed → w.register = t.register → ∀ rs,
      w.operations.mapM f = .ok rs → StandsIn t.register rs.flatten w.operations := by
    intro w hw hregister rs hrs
    exact .flatten_mapM (fun op hop parts hparts => hstands op (hw.standard op hop)
      (hregister ▸ hw.valid.operations op hop) parts hparts) hrs
  refine ⟨rfl, hrow t ht rfl results h, fun c => ?_, fun Q hscale hconstant => ?_⟩
  · have hmoved := mapM_displaced (c := c) (fun op hop parts hparts =>
      hdisplaced c op (ht.standard op hop) (ht.valid.operations op hop) parts hparts) h
    show StandsIn t.register (results.flatten.map (·.displaced c)) _
    rw [List.map_flatten]
    exact hrow (t.displaced c) (ht.displaced c) rfl _ hmoved
  · exact Unfolds.forall_params_iff hscale hconstant ht.standard ht.valid.operations
      (.flatten_mapM (fun op _ parts hparts => hunfolds op parts hparts) h)

theorem of_decompose {σ : Type} {b : Backend ℝ σ} (ht : t.Placed) (h : b.decompose t = .ok u) :
    Expands t u := by
  obtain ⟨-, rfl⟩ | ⟨results, hresults, rfl, -⟩ := expand_cases (expand_of_decompose h)
  · exact .refl ht
  · exact of_mapM ht (fun _ hop hwires _ hparts => expandOperation_standsIn hop hwires hparts)
      (fun _ _ hop hwires _ hparts => expandOperation_displaced (fun _ => rfl) hop hwires hparts)
      (fun _ _ hparts => .of_expandOperation hparts) hresults

theorem of_expandDifferentiable {depth : ℕ} (ht : t.Placed)
    (h : t.expandDifferentiable table depth trainableOperations = .ok u) :
    Expands t u ∧ ∀ op ∈ u.operations, op.isDifferentiable := by
  obtain ⟨hall, rfl⟩ | ⟨results, hresults, rfl, -⟩ := expandDifferentiable_cases h
  · exact ⟨.refl ht, hall⟩
  refine ⟨of_mapM ht (fun _ hop hwires _ hparts => differentiable_standsIn hop hwires hparts)
    (fun _ _ hop hwires _ hparts => differentiable_displaced hop hwires hparts)
    (fun _ _ hparts => (Unfolds.of_differentiable hparts).1) hresults, ?_⟩
  intro op hop
  obtain ⟨own, hown, hop⟩ := List.mem_flatten.mp hop
  obtain ⟨_, -, hown⟩ := mem_of_mapM hresults hown
  exact (Unfolds.of_differentiable hown).2 op hop

theorem placed (h : Expands t u) (ht : t.Placed) : u.Placed := by
  rw [h.same]
  exact ⟨⟨ht.valid.measured, h.stands.inRegister, ht.valid.measurements⟩, h.stands.standard⟩

/-- After any displacement the expanded trace has the results of the trace. -/
theorem simulate_displaced {ρ : Type} (h : Expands t u) (sampler : Sampler ℝ ρ)
    (hshots : t.shots = .analytic) (hstat : ∀ m ∈ t.measurements, m.Statistical)
    (c : Displacement) : (u.displaced c).simulate sampler = (t.displaced c).simulate sampler := by
  have hsame : u.displaced c = { t.displaced c with operations := (u.displaced c).operations } := by
    conv_lhs => rw [h.same]
    rfl
  rw [hsame]
  exact simulate_of_standsIn sampler (t := t.displaced c) hshots hstat (h.displaced c)

/-- The expanded trace has affine parameters only when the trace does. -/
theorem isAffine_iff (h : Expands t u) :
    (∀ x ∈ u.trainable, x.isAffine) ↔ ∀ x ∈ t.trainable, x.isAffine := by
  -- Constants are affine, so all parameters may be asked.
  have hparams : ∀ w : Trace ℝ, (∀ x ∈ w.trainable, x.isAffine) ↔
      ∀ op ∈ w.operations, ∀ x ∈ op.params, x.isAffine := by
    intro w
    unfold Trace.trainable Trace.params
    constructor
    · intro hw op hop x hx
      by_cases htrainable : x.isTrainable = true
      · exact hw x (List.mem_filter.mpr ⟨List.mem_flatMap.mpr ⟨op, hop, hx⟩, htrainable⟩)
      · rcases x with ⟨v, _ | d⟩
        · rfl
        · exact absurd rfl htrainable
    · intro hw x hx
      obtain ⟨op, hop, hx⟩ := List.mem_flatMap.mp (List.mem_filter.mp hx).1
      exact hw op hop x hx
  rw [hparams, hparams]
  exact h.params (·.isAffine) (fun x k => by rw [isAffine_scale]) fun _ => rfl

end Expands

namespace Proofs

variable {σ : Type} {b : Binding ℝ σ} {d : Differentiator ℝ} {t u : Trace ℝ}

/-- Under both strategies a prepared trace expands the trace, and all its operations can
    be differentiated. -/
theorem expands_of_prepare (hcost : d.cost = trainableOperations) (ht : t.Placed)
    (h : b.prepare t (some d) = .ok u) :
    Expands t u ∧ ∀ op ∈ u.operations, op.isDifferentiable := by
  unfold Binding.prepare at h
  cases hstrategy : b.config.strategy with
  | device =>
    simp only [hstrategy] at h
    obtain ⟨native, hnative, h⟩ := bind_eq_ok h
    have hfirst := Expands.of_decompose ht hnative
    unfold Differentiator.expand at h
    rw [hcost] at h
    obtain ⟨hsecond, hdiff⟩ := Expands.of_expandDifferentiable (hfirst.placed ht) h
    exact ⟨hfirst.trans hsecond, hdiff⟩
  | gradient =>
    simp only [hstrategy] at h
    unfold Differentiator.expand at h
    rw [hcost] at h
    exact Expands.of_expandDifferentiable ht h

/-- A trace of differentiable operations is left as it is. -/
theorem expandDifferentiable_of_all {α : Type} [Scalar α] {t : Trace α}
    (hops : ∀ op ∈ t.operations, op.isDifferentiable) (table : GateTable α) (depth : ℕ)
    (cost : DecompositionCost α) : t.expandDifferentiable table depth cost = .ok t :=
  if_pos (List.all_eq_true.mpr hops)

theorem expand_of_isDifferentiable (d : Differentiator ℝ)
    (h : ∀ op ∈ t.operations, op.isDifferentiable) : d.expand t = .ok t :=
  expandDifferentiable_of_all h d.gates d.depth d.cost

end Proofs

end CircuitGrad
