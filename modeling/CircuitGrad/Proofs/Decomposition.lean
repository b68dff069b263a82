import CircuitGrad.Proofs.StandardAction
import CircuitGrad.Proofs.JetCalculus
import CircuitGrad.Proofs.Steps

/-! # Decompositions of the standard gates

    The gates that a standard gate decomposes into do together what the gate
    does, up to a global phase that depends on the gate and its parameters but
    not on the state (`decompose_differsBy`).  On one wire this is an identity
    of two-by-two matrices, and for controlled gates two of them, one for each
    bit of the controlling wire, with one phase.  The exchange of two wires is
    three controlled bit flips on basis states.
-/

namespace CircuitGrad

/-- The global phase by which the expansion of a standard gate differs from the gate. -/
noncomputable def StandardGate.expansionPhase (g : StandardGate) (values : List ℝ) : ℂ :=
  match g with
  | hadamard | pauliX | pauliY => -Complex.I
  | sx => Proofs.phase (-(Real.pi / 2 / 2))
  | phaseShift => Proofs.phase (-(values.getD 0 0 / 2))
  | _ => 1

namespace Proofs

variable {n : ℕ}

/-! ## Equality up to a global phase -/

/-- The maps differ by this complex number, which has size one. -/
structure DiffersBy (z : ℂ) (A B : Wave n →ₗ[ℂ] Wave n) : Prop where
  norm_eq  : ‖z‖ = 1
  apply_eq : ∀ ψ, A ψ = z • B ψ

/-- The maps differ by a complex number of size one. -/
def UpToPhase (A B : Wave n →ₗ[ℂ] Wave n) : Prop :=
  ∃ z : ℂ, ‖z‖ = 1 ∧ ∀ ψ, A ψ = z • B ψ

section Phases

variable {y z : ℂ} {A B C D : Wave n →ₗ[ℂ] Wave n}

theorem DiffersBy.of_eq (h : A = B) : DiffersBy 1 A B :=
  ⟨norm_one, fun ψ => by rw [h, one_smul]⟩

theorem DiffersBy.trans (hAB : DiffersBy y A B) (hBC : DiffersBy z B C) :
    DiffersBy (y * z) A C := by
  refine ⟨by rw [norm_mul, hAB.norm_eq, hBC.norm_eq, mul_one], fun ψ => ?_⟩
  rw [hAB.apply_eq, hBC.apply_eq, smul_smul]

/-- Phases of successive maps multiply. -/
theorem DiffersBy.comp (hAB : DiffersBy y A B) (hCD : DiffersBy z C D) :
    DiffersBy (y * z) (A ∘ₗ C) (B ∘ₗ D) := by
  refine ⟨by rw [norm_mul, hAB.norm_eq, hCD.norm_eq, mul_one], fun ψ => ?_⟩
  rw [LinearMap.comp_apply, LinearMap.comp_apply, hAB.apply_eq, hCD.apply_eq, map_smul, smul_smul]

theorem DiffersBy.upToPhase (h : DiffersBy z A B) : UpToPhase A B := ⟨z, h.norm_eq, h.apply_eq⟩

theorem UpToPhase.of_eq (h : A = B) : UpToPhase A B := (DiffersBy.of_eq h).upToPhase

theorem UpToPhase.trans (hAB : UpToPhase A B) (hBC : UpToPhase B C) : UpToPhase A C := by
  obtain ⟨y, hy, hAB⟩ := hAB
  obtain ⟨z, hz, hBC⟩ := hBC
  exact (DiffersBy.trans ⟨hy, hAB⟩ ⟨hz, hBC⟩).upToPhase

theorem UpToPhase.comp (hAB : UpToPhase A B) (hCD : UpToPhase C D) :
    UpToPhase (A ∘ₗ C) (B ∘ₗ D) := by
  obtain ⟨y, hy, hAB⟩ := hAB
  obtain ⟨z, hz, hCD⟩ := hCD
  exact (DiffersBy.comp ⟨hy, hAB⟩ ⟨hz, hCD⟩).upToPhase

end Phases

/-! ## Calls on the wires of a register -/

/-- A call of a standard gate on wires of an `n`-wire register. -/
structure Placement (n : ℕ) where
  gate   : StandardGate
  params : List (Jet ℝ)
  wires  : List (Fin n)

namespace Placement

noncomputable def call (p : Placement n) : GateCall ℝ :=
  p.gate.call p.params (p.wires.map (·.val))

noncomputable def action (p : Placement n) : Wave n →ₗ[ℂ] Wave n :=
  p.gate.action (p.params.map (·.value)) p.wires

/-- What calls do in turn. -/
noncomputable def actionAll : List (Placement n) → Wave n →ₗ[ℂ] Wave n
  | [] => LinearMap.id
  | p :: rest => actionAll rest ∘ₗ p.action

/-- Accepted calls give standard operations, which do what the calls do. -/
theorem acts_of_mapM {table : GateTable ℝ} {ps : List (Placement n)} {ops : List (Operation ℝ)}
    (h : (ps.map call).mapM table.operation = .ok ops) :
    Acts ops (actionAll ps) ∧ ∀ op ∈ ops, op.Standard ∧ ∀ w ∈ op.wires, w < n := by
  induction ps generalizing ops with
  | nil =>
    cases h
    exact ⟨Acts.nil, by simp⟩
  | cons p rest ih =>
    rw [List.map_cons] at h
    obtain ⟨op, ops', hop, hrest, rfl⟩ := mapM_cons_eq_ok h
    obtain ⟨hplaces, hparams⟩ := Places.of_make hop
    obtain ⟨hacts, hall⟩ := ih hrest
    constructor
    · have hsingle := Acts.single hplaces
      unfold Operation.values at hsingle
      rw [hparams] at hsingle
      exact hsingle.append hacts
    · intro o ho
      rcases List.mem_cons.mp ho with rfl | ho
      · exact ⟨hplaces.standard, hplaces.inRegister⟩
      · exact hall o ho

end Placement

/-! ## Matrices on one wire in turn -/

/-- The product of matrices that are applied in order. -/
noncomputable def inTurn : List Block → Block
  | [] => 1
  | U :: rest => inTurn rest * U

/-- Calls that all put a matrix on the wire `w` put the product of these
    matrices on it. -/
theorem actionAll_eq_onWire {w : Fin n} {ps : List (Placement n)} {Us : List (Bits n → Block)}
    (h : List.Forall₂ (fun p U => Blind w U ∧ p.action = onWire w U) ps Us) (ψ : Wave n) :
    Placement.actionAll ps ψ = onWire w (fun x => inTurn (Us.map (· x))) ψ := by
  induction h generalizing ψ with
  | nil => exact (onWire_one w ψ).symm
  | cons hp _ ih =>
    rw [Placement.actionAll, LinearMap.comp_apply, hp.2, ih]
    exact onWire_onWire hp.1 _ ψ

/-- They do so up to a phase when the product is a multiple of a matrix, for
    all bits of the other wires with one factor. -/
theorem differsBy_onWire {w : Fin n} {ps : List (Placement n)} {Us : List (Bits n → Block)}
    (h : List.Forall₂ (fun p U => Blind w U ∧ p.action = onWire w U) ps Us) {z : ℂ} (hz : ‖z‖ = 1)
    {V : Bits n → Block} (heq : ∀ x, inTurn (Us.map (· x)) = z • V x) :
    DiffersBy z (Placement.actionAll ps) (onWire w V) := by
  refine ⟨hz, fun ψ => ?_⟩
  rw [actionAll_eq_onWire h ψ, funext heq]
  exact onWire_smul w V z ψ

/-! ## One-wire gates -/

section OneWire

variable {w : Fin n}

/-- A gate on one wire puts its matrix there. -/
theorem action_one (g : StandardGate) (ps : List (Jet ℝ)) (w : Fin n) :
    Blind w (fun _ => toBlock (g.target (ps.map (·.value)))) ∧
      (Placement.mk g ps [w]).action = onWire w fun _ => toBlock (g.target (ps.map (·.value))) :=
  ⟨blind_const w _, rfl⟩

/-- A gate that stands for a multiple of another. -/
theorem differsBy_single {g h : StandardGate} {ps : List (Jet ℝ)} {vs : List ℝ} {z : ℂ}
    (hz : ‖z‖ = 1)
    (heq : toBlock (h.target (ps.map (·.value))) = z • toBlock (g.target vs)) :
    DiffersBy z (Placement.actionAll [⟨h, ps, [w]⟩]) (g.action vs [w]) := by
  refine differsBy_onWire (.cons (action_one h ps w) .nil) hz fun x => ?_
  rw [← heq]
  exact one_mul _

/-- Three gates that together stand for a multiple of another. -/
theorem differsBy_triple {g h₁ h₂ h₃ : StandardGate} {ps₁ ps₂ ps₃ : List (Jet ℝ)} {vs : List ℝ}
    {z : ℂ} (hz : ‖z‖ = 1)
    (heq : toBlock (h₃.target (ps₃.map (·.value))) * (toBlock (h₂.target (ps₂.map (·.value))) *
      toBlock (h₁.target (ps₁.map (·.value)))) = z • toBlock (g.target vs)) :
    DiffersBy z (Placement.actionAll [⟨h₁, ps₁, [w]⟩, ⟨h₂, ps₂, [w]⟩, ⟨h₃, ps₃, [w]⟩])
      (g.action vs [w]) := by
  refine differsBy_onWire (.cons (action_one h₁ ps₁ w) (.cons (action_one h₂ ps₂ w)
    (.cons (action_one h₃ ps₃ w) .nil))) hz fun x => ?_
  rw [← heq]
  simp only [List.map_cons, List.map_nil, inTurn, one_mul, mul_assoc]

theorem norm_neg_I : ‖-Complex.I‖ = 1 := by
  rw [norm_neg, Complex.norm_I]

theorem quarter_eq : (Scalar.pi : ℝ) / 2.0 = Real.pi / 2 := by
  rw [two_literal]
  rfl

/-- The decompositions of the one-wire gates, as identities of matrices. -/
theorem expansion_differsBy_one (w : Fin n) {g : StandardGate} (hone : g.wireCount = 1)
    (hdec : g.decompositions (α := ℝ) ≠ []) {params : List (Jet ℝ)}
    (hparams : params.length = g.paramCount) :
    ∃ ps : List (Placement n), g.expansion params [w.val] = ps.map Placement.call ∧
      DiffersBy (g.expansionPhase (params.map (·.value))) (Placement.actionAll ps)
        (g.action (params.map (·.value)) [w]) := by
  let quarter : List (Jet ℝ) := [.constant (Scalar.pi / 2.0)]
  cases g with
  | identity => exact absurd rfl hdec
  | rz => exact absurd rfl hdec
  | hadamard =>
    refine ⟨[⟨.rz, quarter, [w]⟩, ⟨.rx, quarter, [w]⟩, ⟨.rz, quarter, [w]⟩], rfl,
      differsBy_triple norm_neg_I ?_⟩
    have h := rz_rx_rz_quarter
    rw [← quarter_eq] at h
    exact h
  | pauliX =>
    exact ⟨[⟨.rx, [.constant Scalar.pi], [w]⟩], rfl, differsBy_single norm_neg_I rx_pi⟩
  | pauliY =>
    exact ⟨[⟨.ry, [.constant Scalar.pi], [w]⟩], rfl, differsBy_single norm_neg_I ry_pi⟩
  | pauliZ =>
    exact ⟨[⟨.phaseShift, [.constant Scalar.pi], [w]⟩], rfl,
      differsBy_single norm_one (eq_one_smul phaseShift_pi)⟩
  | s =>
    refine ⟨[⟨.phaseShift, quarter, [w]⟩], rfl, differsBy_single norm_one (eq_one_smul ?_)⟩
    have h := phaseShift_half_pi
    rw [← quarter_eq] at h
    exact h
  | t =>
    refine ⟨[⟨.phaseShift, [.constant (Scalar.pi / 4.0)], [w]⟩], rfl,
      differsBy_single norm_one (eq_one_smul ?_)⟩
    have h := phaseShift_quarter_pi
    rw [show (4 : ℝ) = 4.0 by norm_num] at h
    exact h
  | sx =>
    refine ⟨[⟨.rx, quarter, [w]⟩], rfl, differsBy_single (norm_phase (-(Real.pi / 2 / 2))) ?_⟩
    have hquarter : quarter.map (·.value) = [Real.pi / 2] := congrArg (fun x => [x]) quarter_eq
    rw [hquarter]
    exact rx_half_pi
  | rx =>
    obtain ⟨p, rfl⟩ := List.length_eq_one_iff.mp hparams
    exact ⟨[⟨.hadamard, [], [w]⟩, ⟨.rz, [p], [w]⟩, ⟨.hadamard, [], [w]⟩], rfl,
      differsBy_triple norm_one (eq_one_smul (hadamard_rz_hadamard p.value))⟩
  | ry =>
    obtain ⟨p, rfl⟩ := List.length_eq_one_iff.mp hparams
    refine ⟨[⟨.rz, [.constant (-(Scalar.pi / 2.0))], [w]⟩, ⟨.rx, [p], [w]⟩, ⟨.rz, quarter, [w]⟩],
      rfl, differsBy_triple norm_one (eq_one_smul ?_)⟩
    have h := rz_rx_rz p.value
    rw [← quarter_eq] at h
    exact h
  | phaseShift =>
    obtain ⟨p, rfl⟩ := List.length_eq_one_iff.mp hparams
    exact ⟨[⟨.rz, [p], [w]⟩], rfl,
      differsBy_single (norm_phase _) (rz_eq_phaseShift p.value)⟩
  | rot =>
    obtain ⟨p, q, r, rfl⟩ := List.length_eq_three.mp hparams
    exact ⟨[⟨.rz, [p], [w]⟩, ⟨.ry, [q], [w]⟩, ⟨.rz, [r], [w]⟩], rfl,
      differsBy_triple norm_one (eq_one_smul (rz_ry_rz_eq_rot p.value q.value r.value))⟩
  | cnot | cz | swap | crx | cry | crz => cases hone

end OneWire

/-! ## Two-wire gates -/

section TwoWires

variable {v w : Fin n}

theorem action_controlled {g : StandardGate} (hswap : g ≠ .swap) (ps : List (Jet ℝ))
    (hne : v ≠ w) : Blind w (controlled v (toBlock (g.target (ps.map (·.value))))) ∧
      (Placement.mk g ps [v, w]).action =
        onWire w (controlled v (toBlock (g.target (ps.map (·.value))))) :=
  ⟨blind_controlled hne _, action_two hswap _ v w⟩

/-- A controlled matrix conjugated by an involution. -/
theorem conj_controlled {H A B : Block} (hH : H * H = 1) (hA : H * (A * H) = B) (x : Bits n) :
    H * (controlled v A x * H) = controlled v B x := by
  unfold controlled
  by_cases hx : x v
  · rw [if_pos hx, if_pos hx, hA]
  · rw [if_neg hx, if_neg hx, one_mul, hH]

/-- A controlled gate between two Hadamard gates on its target. -/
theorem expansion_between_hadamards {g h : StandardGate} (hg : g ≠ .swap) (hh : h ≠ .swap)
    {vs : List ℝ} (hconj : toBlock Gate.Matrix.hadamard *
      (toBlock (g.target []) * toBlock Gate.Matrix.hadamard) = toBlock (h.target vs))
    (hne : v ≠ w) : DiffersBy (n := n) 1
    (Placement.actionAll [⟨.hadamard, [], [w]⟩, ⟨g, [], [v, w]⟩, ⟨.hadamard, [], [w]⟩])
    (h.action vs [v, w]) := by
  rw [action_two hh]
  refine differsBy_onWire (.cons (action_one .hadamard [] w)
    (.cons (action_controlled hg [] hne) (.cons (action_one .hadamard [] w) .nil)))
    norm_one fun x => ?_
  simp only [List.map_cons, List.map_nil, inTurn, one_mul, mul_assoc, one_smul]
  exact conj_controlled hadamard_mul_hadamard hconj x

/-- A turn by half the angle, and back again between two controlled bit flips:
    the flips turn it around, and without them it is undone. -/
theorem sandwich {R : ℝ → Block} (hadd : ∀ a b, R a * R b = R (a + b)) (hzero : R 0 = 1)
    (hflip : ∀ a, toBlock Gate.Matrix.pauliX * (R a * toBlock Gate.Matrix.pauliX) = R (-a))
    (θ : ℝ) (x : Bits n) :
    controlled v (toBlock Gate.Matrix.pauliX) x * (R (-(θ / 2)) *
      (controlled v (toBlock Gate.Matrix.pauliX) x * R (θ / 2))) = controlled v (R θ) x := by
  unfold controlled
  by_cases hx : x v
  · rw [if_pos hx, if_pos hx, ← mul_assoc (R _), ← mul_assoc, hflip, hadd, neg_neg, add_halves]
  · rw [if_neg hx, if_neg hx, one_mul, one_mul, hadd, neg_add_cancel, hzero]

theorem value_half (p : Jet ℝ) : (p * .constant 0.5).value = p.value / 2 := by
  have h := value_mul p (.constant 0.5)
  rw [show (Jet.constant (0.5 : ℝ)).value = 1 / 2 by norm_num [Jet.constant], mul_one_div] at h
  exact h

theorem value_minusHalf (p : Jet ℝ) : (-(p * .constant 0.5)).value = -(p.value / 2) := by
  have h := value_scale (p * .constant 0.5) (-1)
  rw [value_half, mul_neg_one] at h
  exact h

/-- A controlled rotation is two half turns, the second one turned around by
    controlled bit flips. -/
theorem expansion_rotation {g h : StandardGate} {R : ℝ → Array (Amplitude ℝ)}
    (hg : ∀ θ, g.target [θ] = R θ) (hh : ∀ θ, h.target [θ] = R θ) (hswap : h ≠ .swap)
    (hadd : ∀ a b, toBlock (R a) * toBlock (R b) = toBlock (R (a + b)))
    (hzero : toBlock (R 0) = 1)
    (hflip : ∀ a, toBlock Gate.Matrix.pauliX * (toBlock (R a) * toBlock Gate.Matrix.pauliX) =
      toBlock (R (-a))) (hne : v ≠ w) (p : Jet ℝ) : DiffersBy (n := n) 1
    (Placement.actionAll [⟨g, [p * .constant 0.5], [w]⟩, ⟨.cnot, [], [v, w]⟩,
      ⟨g, [-(p * .constant 0.5)], [w]⟩, ⟨.cnot, [], [v, w]⟩]) (h.action [p.value] [v, w]) := by
  rw [action_two hswap, hh]
  refine differsBy_onWire (.cons (action_one g _ w) (.cons (action_controlled (by decide) [] hne)
    (.cons (action_one g _ w) (.cons (action_controlled (by decide) [] hne) .nil))))
    norm_one fun x => ?_
  simp only [List.map_cons, List.map_nil, inTurn, one_mul, mul_assoc, one_smul, value_half,
    value_minusHalf, hg]
  exact sandwich hadd hzero hflip p.value x

/-- Between quarter turns about `Z` the controlled turn about `Y` is one about `X`. -/
theorem expansion_crx (hne : v ≠ w) (p : Jet ℝ) : DiffersBy (n := n) 1
    (Placement.actionAll [⟨.rz, [.constant (Scalar.pi / 2.0)], [w]⟩,
      ⟨.ry, [p * .constant 0.5], [w]⟩, ⟨.cnot, [], [v, w]⟩,
      ⟨.ry, [-(p * .constant 0.5)], [w]⟩, ⟨.cnot, [], [v, w]⟩,
      ⟨.rz, [.constant (-(Scalar.pi / 2.0))], [w]⟩])
    (StandardGate.crx.action [p.value] [v, w]) := by
  refine differsBy_onWire (.cons (action_one .rz _ w) (.cons (action_one .ry _ w)
    (.cons (action_controlled (by decide) [] hne) (.cons (action_one .ry _ w)
      (.cons (action_controlled (by decide) [] hne) (.cons (action_one .rz _ w) .nil))))))
    norm_one fun x => ?_
  have hsandwich := sandwich (v := v) ry_mul_ry ry_zero pauliX_ry_pauliX p.value x
  have hquarter : toBlock (Gate.Matrix.rz (-(Real.pi / 2))) *
      toBlock (Gate.Matrix.rz (Real.pi / 2)) = 1 := by
    rw [rz_mul_rz, neg_add_cancel, rz_zero]
  -- With the control off the quarter turns undo each other.
  have hturn : toBlock (Gate.Matrix.rz (-(Real.pi / 2))) *
      (controlled v (toBlock (Gate.Matrix.ry p.value)) x * toBlock (Gate.Matrix.rz (Real.pi / 2))) =
      controlled v (toBlock (Gate.Matrix.rx p.value)) x := by
    unfold controlled
    by_cases hx : x v
    · rw [if_pos hx, if_pos hx, rz_ry_rz]
    · rw [if_neg hx, if_neg hx, one_mul, hquarter]
  rw [← hsandwich, ← quarter_eq] at hturn
  simp only [List.map_cons, List.map_nil, inTurn, one_mul, mul_assoc, one_smul, value_half,
    value_minusHalf] at hturn ⊢
  exact hturn

/-- A controlled bit flip adds the bit of the first wire to that of the second. -/
theorem action_cnot (hne : v ≠ w) (ψ : Wave n) (x : Bits n) :
    (Placement.mk .cnot [] [v, w]).action ψ x = ψ (Function.update x w (x w ^^ x v)) := by
  rw [(action_controlled (by decide) [] hne).2, onWire_apply]
  show controlled v (toBlock Gate.Matrix.pauliX) x (x w) false * _ +
    controlled v (toBlock Gate.Matrix.pauliX) x (x w) true * _ = _
  unfold controlled
  rw [toBlock_pauliX, one_eq_rows]
  rcases hv : x v with _ | _ <;> rcases hw : x w with _ | _ <;> simp [rows]

/-- Three controlled bit flips exchange two wires. -/
theorem expansion_swap (hne : v ≠ w) (vs : List ℝ) : DiffersBy (n := n) 1
    (Placement.actionAll [⟨.cnot, [], [v, w]⟩, ⟨.cnot, [], [w, v]⟩, ⟨.cnot, [], [v, w]⟩])
    (StandardGate.swap.action vs [v, w]) := by
  refine .of_eq (LinearMap.ext fun ψ => funext fun x => ?_)
  show (Placement.mk .cnot [] [v, w]).action ((Placement.mk .cnot [] [w, v]).action
    ((Placement.mk .cnot [] [v, w]).action ψ)) x = ψ (x ∘ Equiv.swap v w)
  rw [action_cnot hne, action_cnot hne.symm, action_cnot hne]
  -- Wire by wire: the flips cancel on both wires and leave the other's bit.
  congr 1
  funext u
  rw [Function.comp_apply]
  by_cases huw : u = w
  · subst huw
    simp [hne, hne.symm]
  · by_cases huv : u = v
    · subst huv
      have hcancel : (x u ^^ (x w ^^ x u)) = x w := by
        cases x u <;> cases x w <;> rfl
      simpa [hne] using hcancel
    · rw [Equiv.swap_apply_of_ne_of_ne huv huw]
      simp [huv, huw]

theorem expansion_differsBy_two {g : StandardGate} (htwo : g.wireCount = 2)
    {params : List (Jet ℝ)} (hparams : params.length = g.paramCount) (hne : v ≠ w) :
    ∃ ps : List (Placement n), g.expansion params [v.val, w.val] = ps.map Placement.call ∧
      DiffersBy (g.expansionPhase (params.map (·.value))) (Placement.actionAll ps)
        (g.action (params.map (·.value)) [v, w]) := by
  cases g with
  | cnot =>
    exact ⟨_, rfl, expansion_between_hadamards (g := .cz) (by decide) (by decide)
      hadamard_pauliZ_hadamard hne⟩
  | cz =>
    exact ⟨_, rfl, expansion_between_hadamards (g := .cnot) (by decide) (by decide)
      hadamard_pauliX_hadamard hne⟩
  | swap => exact ⟨_, rfl, expansion_swap hne _⟩
  | crx =>
    obtain ⟨p, rfl⟩ := List.length_eq_one_iff.mp hparams
    exact ⟨_, rfl, expansion_crx hne p⟩
  | cry =>
    obtain ⟨p, rfl⟩ := List.length_eq_one_iff.mp hparams
    exact ⟨_, rfl, expansion_rotation (R := Gate.Matrix.ry) (fun _ => rfl) (fun _ => rfl)
      (by decide) ry_mul_ry ry_zero pauliX_ry_pauliX hne p⟩
  | crz =>
    obtain ⟨p, rfl⟩ := List.length_eq_one_iff.mp hparams
    exact ⟨_, rfl, expansion_rotation (R := Gate.Matrix.rz) (fun _ => rfl) (fun _ => rfl)
      (by decide) rz_mul_rz rz_zero pauliX_rz_pauliX hne p⟩
  | _ => cases htwo

end TwoWires

/-! ## All standard gates -/

theorem decompositions_eq {g : StandardGate} (h : g.decompositions (α := ℝ) ≠ []) :
    g.decompositions (α := ℝ) = [fun params wires => .ok (g.expansion params wires)] := by
  cases g <;> first | rfl | exact absurd rfl h

/-- The only decomposition of a standard operation makes the calls of its expansion. -/
theorem mapM_of_decompose {table : GateTable ℝ} {op : Operation ℝ} {g : StandardGate}
    (hspec : op.spec = g.spec) {choice : ℕ} {parts : List (Operation ℝ)}
    (hparts : table.decompose? op choice = some (.ok parts)) :
    g.decompositions (α := ℝ) ≠ [] ∧
      (g.expansion op.params op.wires).mapM table.operation = .ok parts := by
  unfold GateTable.decompose? at hparts
  rw [hspec] at hparts
  change (g.decompositions[choice]?.map _) = _ at hparts
  by_cases hdec : g.decompositions (α := ℝ) = []
  · rw [hdec] at hparts
    cases hparts
  · rw [decompositions_eq hdec] at hparts
    -- There is one decomposition only, so other choices find none.
    match choice, hparts with
    | 0, hparts => exact ⟨hdec, Option.some.inj hparts⟩
    | _ + 1, hparts => cases hparts

/-- A decomposed operation is replaced by standard operations in the same
    register, which do what it does up to the phase of the expansion. -/
theorem decompose_differsBy {table : GateTable ℝ} {op : Operation ℝ} {g : StandardGate}
    {ws : List (Fin n)} (h : Places op g ws) {choice : ℕ} {parts : List (Operation ℝ)}
    (hparts : table.decompose? op choice = some (.ok parts)) :
    (∃ A : Wave n →ₗ[ℂ] Wave n, Acts parts A ∧
      DiffersBy (g.expansionPhase op.values) A (g.action op.values ws)) ∧
      ∀ part ∈ parts, part.Standard ∧ ∀ w ∈ part.wires, w < n := by
  obtain ⟨hdec, hcalls⟩ := mapM_of_decompose h.spec hparts
  have hexpansion : ∃ ps : List (Placement n),
      g.expansion op.params op.wires = ps.map Placement.call ∧
        DiffersBy (g.expansionPhase op.values) (Placement.actionAll ps)
          (g.action op.values ws) := by
    rw [h.wires]
    rcases wireCount_eq_one_or_two g with hone | htwo
    · obtain ⟨w, rfl⟩ := List.length_eq_one_iff.mp (h.length.trans hone)
      exact expansion_differsBy_one w hone hdec h.params
    · obtain ⟨v, w, rfl⟩ := List.length_eq_two.mp (h.length.trans htwo)
      have hne : v ≠ w := by simpa using h.nodup
      exact expansion_differsBy_two htwo h.params hne
  -- The table makes operations of the calls, which act as placed.
  obtain ⟨ps, hps, hphase⟩ := hexpansion
  rw [hps] at hcalls
  obtain ⟨hacts, hall⟩ := Placement.acts_of_mapM hcalls
  exact ⟨⟨_, hacts, hphase⟩, hall⟩

end Proofs

end CircuitGrad
