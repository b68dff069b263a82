import CircuitGrad.Proofs.ShiftExactness

/-! # The gates that turn with an angle

    Every standard gate with one parameter turns the wave, in the sense of
    `Turns`, by the shift rule that the gate is differentiated with: the
    two-term rule on one wire, where the block is `cos (θ/2) + sin (θ/2) J` up
    to a phase, and the four-term rule when another wire controls it.
-/

namespace CircuitGrad

namespace Proofs

variable {n : ℕ}

open Gate.Matrix

/-! ## Blocks -/

/-- What a rotation multiplies with the sine of half the angle. -/
noncomputable def axis : StandardGate → Block
  | .rx | .crx => rows 0 (-Complex.I) (-Complex.I) 0
  | .ry | .cry => rows 0 (-1) 1 0
  | _ => rows (-Complex.I) 0 0 Complex.I

/-- The phase by which a gate differs from a rotation. -/
noncomputable def turnPhase (g : StandardGate) (θ : ℝ) : ℂ :=
  if g = .phaseShift then phase (θ / 2) else 1

theorem norm_turnPhase (g : StandardGate) (θ : ℝ) : ‖turnPhase g θ‖ = 1 := by
  unfold turnPhase
  split
  · exact norm_phase _
  · exact norm_one

theorem rows_add (a b c d a' b' c' d' : ℂ) :
    rows a b c d + rows a' b' c' d' = rows (a + a') (b + b') (c + c') (d + d') := by
  funext i j
  cases i <;> cases j <;> rfl

/-- Half the angle about the axis of the gate. -/
noncomputable def halfTurn (g : StandardGate) (θ : ℝ) : Block :=
  (Real.cos (θ / 2) : ℂ) • 1 + (Real.sin (θ / 2) : ℂ) • axis g

theorem halfTurn_eq_rows (g : StandardGate) (θ : ℝ) {a b c d : ℂ} (haxis : axis g = rows a b c d) :
    halfTurn g θ = rows (Real.cos (θ / 2) + Real.sin (θ / 2) * a) (Real.sin (θ / 2) * b)
      (Real.sin (θ / 2) * c) (Real.cos (θ / 2) + Real.sin (θ / 2) * d) := by
  unfold halfTurn
  rw [haxis, one_eq_rows, rows_smul, rows_smul, rows_add]
  congr 1 <;> ring

/-- The block of a gate with one parameter. -/
theorem toBlock_target {g : StandardGate} (h : g.paramCount = 1) (θ : ℝ) :
    toBlock (g.target [θ]) = turnPhase g θ • halfTurn g θ := by
  have hrx : ∀ g, axis g = rows 0 (-Complex.I) (-Complex.I) 0 →
      toBlock (rx θ) = halfTurn g θ := by
    intro g hg
    rw [halfTurn_eq_rows g θ hg, toBlock_rx]
    congr 1 <;> ring
  have hry : ∀ g, axis g = rows 0 (-1) 1 0 → toBlock (ry θ) = halfTurn g θ := by
    intro g hg
    rw [halfTurn_eq_rows g θ hg, toBlock_ry]
    congr 1 <;> ring
  have hrz : ∀ g, axis g = rows (-Complex.I) 0 0 Complex.I → toBlock (rz θ) = halfTurn g θ := by
    intro g hg
    rw [halfTurn_eq_rows g θ hg, toBlock_rz, phase_eq, phase_eq, Real.cos_neg, Real.sin_neg,
      Complex.ofReal_neg]
    congr 1 <;> ring
  unfold turnPhase
  cases g with
  | rx => exact eq_one_smul (hrx .rx rfl)
  | ry => exact eq_one_smul (hry .ry rfl)
  | rz => exact eq_one_smul (hrz .rz rfl)
  | crx => exact eq_one_smul (hrx .crx rfl)
  | cry => exact eq_one_smul (hry .cry rfl)
  | crz => exact eq_one_smul (hrz .crz rfl)
  | phaseShift =>
    -- A phase shift is the rotation about `Z` up to half its phase.
    have hback : phase (θ / 2) * phase (-(θ / 2)) = 1 := phase_mul_neg _
    show toBlock (phaseShift θ) = phase (θ / 2) • halfTurn .phaseShift θ
    rw [← hrz .phaseShift rfl, rz_eq_phaseShift, smul_smul, hback, one_smul]
  | _ => cases h

/-! ## Actions -/

/-- The rule that a gate with one parameter is differentiated with. -/
noncomputable def rotationRule (g : StandardGate) : ShiftRule ℝ :=
  if g.wireCount = 1 then .twoTerm (1 / 2) else .fourTerm

theorem turns_one {g : StandardGate} (h : g.paramCount = 1) (w : Fin n) (ψ : Wave n) :
    Turns (.twoTerm (1 / 2)) fun θ => g.action [θ] [w] ψ := by
  refine ⟨ψ, onWire w (fun _ => axis g) ψ, 0, .inl ⟨rfl, rfl⟩, fun θ => ?_⟩
  refine ⟨turnPhase g θ, norm_turnPhase g θ, ?_⟩
  show onWire w (fun _ => toBlock (g.target [θ])) ψ = _
  rw [toBlock_target h, onWire_smul w (fun _ => halfTurn g θ), add_zero]
  unfold halfTurn
  rw [onWire_add w (fun _ => _) fun _ => _, onWire_smul w (fun _ => 1),
    onWire_smul w fun _ => axis g, onWire_one]

theorem turns_two {g : StandardGate} (h : g.paramCount = 1) (htwo : g.wireCount = 2)
    (v w : Fin n) (ψ : Wave n) : Turns .fourTerm fun θ => g.action [θ] [v, w] ψ := by
  have hswap : g ≠ .swap := by
    rintro rfl
    cases h
  have hphase : g ≠ .phaseShift := by
    rintro rfl
    cases htwo
  refine ⟨onWire w (fun x => if x v then 1 else 0) ψ,
    onWire w (fun x => if x v then axis g else 0) ψ,
    onWire w (fun x => if x v then 0 else 1) ψ, .inr rfl, fun θ => ⟨1, norm_one, ?_⟩⟩
  -- Where the control is off nothing turns, which is the third part.
  have hblocks : controlled v (toBlock (g.target [θ])) = fun x : Bits n =>
      (((Real.cos (θ / 2) : ℂ) • if x v then (1 : Block) else 0) +
        (Real.sin (θ / 2) : ℂ) • if x v then axis g else 0) + if x v then 0 else 1 := by
    funext x
    unfold controlled
    rw [toBlock_target h, turnPhase, if_neg hphase, one_smul]
    cases x v <;> simp [halfTurn]
  show g.action [θ] [v, w] ψ = _
  rw [action_two hswap, hblocks, onWire_add, onWire_add, onWire_smul, onWire_smul, one_smul]

/-- A gate with one parameter turns every wave by its rule. -/
theorem turns_action {g : StandardGate} (h : g.paramCount = 1) {ws : List (Fin n)}
    (hlength : ws.length = g.wireCount) (ψ : Wave n) :
    Turns (rotationRule g) fun θ => g.action [θ] ws ψ := by
  unfold rotationRule
  rcases wireCount_eq_one_or_two g with hone | htwo
  · obtain ⟨w, rfl⟩ := List.length_eq_one_iff.mp (hlength.trans hone)
    rw [if_pos hone]
    exact turns_one h w ψ
  · obtain ⟨v, w, rfl⟩ := List.length_eq_two.mp (hlength.trans htwo)
    rw [if_neg (by omega)]
    exact turns_two h htwo v w ψ

/-! ## Rules -/

theorem halfGap_rotation : (⟨[-0.5, 0.5], true⟩ : Generator ℝ).halfGap? = some (1 / 2) := by
  norm_num [Generator.halfGap?, Generator.distinct, Scalar.lt, Scalar.abs]

theorem halfGap_phaseShift : (⟨[0, 1], false⟩ : Generator ℝ).halfGap? = some (1 / 2) := by
  norm_num [Generator.halfGap?, Generator.distinct, Scalar.lt, Scalar.abs]

/-- A standard operation has a shift rule when its gate has one parameter, and
    then it is the rule that the gate turns by. -/
theorem Places.of_shiftRule {op : Operation ℝ} {g : StandardGate} {ws : List (Fin n)}
    (h : Places op g ws) {p : ℕ} {rule : ShiftRule ℝ} (hrule : op.shiftRule? p = some rule) :
    g.paramCount = 1 ∧ p = 0 ∧ rule = rotationRule g := by
  have hanalytic : ¬(op.spec.gradMethod ≠ .analytic || p ≥ op.params.length) = true := by
    intro hnone
    unfold Operation.shiftRule? at hrule
    rw [if_pos hnone] at hrule
    cases hrule
  unfold Operation.shiftRule? at hrule
  rw [if_neg hanalytic] at hrule
  rw [h.spec] at hrule
  have hp : p < g.paramCount := by
    rw [← h.params]
    simp only [ge_iff_le, Bool.or_eq_true, decide_eq_true_eq, not_or] at hanalytic
    omega
  rw [h.params] at hrule
  -- The generators of the one-wire gates have two values, a distance of one apart.
  have htwoTerm : ∀ G : Generator ℝ, G.halfGap? = some (1 / 2) →
      (G.halfGap?.map ShiftRule.twoTerm = some rule) → rule = .twoTerm (1 / 2) := by
    intro G hG hsome
    rw [hG] at hsome
    exact (Option.some.inj hsome).symm
  cases g with
  | rx | ry | rz => exact ⟨rfl, Nat.lt_one_iff.mp hp, htwoTerm _ halfGap_rotation hrule⟩
  | phaseShift => exact ⟨rfl, Nat.lt_one_iff.mp hp, htwoTerm _ halfGap_phaseShift hrule⟩
  | crx | cry | crz => exact ⟨rfl, Nat.lt_one_iff.mp hp, (Option.some.inj hrule).symm⟩
  | _ => cases hrule

end Proofs

end CircuitGrad
