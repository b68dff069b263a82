import Mathlib
import CircuitGrad.Proofs.Outcome
import CircuitGrad.Proofs.StandardAction

/-! # Lengths that are kept

    The standard gates and the Pauli words keep the length of a wave: the
    blocks of the gates are unitary, words flip bits and turn phases, and the
    exchange of two wires permutes the basis states.
-/

namespace CircuitGrad

namespace Proofs

variable {n : ℕ}

open Gate.Matrix Complex

/-! ## Unitary blocks -/

/-- A block is unitary. -/
abbrev UnitaryBlock (U : Block) : Prop := U ∈ Matrix.unitaryGroup Bool ℂ

theorem unitary_rows {a b c d : ℂ}
    (hfirst : (starRingEnd ℂ) a * a + (starRingEnd ℂ) c * c = 1)
    (hmixed : (starRingEnd ℂ) a * b + (starRingEnd ℂ) c * d = 0)
    (hmixed' : (starRingEnd ℂ) b * a + (starRingEnd ℂ) d * c = 0)
    (hsecond : (starRingEnd ℂ) b * b + (starRingEnd ℂ) d * d = 1) :
    UnitaryBlock (rows a b c d) := by
  have hstar : star (rows a b c d) = rows ((starRingEnd ℂ) a) ((starRingEnd ℂ) c)
      ((starRingEnd ℂ) b) ((starRingEnd ℂ) d) := by
    funext i j
    cases i <;> cases j <;> rfl
  refine Matrix.mem_unitaryGroup_iff'.mpr ?_
  rw [hstar, rows_mul, hfirst, hmixed, hmixed', hsecond, one_eq_rows]

/-- A diagonal block of phases is unitary. -/
theorem unitary_diagonal {a d : ℂ} (ha : ‖a‖ = 1) (hd : ‖d‖ = 1) :
    UnitaryBlock (rows a 0 0 d) := by
  have hself : ∀ z : ℂ, ‖z‖ = 1 → (starRingEnd ℂ) z * z = 1 := by
    intro z hz
    rw [mul_comm, mul_conj, normSq_eq_norm_sq, hz]
    norm_num
  apply unitary_rows <;> simp [hself, ha, hd]

theorem conj_root : (starRingEnd ℂ) root = root := conj_ofReal _

theorem unitary_hadamard : UnitaryBlock (toBlock hadamard) := by
  rw [toBlock_hadamard]
  apply unitary_rows <;> simp only [map_neg, conj_root]
  · linear_combination 2 * root_sq
  · ring
  · ring
  · linear_combination 2 * root_sq

theorem unitary_pauliX : UnitaryBlock (toBlock pauliX) := by
  rw [toBlock_pauliX]
  apply unitary_rows <;> simp

theorem unitary_pauliY : UnitaryBlock (toBlock pauliY) := by
  rw [toBlock_pauliY]
  apply unitary_rows <;> simp

theorem unitary_sx : UnitaryBlock (toBlock sx) := by
  rw [toBlock_sx]
  apply unitary_rows <;> simp only [map_div₀, map_add, map_sub, map_one, conj_I, map_ofNat]
  · linear_combination (-1 / 2) * I_sq
  · linear_combination (1 / 2) * I_sq
  · linear_combination (1 / 2) * I_sq
  · linear_combination (-1 / 2) * I_sq

theorem cos_sq_add_sin_sq_complex (θ : ℝ) :
    (Real.cos θ : ℂ) * Real.cos θ + (Real.sin θ : ℂ) * Real.sin θ = 1 := by
  rw [← ofReal_mul, ← ofReal_mul, ← ofReal_add, ← sq, ← sq, Real.cos_sq_add_sin_sq, ofReal_one]

theorem unitary_rx (θ : ℝ) : UnitaryBlock (toBlock (rx θ)) := by
  have hone := cos_sq_add_sin_sq_complex (θ / 2)
  rw [toBlock_rx]
  apply unitary_rows <;> simp only [map_neg, map_mul, conj_ofReal, conj_I]
  · linear_combination hone - Real.sin (θ / 2) * Real.sin (θ / 2) * I_sq
  · ring
  · ring
  · linear_combination hone - Real.sin (θ / 2) * Real.sin (θ / 2) * I_sq

theorem unitary_ry (θ : ℝ) : UnitaryBlock (toBlock (ry θ)) := by
  have hone := cos_sq_add_sin_sq_complex (θ / 2)
  rw [toBlock_ry]
  apply unitary_rows <;> simp only [map_neg, conj_ofReal]
  · exact hone
  · ring
  · ring
  · linear_combination hone

theorem unitary_rz (θ : ℝ) : UnitaryBlock (toBlock (rz θ)) := by
  rw [toBlock_rz]
  exact unitary_diagonal (norm_phase _) (norm_phase _)

/-- The block that a standard gate puts on its last wire is unitary. -/
theorem unitary_target (g : StandardGate) (values : List ℝ) :
    UnitaryBlock (toBlock (g.target values)) := by
  have hphase : ∀ φ : ℝ, UnitaryBlock (rows 1 0 0 (phase φ)) := fun φ =>
    unitary_diagonal norm_one (norm_phase φ)
  have hZ : UnitaryBlock (toBlock pauliZ) := by
    rw [toBlock_pauliZ]
    exact unitary_diagonal norm_one (by simp)
  have hone : UnitaryBlock (toBlock Gate.Matrix.identity) := by
    rw [toBlock_identity]
    exact one_mem _
  cases g with
  | identity => exact hone
  | hadamard => exact unitary_hadamard
  | pauliX => exact unitary_pauliX
  | pauliY => exact unitary_pauliY
  | pauliZ => exact hZ
  | s => exact toBlock_s ▸ unitary_diagonal norm_one norm_I
  | t => exact toBlock_t ▸ hphase _
  | sx => exact unitary_sx
  | rx => exact unitary_rx _
  | ry => exact unitary_ry _
  | rz => exact unitary_rz _
  | phaseShift => exact (toBlock_phaseShift _).symm ▸ hphase _
  | rot =>
    exact rz_ry_rz_eq_rot _ _ _ ▸
      mul_mem (unitary_rz _) (mul_mem (unitary_ry _) (unitary_rz _))
  | cnot => exact unitary_pauliX
  | cz => exact hZ
  | swap => exact hone
  | crx => exact unitary_rx _
  | cry => exact unitary_ry _
  | crz => exact unitary_rz _

/-! ## Gates -/

/-- A unitary block keeps the length of a pair of amplitudes. -/
theorem normSq_of_unitary {U : Block} (hU : UnitaryBlock U) (a b : ℂ) :
    normSq (U false false * a + U false true * b) + normSq (U true false * a + U true true * b) =
      normSq a + normSq b := by
  have hentry : ∀ i j : Bool, (starRingEnd ℂ) (U false i) * U false j +
      (starRingEnd ℂ) (U true i) * U true j = (1 : Block) i j := by
    intro i j
    rw [← Matrix.mem_unitaryGroup_iff'.mp hU, Matrix.mul_apply, Fintype.sum_bool, add_comm]
    rfl
  have hff := hentry false false
  have hft := hentry false true
  have htf := hentry true false
  have htt := hentry true true
  simp only [Matrix.one_apply, if_true, reduceCtorEq, if_false] at hff hft htf htt
  apply ofReal_injective
  rw [ofReal_add, ofReal_add, ← mul_conj, ← mul_conj, ← mul_conj, ← mul_conj]
  simp only [map_add, map_mul]
  linear_combination a * (starRingEnd ℂ) a * hff + b * (starRingEnd ℂ) a * hft +
    a * (starRingEnd ℂ) b * htf + b * (starRingEnd ℂ) b * htt

/-- Summing over both values of one bit counts every basis state twice. -/
theorem sum_update (w : Fin n) (f : Bits n → ℝ) :
    ∑ x, (f (Function.update x w false) + f (Function.update x w true)) = 2 * ∑ x, f x := by
  have hflip : Function.Involutive fun x : Bits n => Function.update x w !x w := by
    intro x
    simp
  have hpair : ∀ x : Bits n, f (Function.update x w false) + f (Function.update x w true) =
      f x + f (Function.update x w !x w) := by
    intro x
    cases hx : x w
    · rw [show Function.update x w false = x by rw [← hx, Function.update_eq_self], Bool.not_false]
    · rw [show Function.update x w true = x by rw [← hx, Function.update_eq_self], Bool.not_true,
        add_comm]
  rw [Finset.sum_congr rfl fun x _ => hpair x, Finset.sum_add_distrib,
    hflip.bijective.sum_comp f, two_mul]

theorem weight_onWire {w : Fin n} {U : Bits n → Block} (hblind : Blind w U)
    (hU : ∀ x, UnitaryBlock (U x)) (ψ : Wave n) : weight (onWire w U ψ) = weight ψ := by
  -- The block acts on the pairs of basis states that differ on `w`; each state is
  -- in two of these sums.
  have htwice : 2 * weight (onWire w U ψ) = 2 * weight ψ := by
    unfold weight
    rw [← sum_update w, ← sum_update w]
    refine Finset.sum_congr rfl fun x _ => ?_
    rw [onWire_apply, onWire_apply, hblind x, hblind x]
    simp only [Function.update_self, Function.update_idem]
    exact normSq_of_unitary (hU x) _ _
  linarith

theorem weight_swapWires (v w : Fin n) (ψ : Wave n) : weight (swapWires v w ψ) = weight ψ :=
  ((Equiv.swap v w).arrowCongr (Equiv.refl Bool)).sum_comp fun x => normSq (ψ x)

/-- Standard gates keep the length of a wave. -/
theorem weight_action {g : StandardGate} {ws : List (Fin n)} (hnodup : ws.Nodup)
    (values : List ℝ) (ψ : Wave n) : weight (g.action values ws ψ) = weight ψ := by
  have hU := unitary_target g values
  match ws with
  | [] => rfl
  | [w] => exact weight_onWire (blind_const w _) (fun _ => hU) ψ
  | [v, w] =>
    have hne : v ≠ w := by simpa using hnodup
    by_cases hswap : g = .swap
    · subst hswap
      exact weight_swapWires v w ψ
    · rw [action_two hswap]
      refine weight_onWire (blind_controlled hne _) (fun x => ?_) ψ
      unfold controlled
      split
      · exact hU
      · exact one_mem _
  | _ :: _ :: _ :: _ => rfl

/-- Standard operations in turn keep the length of a wave. -/
theorem weight_of_acts {ops : List (Operation ℝ)} {A : Wave n →ₗ[ℂ] Wave n}
    (hops : ∀ op ∈ ops, op.Standard) (hwires : ∀ op ∈ ops, ∀ w ∈ op.wires, w < n)
    (hA : Acts ops A) (ψ : Wave n) : weight (A ψ) = weight ψ := by
  induction ops generalizing A ψ with
  | nil => rw [hA.unique .nil]; rfl
  | cons op rest ih =>
    have hrest := fun o (ho : o ∈ rest) => hops o (List.mem_cons_of_mem _ ho)
    have hrestWires := fun o (ho : o ∈ rest) => hwires o (List.mem_cons_of_mem _ ho)
    obtain ⟨g, ws, hplaces⟩ :=
      places_of_standard (hops op List.mem_cons_self) (hwires op List.mem_cons_self)
    obtain ⟨B, hB⟩ := Acts.exists_of_standard hrest hrestWires
    -- There is one map that the operations do, so `A` is the first and then `B`.
    rw [hA.unique ((Acts.single hplaces).append hB), LinearMap.comp_apply,
      ih hrest hrestWires hB, weight_action hplaces.nodup]

/-! ## Pauli words -/

theorem flipped_flipped (word : PauliWord) (x : Bits n) : flipped word (flipped word x) = x := by
  funext w
  simp [flipped]

/-- Each factor multiplies by a number of modulus one. -/
theorem norm_pauliPhase (x : Bits n) {a : Amplitude ℝ} (ha : ‖toComplex a‖ = 1)
    (f : PauliFactor) : ‖toComplex (StateVector.pauliPhase n (index x) a f)‖ = 1 := by
  have hI : toComplex ⟨(0 : ℝ), 1⟩ = I := by simp [toComplex_mk]
  have hnegI : toComplex ⟨(0 : ℝ), -1⟩ = -I := by simp [toComplex_mk]
  unfold StateVector.pauliPhase
  split <;> simp [ha, hI, hnegI]

theorem norm_wordPhase (word : PauliWord) (x : Bits n) : ‖wordPhase word x‖ = 1 := by
  have hfold : ∀ factors : List PauliFactor,
      ‖toComplex (factors.foldl (StateVector.pauliPhase n (index x)) 1)‖ = 1 := by
    intro factors
    induction factors using List.reverseRecOn with
    | nil => exact norm_one
    | append_singleton factors f ih =>
      rw [List.foldl_append]
      exact norm_pauliPhase x ih f
  exact hfold word.factors

/-- Pauli words keep the length of a wave. -/
theorem weight_wordAction (word : PauliWord) (ψ : Wave n) :
    weight (wordAction word ψ) = weight ψ := by
  have hflip : Function.Involutive (flipped (n := n) word) := flipped_flipped word
  unfold weight
  rw [← hflip.bijective.sum_comp fun x => normSq (ψ x)]
  refine Finset.sum_congr rfl fun x _ => ?_
  rw [wordAction_apply, normSq_mul, normSq_eq_norm_sq (wordPhase _ _), norm_wordPhase, one_pow,
    one_mul]

end Proofs

end CircuitGrad
