import Mathlib
import CircuitGrad.Proofs.AxisContraction
import CircuitGrad.Proofs.ShiftDerivative

/-! # Contraction with a matrix

    Contracting one dimension of a tensor after the other, each with the same
    matrix, sums over all choices of an index in each of them.  Entries are
    found by their row-major positions, so the contracted dimensions are
    followed through the positions: those before keep their rows, those after
    keep their columns.
-/

namespace CircuitGrad

namespace Proofs

/-! ## All parameter dimensions -/

/-- `∑ D[o, k₁ … kᵣ] J[k₁, a₁] ⋯ J[kᵣ, aᵣ]`, over all parameters `k₁ … kᵣ`. -/
noncomputable def contraction {n m r : ℕ} (D : Tensor ℝ) (J : Fin n → Fin m → ℝ) (o : ℕ)
    (a : Fin r → Fin m) : ℝ :=
  ∑ k : Fin r → Fin n, D.entry (position n o (List.ofFn fun i => (k i).val)) * ∏ i, J (k i) (a i)

theorem position_ofFn_succ {n r : ℕ} (m o : ℕ) (a : Fin (r + 1) → Fin n) :
    position m o (List.ofFn fun i => (a i).val) =
      position m o (List.ofFn fun i : Fin r => (a i.castSucc).val) * m + a (Fin.last r) := by
  rw [List.ofFn_succ', List.concat_eq_append, position_concat]

/-- Choices for several places are choices for all but the last and for the last. -/
theorem sum_choices_succ {n r : ℕ} (f : (Fin (r + 1) → Fin n) → ℝ) :
    ∑ k, f k = ∑ k : Fin r → Fin n, ∑ l : Fin n, f (Fin.snoc k l) := by
  rw [← (Fin.snocEquiv fun _ => Fin n).sum_comp f, Fintype.sum_prod_type, Finset.sum_comm]
  rfl

/-- Some of the parameter dimensions are contracted, the others follow. -/
theorem contract_dimensions {n m : ℕ} {matrix : Array ℝ} (hsize : matrix.size = n * m)
    {D : Tensor ℝ} {lead : List ℕ} (r more : ℕ)
    (hshape : D.shape = lead ++ List.replicate (r + more) n) :
    ∃ T, (List.range r).foldlM (fun out i => out.contract (lead.length + i) matrix m) D = .ok T ∧
      T.shape = lead ++ List.replicate r m ++ List.replicate more n ∧
      ∀ o < Tensor.volume lead, ∀ a : Fin r → Fin m, ∀ q < n ^ more,
        T.entry (position m o (List.ofFn fun i => (a i).val) * n ^ more + q) =
          ∑ k : Fin r → Fin n,
            D.entry (position n o (List.ofFn fun i => (k i).val) * n ^ more + q) *
              ∏ i, matrix.getD ((k i).val * m + a i) 0 := by
  induction r generalizing more with
  | zero =>
    refine ⟨D, rfl, by simpa using hshape, ?_⟩
    intro o _ a q _
    simp [position]
  | succ r ih =>
    have hnext : r + 1 + more = r + (more + 1) := by omega
    rw [hnext] at hshape
    obtain ⟨T, hfold, hT, hentry⟩ := ih (more + 1) hshape
    rw [List.replicate_succ] at hT
    obtain ⟨U, hcontract, hU, hproduct⟩ := contract_eq hT hsize
    have hvolume : Tensor.volume (List.replicate more n) = n ^ more := by
      simpa using volume_append_replicate [] more n
    refine ⟨U, ?_, ?_, ?_⟩
    · rw [List.range_succ, List.foldlM_append, hfold]
      simp only [List.length_append, List.length_replicate] at hcontract
      simp [ok_bind, hcontract]
    · rw [hU, List.replicate_succ']
      simp
    · intro o ho a q hq
      have hbelow : ∀ j ∈ List.ofFn fun i : Fin r => (a i.castSucc).val, j < m := by simp
      have hposition := position_lt ho hbelow
      rw [List.length_ofFn, ← volume_append_replicate] at hposition
      rw [hvolume] at hproduct
      rw [position_ofFn_succ, hproduct _ hposition _ (a (Fin.last r)).isLt q hq,
        sum_choices_succ, Finset.sum_comm]
      refine Finset.sum_congr rfl fun l _ => ?_
      -- The index of the new dimension and those after it are one position after `r` indices.
      have hrow : l.val * n ^ more + q < n ^ (more + 1) := by
        rw [Nat.pow_succ']
        exact row_add_lt l.isLt hq
      have hsplit : ∀ p, (p * n + l.val) * n ^ more + q =
          p * n ^ (more + 1) + (l.val * n ^ more + q) := by
        intro p
        ring
      rw [hsplit, hentry o ho _ _ hrow, Finset.mul_sum]
      refine Finset.sum_congr rfl fun k _ => ?_
      rw [position_ofFn_succ, Fin.prod_univ_castSucc]
      simp only [Fin.snoc_castSucc, Fin.snoc_last]
      rw [hsplit]
      ring

theorem contraction_one {n m : ℕ} (D : Tensor ℝ) (J : Fin n → Fin m → ℝ) (o : ℕ) (a : Fin m) :
    contraction D J o (fun _ : Fin 1 => a) = ∑ k : Fin n, D.entry (o * n + k) * J k a := by
  unfold contraction
  rw [← (Equiv.funUnique (Fin 1) (Fin n)).symm.sum_comp]
  simp [position]

theorem contraction_two {n m : ℕ} (D : Tensor ℝ) (J : Fin n → Fin m → ℝ) (o : ℕ) (a b : Fin m) :
    contraction D J o ![a, b] =
      ∑ k : Fin n, ∑ l : Fin n, D.entry ((o * n + k) * n + l) * (J k a * J l b) := by
  unfold contraction
  rw [← (finTwoArrowEquiv (Fin n)).symm.sum_comp, Fintype.sum_prod_type]
  simp [position]

/-! ## Shapes -/

theorem volume_flatten_replicate (shape : List ℕ) (r : ℕ) :
    Tensor.volume (List.replicate r shape).flatten = Tensor.volume shape ^ r := by
  induction r with
  | zero => rfl
  | succ r ih =>
    rw [List.replicate_succ, List.flatten_cons, Tensor.volume_append, ih, Nat.pow_succ']

end Proofs

end CircuitGrad
