import Mathlib
import CircuitGrad.Proofs.Packed
import CircuitGrad.Proofs.Wave

/-! # Products of matrices on wires

    Applying a matrix to some wires is a function of the register alone: each
    amplitude becomes a row of the matrix times the amplitudes at the basis
    indices that differ from its own on those wires (`applyMatrix_correct`).
    So two matrices on the same wires act as their product, and matrices on
    wires that have none in common act in any order.
-/

namespace CircuitGrad

namespace Proofs

variable {n k : ℕ}

/-- The complex matrix of a row-major array. -/
noncomputable def toMatrix (k : ℕ) (A : Array (Amplitude ℝ)) :
    Matrix (Fin (2 ^ k)) (Fin (2 ^ k)) ℂ :=
  fun r c => toComplex (A.getD (r * 2 ^ k + c) 0)

/-- The row-major array of a complex matrix. -/
noncomputable def rowMajor (M : Matrix (Fin (2 ^ k)) (Fin (2 ^ k)) ℂ) : Array (Amplitude ℝ) :=
  Array.ofFn fun i : Fin (2 ^ k * 2 ^ k) => ofComplex (M i.divNat i.modNat)

theorem size_rowMajor (M : Matrix (Fin (2 ^ k)) (Fin (2 ^ k)) ℂ) :
    (rowMajor M).size = 2 ^ k * 2 ^ k := Array.size_ofFn

theorem toMatrix_rowMajor (M : Matrix (Fin (2 ^ k)) (Fin (2 ^ k)) ℂ) :
    toMatrix k (rowMajor M) = M := by
  funext r c
  have hlt : (r : ℕ) * 2 ^ k + c < 2 ^ k * 2 ^ k := row_add_lt r.isLt c.isLt
  have hrow : Fin.divNat ⟨(r : ℕ) * 2 ^ k + c, hlt⟩ = r := Fin.ext (row_add_div c.isLt)
  have hcolumn : Fin.modNat ⟨(r : ℕ) * 2 ^ k + c, hlt⟩ = c := Fin.ext (row_add_mod c.isLt)
  unfold toMatrix rowMajor
  rw [Array.getD_eq_getD_getElem?, Array.getElem?_ofFn, dif_pos hlt, Option.getD_some,
    toComplex_ofComplex, hrow, hcolumn]

/-! ## Matrices on waves -/

/-- A matrix on some wires of a wave. -/
noncomputable def onMatrix (ws : List (Fin n))
    (M : Matrix (Fin (2 ^ ws.length)) (Fin (2 ^ ws.length)) ℂ) (ψ : Wave n) : Wave n :=
  fun x => ∑ c, M ⟨spell ws x, spell_lt ws x⟩ c * ψ (overwrite ws c x)

theorem applyMatrix_eq_onMatrix (ψ : Wave n) {A : Array (Amplitude ℝ)} {ws : List (Fin n)}
    (hws : ws.Nodup) (hsize : A.size = 2 ^ ws.length * 2 ^ ws.length) :
    (ofWave ψ).applyMatrix A (ws.map (·.val)) =
      .ok (ofWave (onMatrix ws (toMatrix ws.length A) ψ)) := by
  rw [applyMatrix_ofWave ψ hws hsize]
  congr 2
  funext x
  exact Finset.sum_range fun c =>
    toComplex (A.getD (spell ws x * 2 ^ ws.length + c) 0) * ψ (overwrite ws c x)

/-- Matrices on the same wires multiply: the first one's rows are the columns
    of the second. -/
theorem onMatrix_onMatrix {ws : List (Fin n)} (hws : ws.Nodup)
    (M N : Matrix (Fin (2 ^ ws.length)) (Fin (2 ^ ws.length)) ℂ) (ψ : Wave n) :
    onMatrix ws M (onMatrix ws N ψ) = onMatrix ws (M * N) ψ := by
  funext x
  have hspell (d : Fin (2 ^ ws.length)) :
      (⟨spell ws (overwrite ws d x), spell_lt ws _⟩ : Fin (2 ^ ws.length)) = d :=
    Fin.ext ((spell_overwrite hws d x).trans (Nat.mod_eq_of_lt d.isLt))
  unfold onMatrix
  simp only [hspell, overwrite_overwrite, Matrix.mul_apply, Finset.mul_sum, Finset.sum_mul,
    mul_assoc]
  exact Finset.sum_comm

/-- Matrices on different wires commute: none of them is looked at or
    overwritten by the other. -/
theorem onMatrix_comm {vs ws : List (Fin n)} (h : vs.Disjoint ws)
    (M : Matrix (Fin (2 ^ vs.length)) (Fin (2 ^ vs.length)) ℂ)
    (N : Matrix (Fin (2 ^ ws.length)) (Fin (2 ^ ws.length)) ℂ) (ψ : Wave n) :
    onMatrix vs M (onMatrix ws N ψ) = onMatrix ws N (onMatrix vs M ψ) := by
  have hspell {us us' : List (Fin n)} (hus : us.Disjoint us') (c : ℕ) (x : Bits n) :
      spell us (overwrite us' c x) = spell us x :=
    spell_congr fun w hw => overwrite_of_notMem (hus hw) c x
  funext x
  unfold onMatrix
  simp only [hspell h, hspell h.symm, overwrite_comm h, Finset.mul_sum]
  rw [Finset.sum_comm]
  exact Finset.sum_congr rfl fun d _ => Finset.sum_congr rfl fun c _ => mul_left_comm _ _ _

/-! ## Matrices on state vectors -/

/-- The basis index that spells a number on some wires and is like another one
    elsewhere. -/
def written (ws : List (Fin n)) (c i : ℕ) : ℕ := index (overwrite ws c (bits n i))

theorem amplitude_applyMatrix {α : Type} [Scalar α] (s : StateVector α)
    {matrix : Array (Amplitude α)} {ws : List (Fin s.wires)} (hws : ws.Nodup)
    (hsize : matrix.size = 2 ^ ws.length * 2 ^ ws.length) :
    ∃ s', s.applyMatrix matrix (ws.map (·.val)) = .ok s' ∧ s'.wires = s.wires ∧
      ∀ i < 2 ^ s.wires, s'.amplitude i = .sum ((List.range (2 ^ ws.length)).map fun c =>
        matrix.getD (Basis.restrict s.wires (ws.map (·.val)) i * 2 ^ ws.length + c) 0 *
          s.amplitude (written ws c i)) := by
  refine ⟨_, applyMatrix_eq_combined rfl hws hsize, rfl, fun i hi => ?_⟩
  rw [StateVector.amplitude_ofFn hi, combined, ← restrict_index, index_bits hi]
  rfl

theorem applyMatrix_mul (ψ : Wave n) {A B : Array (Amplitude ℝ)} {ws : List (Fin n)}
    (hws : ws.Nodup) (hA : A.size = 2 ^ ws.length * 2 ^ ws.length)
    (hB : B.size = 2 ^ ws.length * 2 ^ ws.length) :
    ((ofWave ψ).applyMatrix A (ws.map (·.val)) >>= fun s => s.applyMatrix B (ws.map (·.val))) =
      (ofWave ψ).applyMatrix (rowMajor (toMatrix ws.length B * toMatrix ws.length A))
        (ws.map (·.val)) := by
  have hsize := size_rowMajor (toMatrix ws.length B * toMatrix ws.length A)
  rw [applyMatrix_eq_onMatrix ψ hws hA, ok_bind, applyMatrix_eq_onMatrix _ hws hB,
    applyMatrix_eq_onMatrix ψ hws hsize, toMatrix_rowMajor, onMatrix_onMatrix hws]

theorem applyMatrix_comm (ψ : Wave n) {A B : Array (Amplitude ℝ)} {vs ws : List (Fin n)}
    (hvs : vs.Nodup) (hws : ws.Nodup) (h : vs.Disjoint ws)
    (hA : A.size = 2 ^ vs.length * 2 ^ vs.length) (hB : B.size = 2 ^ ws.length * 2 ^ ws.length) :
    ((ofWave ψ).applyMatrix A (vs.map (·.val)) >>= fun s => s.applyMatrix B (ws.map (·.val))) =
      (ofWave ψ).applyMatrix B (ws.map (·.val)) >>= fun s => s.applyMatrix A (vs.map (·.val)) := by
  rw [applyMatrix_eq_onMatrix ψ hvs hA, ok_bind, applyMatrix_eq_onMatrix _ hws hB,
    applyMatrix_eq_onMatrix ψ hws hB, ok_bind, applyMatrix_eq_onMatrix _ hvs hA,
    onMatrix_comm h.symm]

/-- A matrix on different wires of a register, in any order, replaces each
    amplitude by the row that the wires spell in its index, times the old
    amplitudes at the indices with the column written on the wires.  In exact
    arithmetic, two matrices on the same wires are their product, and two on
    wires that have none in common can be exchanged. -/
theorem applyMatrix_correct {α : Type} [Scalar α] :
    (∀ (s : StateVector α) (ws : List (Fin s.wires)) (A : Array (Amplitude α)), ws.Nodup →
      A.size = 2 ^ ws.length * 2 ^ ws.length →
      ∃ s', s.applyMatrix A (ws.map (·.val)) = .ok s' ∧ s'.wires = s.wires ∧
        ∀ i < 2 ^ s.wires, s'.amplitude i = .sum ((List.range (2 ^ ws.length)).map fun c =>
          A.getD (Basis.restrict s.wires (ws.map (·.val)) i * 2 ^ ws.length + c) 0 *
            s.amplitude (written ws c i))) ∧
    (∀ (s : StateVector ℝ) (ws : List (Fin s.wires)) (A B : Array (Amplitude ℝ)), ws.Nodup →
      A.size = 2 ^ ws.length * 2 ^ ws.length → B.size = 2 ^ ws.length * 2 ^ ws.length →
      (s.applyMatrix A (ws.map (·.val)) >>= fun t => t.applyMatrix B (ws.map (·.val))) =
        s.applyMatrix (rowMajor (toMatrix ws.length B * toMatrix ws.length A))
          (ws.map (·.val))) ∧
    ∀ (s : StateVector ℝ) (vs ws : List (Fin s.wires)) (A B : Array (Amplitude ℝ)),
      vs.Nodup → ws.Nodup → vs.Disjoint ws →
      A.size = 2 ^ vs.length * 2 ^ vs.length → B.size = 2 ^ ws.length * 2 ^ ws.length →
      (s.applyMatrix A (vs.map (·.val)) >>= fun t => t.applyMatrix B (ws.map (·.val))) =
        s.applyMatrix B (ws.map (·.val)) >>= fun t => t.applyMatrix A (vs.map (·.val)) := by
  refine ⟨fun s ws A hws hsize => amplitude_applyMatrix s hws hsize, ?_, ?_⟩
  · intro s ws A B hws hA hB
    obtain ⟨n, ψ, rfl⟩ := eq_ofWave s
    exact applyMatrix_mul ψ hws hA hB
  · intro s vs ws A B hvs hws h hA hB
    obtain ⟨n, ψ, rfl⟩ := eq_ofWave s
    exact applyMatrix_comm ψ hvs hws h hA hB

/-- Three wires with each amplitude the number of its index. -/
noncomputable def numbered : StateVector ℝ := .ofFn 3 fun i => ⟨i, 0⟩

/-- The flip of a wire that another one controls. -/
noncomputable def controlledFlip : Array (Amplitude ℝ) := Gate.Matrix.controlled Gate.Matrix.pauliX

/-- A controlled flip from the last wire to the first one takes the amplitude of
    `101` to `001`.  It can be exchanged with a flip of the wire between, and
    made twice it is its square. -/
theorem applyMatrix_correct_reversed :
    (∃ s', numbered.applyMatrix controlledFlip [2, 0] = .ok s' ∧ s'.wires = 3 ∧
      s'.amplitude 0b001 = ⟨0b101, 0⟩) ∧
    (numbered.applyMatrix controlledFlip [2, 0] >>= fun s =>
        s.applyMatrix controlledFlip [2, 0]) =
      numbered.applyMatrix (rowMajor (toMatrix 2 controlledFlip *
        toMatrix 2 controlledFlip)) [2, 0] ∧
    (numbered.applyMatrix controlledFlip [2, 0] >>= fun s =>
        s.applyMatrix Gate.Matrix.pauliX [1]) =
      numbered.applyMatrix Gate.Matrix.pauliX [1] >>= fun s =>
        s.applyMatrix controlledFlip [2, 0] := by
  obtain ⟨hentry, hmul, hcomm⟩ := @applyMatrix_correct ℝ _
  have hnodup : ([2, 0] : List (Fin 3)).Nodup := by decide
  have hapart : ([2, 0] : List (Fin 3)).Disjoint [1] := by simp
  refine ⟨?_, hmul numbered ([2, 0] : List (Fin 3)) _ _ hnodup rfl rfl,
    hcomm numbered ([2, 0] : List (Fin 3)) ([1] : List (Fin 3)) _ _ hnodup
      (List.nodup_singleton _) hapart rfl rfl⟩
  obtain ⟨s', hs', hwires, hamplitude⟩ :=
    hentry numbered ([2, 0] : List (Fin 3)) controlledFlip hnodup rfl
  refine ⟨s', hs', hwires, (hamplitude 0b001 (by decide)).trans ?_⟩
  have hamp (i : ℕ) (hi : i < 8) : numbered.amplitude i = ⟨i, 0⟩ :=
    StateVector.amplitude_ofFn (show i < 2 ^ 3 from hi)
  have hrow : Basis.restrict 3 [2, 0] 0b001 = 0b10 := by decide
  have hcolumns : ∀ c < 4, (written ([2, 0] : List (Fin 3)) c 0b001) = [0, 4, 1, 5].getD c 0 := by
    decide
  show Amplitude.sum ((List.range 4).map fun c =>
    controlledFlip.getD (Basis.restrict 3 [2, 0] 0b001 * 4 + c) 0 *
      numbered.amplitude (written ([2, 0] : List (Fin 3)) c 0b001)) = _
  rw [hrow]
  apply toComplex_injective
  rw [toComplex_sum]
  simp [List.range_succ, hcolumns, hamp, controlledFlip, Gate.Matrix.controlled, Gate.Matrix.pauliX,
    Gate.Matrix.square]

end Proofs

end CircuitGrad
