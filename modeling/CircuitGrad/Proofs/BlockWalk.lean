import Mathlib
import CircuitGrad.Proofs.BasisIndex

/-! # The walk over the blocks of a matrix

    A matrix is applied in place: a walk over all basis indices multiplies one
    block of amplitudes at each index without ones on the wires, and passes
    over the others.  What comes out is that each amplitude is a row of the
    matrix times the amplitudes of the state that the walk set out from
    (`applyMatrix_eq_combined`), though it reads the state that it writes.

    The reason is that blocks do not overlap.  The block of a basis state is
    known by the basis state with its wires cleared, its root; a step writes
    the basis states of one root from basis states of that root
    (`amplitude_applyBlock`).  So after some steps the amplitudes of the roots
    that were reached are the new ones and all others still the old ones
    (`amplitude_applyBlocks`).
-/

namespace CircuitGrad

namespace Proofs

open StateVector

variable {n : ℕ} {α : Type} [Scalar α]

/-- The row of a matrix that some wires spell, times the amplitudes where the
    columns overwrite the wires. -/
def combined (matrix : Array (Amplitude α)) (ws : List (Fin n)) (s : StateVector α) (x : Bits n) :
    Amplitude α :=
  .sum <| (List.range (2 ^ ws.length)).map fun c =>
    matrix.getD (spell ws x * 2 ^ ws.length + c) 0 * s.amplitude (index (overwrite ws c x))

/-- The basis state with some wires cleared, which names its block. -/
def cleared (ws : List (Fin n)) (x : Bits n) : Bits n := overwrite ws 0 x

/-- Where the entries of a block lie from its root. -/
def blockOffsets (ws : List (Fin n)) : List ℕ :=
  (List.range (2 ^ ws.length)).map (Basis.spread n (ws.map (·.val)))

section Roots

variable {ws : List (Fin n)}

omit [Scalar α] in
theorem cleared_overwrite (ws : List (Fin n)) (c : ℕ) (x : Bits n) :
    cleared ws (overwrite ws c x) = cleared ws x := overwrite_overwrite ws 0 c x

theorem cleared_eq_self_iff (x : Bits n) : cleared ws x = x ↔ ∀ w ∈ ws, x w = false := by
  constructor
  · intro h w hw
    rw [← h]
    exact overwrite_zero hw x
  · intro h
    funext v
    by_cases hv : v ∈ ws
    · rw [h v hv]
      exact overwrite_zero hv x
    · exact overwrite_of_notMem hv 0 x

/-- A block holds the basis states of its root. -/
theorem exists_overwrite_iff {x y : Bits n} (hy : cleared ws y = y) :
    (∃ r < 2 ^ ws.length, overwrite ws r y = x) ↔ cleared ws x = y := by
  constructor
  · rintro ⟨r, -, rfl⟩
    rw [cleared_overwrite, hy]
  · rintro rfl
    refine ⟨spell ws x, spell_lt ws x, ?_⟩
    rw [cleared, overwrite_overwrite, overwrite_spell]

end Roots

/-! ## One block -/

/-- Writing entries one after the other, each with the value of its place. -/
theorem amplitude_foldl_set {s : StateVector α} (hs : s.wires = n) (place : ℕ → Bits n)
    (value : Bits n → Amplitude α) (rows : List ℕ) (x : Bits n) :
    (rows.foldl (fun acc r => acc.set (index (place r)) (value (place r))) s).amplitude (index x) =
      if ∃ r ∈ rows, place r = x then value x else s.amplitude (index x) := by
  induction rows generalizing s with
  | nil => simp
  | cons r rows ih =>
    have hlt : index (place r) < 2 ^ s.wires := by
      rw [hs]
      exact index_lt _
    rw [List.foldl_cons, ih ((wires_set ..).trans hs), amplitude_set hlt]
    by_cases hrest : ∃ r' ∈ rows, place r' = x
    · have hall : ∃ r' ∈ r :: rows, place r' = x :=
        hrest.imp fun _ h => ⟨List.mem_cons_of_mem _ h.1, h.2⟩
      rw [if_pos hrest, if_pos hall]
    · rw [if_neg hrest]
      by_cases hr : place r = x
      · rw [if_pos (congrArg index hr), if_pos ⟨r, List.mem_cons_self, hr⟩, hr]
      · have hnone : ¬∃ r' ∈ r :: rows, place r' = x := by
          rintro ⟨r', hmem, hplace⟩
          rcases List.mem_cons.mp hmem with rfl | hmem
          · exact hr hplace
          · exact hrest ⟨r', hmem, hplace⟩
        rw [if_neg fun h => hr (index_injective h), if_neg hnone]

omit [Scalar α] in
theorem zipIdx_map_range {β : Type} (f : ℕ → β) (k : ℕ) :
    ((List.range k).map f).zipIdx = (List.range k).map fun i => (f i, i) := by
  apply List.ext_getElem
  · simp
  · intro i hi hi'
    simp

/-- A step changes the block of one root.  There each amplitude becomes a row
    of the matrix times the amplitudes before the step. -/
theorem amplitude_applyBlock {s : StateVector α} (hs : s.wires = n) {ws : List (Fin n)}
    (hws : ws.Nodup) (matrix : Array (Amplitude α)) {y : Bits n} (hy : cleared ws y = y)
    (x : Bits n) :
    (s.applyBlock matrix (blockOffsets ws) (index y)).amplitude (index x) =
      if cleared ws x = y then combined matrix ws s x else s.amplitude (index x) := by
  have hplace (c : ℕ) : index y ||| Basis.spread n (ws.map (·.val)) c = index (overwrite ws c y) :=
    or_spread_eq hws ((cleared_eq_self_iff y).mp hy) c
  -- The value that a row writes is the one its place asks for.
  have hvalue : ∀ r ∈ List.range (2 ^ ws.length),
      combined matrix ws s (overwrite ws r y) =
        .sum ((List.range (2 ^ ws.length)).map fun c =>
          matrix.getD (r * 2 ^ ws.length + c) 0 * s.amplitude (index (overwrite ws c y))) := by
    intro r hr
    unfold combined
    simp only [overwrite_overwrite]
    rw [spell_overwrite hws, Nat.mod_eq_of_lt (List.mem_range.mp hr)]
  have hwrites : s.applyBlock matrix (blockOffsets ws) (index y) =
      (List.range (2 ^ ws.length)).foldl (fun acc r =>
        acc.set (index (overwrite ws r y)) (combined matrix ws s (overwrite ws r y))) s := by
    unfold applyBlock blockOffsets
    simp only [List.map_map, zipIdx_map_range, List.foldl_map, Function.comp_def, hplace,
      List.length_map, List.length_range]
    exact List.foldl_ext _ _ _ fun acc r hr => by rw [hvalue r hr]
  rw [hwrites, amplitude_foldl_set hs (overwrite ws · y) (combined matrix ws s)]
  simp only [List.mem_range, exists_overwrite_iff hy]

/-! ## All blocks -/

theorem applyBlocks_succ (matrix : Array (Amplitude α)) (offsets : List ℕ) (s : StateVector α)
    (k : ℕ) : s.applyBlocks matrix offsets (k + 1) = if k &&& offsets.foldl (· ||| ·) 0 = 0 then
      (s.applyBlocks matrix offsets k).applyBlock matrix offsets k
    else s.applyBlocks matrix offsets k := by
  unfold applyBlocks
  rw [List.range_succ, List.foldl_append, List.foldl_cons, List.foldl_nil]

/-- Up to a basis index, the walk has replaced the amplitudes whose root lies
    before it, and no others. -/
theorem amplitude_applyBlocks {s : StateVector α} (hs : s.wires = n) {ws : List (Fin n)}
    (hws : ws.Nodup)
    (matrix : Array (Amplitude α)) {k : ℕ} (hk : k ≤ 2 ^ n) (x : Bits n) :
    (s.applyBlocks matrix (blockOffsets ws) k).amplitude (index x) =
      if index (cleared ws x) < k then combined matrix ws s x else s.amplitude (index x) := by
  induction k generalizing x with
  | zero => rfl
  | succ k ih =>
    have ih := ih (Nat.le_of_succ_le hk)
    obtain ⟨y, rfl⟩ : ∃ y : Bits n, index y = k := ⟨bits n k, index_bits hk⟩
    have hlast : index (cleared ws x) < index y + 1 ↔
        cleared ws x = y ∨ index (cleared ws x) < index y := by
      rw [Nat.lt_succ_iff_lt_or_eq, or_comm, index_injective.eq_iff]
    have hmask : index y &&& (blockOffsets ws).foldl (· ||| ·) 0 = 0 ↔ cleared ws y = y :=
      (and_mask_eq_zero_iff (bit_mask hws) y).trans (cleared_eq_self_iff y).symm
    rw [applyBlocks_succ]
    by_cases hy : cleared ws y = y
    · -- The block of this root is reached now, so what the step reads of it is still old.
      rw [if_pos (hmask.mpr hy),
        amplitude_applyBlock ((wires_applyBlocks ..).trans hs) hws matrix hy]
      by_cases hx : cleared ws x = y
      · rw [if_pos hx, if_pos (hlast.mpr (.inl hx))]
        unfold combined
        congr 2
        funext c
        rw [ih, cleared_overwrite, hx, if_neg (Nat.lt_irrefl _)]
      · rw [if_neg hx, ih]
        exact if_congr (by simp [hlast, hx]) rfl rfl
    · -- No basis state has this one as its root.
      have hx : cleared ws x ≠ y := by
        rintro rfl
        exact hy (cleared_overwrite ws 0 x)
      rw [if_neg (mt hmask.mp hy), ih]
      exact if_congr (by simp [hlast, hx]) rfl rfl

/-! ## The whole register -/

/-- A state vector is given by its amplitudes. -/
theorem eq_ofFn_of_amplitude {s : StateVector α} (hs : s.wires = n) {f : Bits n → Amplitude α}
    (h : ∀ x : Bits n, s.amplitude (index x) = f x) : s = .ofFn n fun i => f (bits n i) := by
  obtain ⟨wires, amplitudes, hsize⟩ := s
  obtain rfl : wires = n := hs
  unfold StateVector.ofFn
  congr 1
  apply Array.ext
  · rw [Array.size_ofFn, hsize]
  · intro i hi hi'
    have hamp := h (bits wires i)
    rw [index_bits (hsize ▸ hi)] at hamp
    rw [Array.getElem_ofFn]
    refine Eq.trans ?_ hamp
    simp [StateVector.amplitude, hi]

/-- Applying a matrix in place combines the old amplitudes. -/
theorem applyMatrix_eq_combined {s : StateVector α} (hs : s.wires = n)
    {matrix : Array (Amplitude α)} {ws : List (Fin n)} (hws : ws.Nodup)
    (hsize : matrix.size = 2 ^ ws.length * 2 ^ ws.length) :
    s.applyMatrix matrix (ws.map (·.val)) =
      .ok (.ofFn n fun i => combined matrix ws s (bits n i)) := by
  subst hs
  have hcheck : s.checkWires (ws.map (·.val)) = .ok () := by
    have hnone : (ws.map (·.val)).find? (· ≥ s.wires) = none := by simp
    unfold checkWires
    rw [hnone]
  unfold applyMatrix
  rw [hcheck]
  simp only [List.length_map]
  rw [if_neg (not_not.mpr hsize)]
  refine congrArg Except.ok
    (eq_ofFn_of_amplitude (wires_applyBlocks matrix (blockOffsets ws) s _) fun x => ?_)
  exact (amplitude_applyBlocks rfl hws matrix le_rfl x).trans (if_pos (index_lt _))

end Proofs

end CircuitGrad
