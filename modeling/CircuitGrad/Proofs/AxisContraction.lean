import CircuitGrad.Tensor.Checked
import CircuitGrad.Proofs.Counts
import CircuitGrad.Proofs.RowMajor

/-! # Contraction of one axis

    A contraction replaces one axis of a tensor by its product with a matrix
    and leaves the other axes as they are.  Over a commutative ring the loop
    over flat positions is a sum over the axis (`contract_eq`), which is then
    read by index (`valueAt_contract`): there the indices before and after the
    axis take no part, so that two axes can be contracted in either order, and
    one axis by two matrices as by their product.

    The sizes of the loop are products of words.  They may overflow although
    the tensor and the result have no entries at all, and then the contraction
    stops; `RoomToContract` is the exact condition, and under it the laws hold
    (`contract_laws`).
-/

namespace CircuitGrad

/-- The sizes of a contraction fit: the entries of the matrix, the dimensions
    before the axis with the columns behind them, the dimensions after the
    axis, and the bytes of the result. -/
structure Tensor.RoomToContract (shape : List ℕ) (axis n m : ℕ) : Prop where
  matrix : n * m < 2 ^ (64 : ℕ)
  before : Count.Fits (shape.take axis ++ [m])
  after  : Count.Fits (shape.drop (axis + 1))
  result : (shape.set axis m).prod * Tensor.Checked.entryBytes < 2 ^ (63 : ℕ)

/-- The row-major array of a matrix. -/
def rowsOf {R : Type} {n m : ℕ} (M : Matrix (Fin n) (Fin m) R) : Array R :=
  Array.ofFn fun p : Fin (n * m) => M p.divNat p.modNat

namespace Proofs

open Tensor (InRange RoomToContract place volume)

section Contraction

variable {R : Type} [CommRing R] [BEq R] [LawfulBEq R]

/-! ## Flat positions -/

/-- Zero factors may be skipped in a sum. -/
theorem foldl_skip_zero (n : ℕ) (f g : ℕ → R) :
    (List.range n).foldl (fun acc k => if f k == 0 then acc else acc + f k * g k) 0 =
      ∑ k : Fin n, f k * g k := by
  induction n with
  | zero => rfl
  | succ n ih =>
    rw [List.range_succ, List.foldl_append, ih, Fin.sum_univ_castSucc]
    by_cases hzero : f n = 0
    · simp [hzero]
    · simp [hzero]

/-- A dimension is replaced by its product with a matrix. -/
theorem contract_eq {t : Tensor R} {lead rest : List ℕ} {n m : ℕ}
    (hshape : t.shape = lead ++ n :: rest) {matrix : Array R} (hsize : matrix.size = n * m) :
    ∃ T, t.contract lead.length matrix m = .ok T ∧ T.shape = lead ++ m :: rest ∧
      ∀ o < volume lead, ∀ c < m, ∀ i < volume rest,
        T.entry ((o * m + c) * volume rest + i) =
          ∑ k : Fin n, matrix.getD (k * m + c) 0 * t.entry ((o * n + k) * volume rest + i) := by
  have haxis : t.shape[lead.length]? = some n := by simp [hshape]
  have hinner : t.shape.drop (lead.length + 1) = rest := by simp [hshape]
  have houter : t.shape.set lead.length m = lead ++ m :: rest := by simp [hshape]
  unfold Tensor.contract
  simp only [haxis, hsize, ne_eq, not_true_eq_false, if_false, hinner, houter]
  refine ⟨_, rfl, rfl, ?_⟩
  intro o ho c hc i hi
  have hcolumn : o * m + c < volume lead * m := row_add_lt ho hc
  have hlt : (o * m + c) * volume rest + i < volume (lead ++ m :: rest) := by
    rw [Tensor.volume_append, Tensor.volume_cons, ← Nat.mul_assoc]
    exact row_add_lt hcolumn hi
  -- The position is taken apart into the three indices.
  have hdiv : ((o * m + c) * volume rest + i) / volume rest = o * m + c := row_add_div hi
  have hmod : ((o * m + c) * volume rest + i) % volume rest = i := row_add_mod hi
  rw [Tensor.entry_ofFn hlt, Nat.mul_comm m, ← Nat.div_div_eq_div_mul, hdiv, hmod,
    row_add_div hc, row_add_mod hc]
  exact foldl_skip_zero n (fun k => matrix.getD (k * m + c) 0)
    fun k => t.entry ((o * n + k) * volume rest + i)

/-! ## Entries by index -/

/-- The entry at an index is a sum over the axis. -/
theorem valueAt_contract {t : Tensor R} {lead rest : List ℕ} {n m : ℕ}
    (hshape : t.shape = lead ++ n :: rest) {matrix : Array R} (hsize : matrix.size = n * m) :
    ∃ T, t.contract lead.length matrix m = .ok T ∧ T.shape = lead ++ m :: rest ∧
      ∀ o i, InRange lead o → InRange rest i → ∀ c < m,
        T.valueAt (o ++ c :: i) =
          ∑ k : Fin n, matrix.getD (k * m + c) 0 * t.valueAt (o ++ k.val :: i) := by
  obtain ⟨T, hcontract, hT, hentry⟩ := contract_eq hshape hsize
  refine ⟨T, hcontract, hT, fun o i ho hi c hc => ?_⟩
  unfold Tensor.valueAt
  rw [hT, place_axis hc ho hi, hentry _ (place_lt ho) c hc _ (place_lt hi)]
  refine Finset.sum_congr rfl fun k _ => ?_
  rw [hshape, place_axis k.isLt ho hi]

/-- A contraction by a matrix of the size of the axis, with every factor of its sums in place. -/
theorem contract_sums {t : Tensor R} {axis n m : ℕ} {A : Array R} (haxis : t.shape[axis]? = some n)
    (hsize : A.size = n * m) :
    ∃ T, t.contract axis A m = .ok T ∧ T.shape = t.shape.set axis m ∧
      ∀ o i, InRange (t.shape.take axis) o → InRange (t.shape.drop (axis + 1)) i → ∀ c < m,
        ∃ a v : Fin n → R, (∀ k, A[k.val * m + c]? = some (a k)) ∧
          (∀ k, t.get? (o ++ k.val :: i) = some (v k)) ∧
            T.get? (o ++ c :: i) = some (∑ k, a k * v k) := by
  obtain ⟨hshape, hlength⟩ := split_at_axis haxis
  obtain ⟨T, hcontract, hT, hvalue⟩ := valueAt_contract hshape hsize
  rw [hlength] at hcontract
  refine ⟨T, hcontract, hT.trans (set_axis haxis m).symm, fun o i ho hi c hc => ?_⟩
  refine ⟨fun k => A.getD (k.val * m + c) 0, fun k => t.valueAt (o ++ k.val :: i),
    fun k => ?_, fun k => ?_, ?_⟩
  · have hlt : k.val * m + c < A.size := hsize ▸ row_add_lt k.isLt hc
    simp [Array.getD, hlt]
  · have hrange := inRange_append ho (.cons k.isLt hi)
    rw [← hshape] at hrange
    exact get?_eq_some hrange
  · have hrange := inRange_append ho (.cons hc hi)
    rw [← hT] at hrange
    rw [get?_eq_some hrange, hvalue o i ho hi c hc]

/-! ## Two contractions -/

/-- Axes that lie apart are contracted in either order: the first in front of the second. -/
theorem contract_exchange {t : Tensor R} {lead mid rest : List ℕ} {n n' m m' : ℕ}
    (hshape : t.shape = lead ++ n :: (mid ++ n' :: rest)) {A A' : Array R}
    (hA : A.size = n * m) (hA' : A'.size = n' * m') :
    ∃ T, (t.contract lead.length A m >>= (·.contract (lead ++ n :: mid).length A' m')) = .ok T ∧
      (t.contract (lead ++ n :: mid).length A' m' >>= (·.contract lead.length A m)) = .ok T := by
  have hshape' : t.shape = (lead ++ n :: mid) ++ n' :: rest := by simp [hshape]
  have hlength : (lead ++ n :: mid).length = (lead ++ m :: mid).length := by simp
  -- The front axis first, then the one behind it.
  obtain ⟨U, hU, hUshape, hUvalue⟩ := valueAt_contract hshape hA
  have hUshape' : U.shape = (lead ++ m :: mid) ++ n' :: rest := by simp [hUshape]
  obtain ⟨T, hT, hTshape, hTvalue⟩ := valueAt_contract hUshape' hA'
  -- The axis behind first, then the one in front.
  obtain ⟨W, hW, hWshape, hWvalue⟩ := valueAt_contract hshape' hA'
  have hWshape' : W.shape = lead ++ n :: (mid ++ m' :: rest) := by simp [hWshape]
  obtain ⟨T', hT', hTshape', hTvalue'⟩ := valueAt_contract hWshape' hA
  have hequal : T' = T := by
    refine ext_valueAt (by simp [hTshape, hTshape']) fun index hindex => ?_
    rw [hTshape'] at hindex
    obtain ⟨o, _, rfl, ho, hfront⟩ := exists_of_inRange_append hindex
    obtain ⟨c, _, hc, hmid, rfl⟩ := List.forall₂_cons_right_iff.mp hfront
    obtain ⟨j, _, rfl, hj, hback⟩ := exists_of_inRange_append hmid
    obtain ⟨c', i, hc', hi, rfl⟩ := List.forall₂_cons_right_iff.mp hback
    have hbehind : ∀ k' < n', InRange (mid ++ n' :: rest) (j ++ k' :: i) :=
      fun k' hk' => inRange_append hj (.cons hk' hi)
    have hassoc : ∀ d e, o ++ d :: (j ++ e :: i) = (o ++ d :: j) ++ e :: i := by simp
    rw [hTvalue' o _ ho (inRange_append hj (.cons hc' hi)) c hc, hassoc c c',
      hTvalue _ i (inRange_append ho (.cons hc hj)) hi c' hc']
    have hleft : ∀ k : Fin n, W.valueAt (o ++ k.val :: (j ++ c' :: i)) =
        ∑ k' : Fin n', A'.getD (k'.val * m' + c') 0 *
          t.valueAt (o ++ k.val :: (j ++ k'.val :: i)) := by
      intro k
      rw [hassoc, hWvalue _ i (inRange_append ho (.cons k.isLt hj)) hi c' hc']
      exact Finset.sum_congr rfl fun k' _ => by rw [hassoc]
    have hright : ∀ k' : Fin n', U.valueAt ((o ++ c :: j) ++ k'.val :: i) =
        ∑ k : Fin n, A.getD (k.val * m + c) 0 *
          t.valueAt (o ++ k.val :: (j ++ k'.val :: i)) := by
      intro k'
      rw [← hassoc, hUvalue o _ ho (hbehind k' k'.isLt) c hc]
    simp only [hleft, hright, Finset.mul_sum]
    rw [Finset.sum_comm]
    exact Finset.sum_congr rfl fun k' _ => Finset.sum_congr rfl fun k _ => mul_left_comm _ _ _
  refine ⟨T, ?_, ?_⟩
  · rw [hU, ok_bind, hlength, hT]
  · rw [hW, ok_bind, hT', hequal]

theorem contract_comm {t : Tensor R} {axis axis' n n' m m' : ℕ} {A A' : Array R}
    (hne : axis ≠ axis') (haxis : t.shape[axis]? = some n) (haxis' : t.shape[axis']? = some n')
    (hA : A.size = n * m) (hA' : A'.size = n' * m') :
    ∃ T, (t.contract axis A m >>= (·.contract axis' A' m')) = .ok T ∧
      (t.contract axis' A' m' >>= (·.contract axis A m)) = .ok T := by
  wlog hlt : axis < axis' generalizing axis axis' n n' m m' A A'
  · obtain ⟨T, h, h'⟩ := this hne.symm haxis' haxis hA' hA (by omega)
    exact ⟨T, h', h⟩
  obtain ⟨hshape, hlength⟩ := split_at_axis haxis
  -- The second axis lies among the dimensions after the first.
  have hbehind : (t.shape.drop (axis + 1))[axis' - (axis + 1)]? = some n' := by
    rw [List.getElem?_drop, ← haxis']
    congr 1
    omega
  obtain ⟨hrest, hmid⟩ := split_at_axis hbehind
  rw [hrest] at hshape
  have h := contract_exchange hshape hA hA'
  have hplace : (t.shape.take axis ++
      n :: (t.shape.drop (axis + 1)).take (axis' - (axis + 1))).length = axis' := by
    rw [List.length_append, List.length_cons, hlength, hmid]
    omega
  rwa [hplace, hlength] at h

theorem size_rowsOf {S : Type} {n m : ℕ} (M : Matrix (Fin n) (Fin m) S) :
    (rowsOf M).size = n * m := Array.size_ofFn

theorem getD_rowsOf {S : Type} [Zero S] {n m : ℕ} (M : Matrix (Fin n) (Fin m) S) (k : Fin n)
    (c : Fin m) : (rowsOf M).getD (k.val * m + c) 0 = M k c := by
  have hlt : k.val * m + c < n * m := row_add_lt k.isLt c.isLt
  have hrow : Fin.divNat ⟨k.val * m + c, hlt⟩ = k := Fin.ext (row_add_div c.isLt)
  have hcolumn : Fin.modNat ⟨k.val * m + c, hlt⟩ = c := Fin.ext (row_add_mod c.isLt)
  unfold rowsOf
  rw [Array.getD_eq_getD_getElem?, Array.getElem?_ofFn, dif_pos hlt, Option.getD_some, hrow,
    hcolumn]

/-- Contracting an axis by one matrix and then by another contracts it by their product. -/
theorem contract_contract {t : Tensor R} {axis n m l : ℕ} (M : Matrix (Fin n) (Fin m) R)
    (N : Matrix (Fin m) (Fin l) R) (haxis : t.shape[axis]? = some n) :
    ∃ T, (t.contract axis (rowsOf M) m >>= (·.contract axis (rowsOf N) l)) = .ok T ∧
      t.contract axis (rowsOf (M * N)) l = .ok T := by
  obtain ⟨hshape, hlength⟩ := split_at_axis haxis
  obtain ⟨U, hU, hUshape, hUvalue⟩ := valueAt_contract hshape (size_rowsOf M)
  obtain ⟨T, hT, hTshape, hTvalue⟩ := valueAt_contract hUshape (size_rowsOf N)
  obtain ⟨T', hT', hTshape', hTvalue'⟩ := valueAt_contract hshape (size_rowsOf (M * N))
  have hequal : T' = T := by
    refine ext_valueAt (hTshape'.trans hTshape.symm) fun index hindex => ?_
    rw [hTshape'] at hindex
    obtain ⟨o, _, rfl, ho, htail⟩ := exists_of_inRange_append hindex
    obtain ⟨c, i, hc, hi, rfl⟩ := List.forall₂_cons_right_iff.mp htail
    rw [hTvalue' o i ho hi c hc, hTvalue o i ho hi c hc]
    have hM : ∀ k : Fin m, U.valueAt (o ++ k.val :: i) =
        ∑ j : Fin n, M j k * t.valueAt (o ++ j.val :: i) := by
      intro k
      rw [hUvalue o i ho hi k k.isLt]
      exact Finset.sum_congr rfl fun j _ => by rw [getD_rowsOf M j k]
    have hN : ∀ k : Fin m, (rowsOf N).getD (k.val * l + c) 0 = N k ⟨c, hc⟩ :=
      fun k => getD_rowsOf N k ⟨c, hc⟩
    have hMN : ∀ j : Fin n, (rowsOf (M * N)).getD (j.val * l + c) 0 =
        ∑ k, M j k * N k ⟨c, hc⟩ :=
      fun j => getD_rowsOf (M * N) j ⟨c, hc⟩
    simp only [hM, hN, hMN, Finset.mul_sum, Finset.sum_mul]
    rw [Finset.sum_comm]
    refine Finset.sum_congr rfl fun k _ => Finset.sum_congr rfl fun j _ => ?_
    ring
  rw [hlength] at hU hT hT'
  exact ⟨T, by rw [hU, ok_bind, hT], by rw [hT', hequal]⟩

end Contraction

/-! ## Sizes on the way -/

section Sizes

variable {shape : List ℕ} {axis n m : ℕ}

theorem stopsUnless_resultSize (haxis : shape[axis]? = some n) (m : ℕ) :
    StopsUnless (Count.Fits (shape.take axis ++ [m]) ∧ Count.Fits (shape.drop (axis + 1)) ∧
        (shape.set axis m).prod < 2 ^ (64 : ℕ))
      (Tensor.Checked.resultSize shape axis m) (shape.set axis m).prod := by
  rw [set_axis haxis, List.prod_append, List.prod_cons, ← mul_assoc, fits_concat]
  refine StopsUnless.congr ((stopsUnless_product (shape.take axis)).bind fun _ =>
    (stopsUnless_product (shape.drop (axis + 1))).bind fun _ =>
      (stopsUnless_mul (shape.take axis).prod m).bind fun _ =>
        stopsUnless_mul ((shape.take axis).prod * m) (shape.drop (axis + 1)).prod) ?_
  tauto

theorem stopsUnless_roomToContract (haxis : shape[axis]? = some n) (m : ℕ) :
    StopsUnless (RoomToContract shape axis n m)
      (Tensor.Checked.roomToContract shape axis (n * m) m) () := by
  have hroom := (stopsUnless_resultSize haxis m).bind
    (f := fun size => Count.room size Tensor.Checked.entryBytes) fun _ => stopsUnless_room _ _
  unfold Tensor.Checked.roomToContract
  simp only [haxis]
  refine StopsUnless.congr ((stopsUnless_mul n m).bind fun _ => hroom.of_eq (if_pos rfl)) ⟨?_, ?_⟩
  · rintro ⟨hmatrix, ⟨hbefore, hafter, -⟩, hresult⟩
    exact ⟨hmatrix, hbefore, hafter, hresult⟩
  · rintro ⟨hmatrix, hbefore, hafter, hresult⟩
    exact ⟨hmatrix, ⟨hbefore, hafter, lt_word_of_room (by decide) hresult⟩, hresult⟩

variable {R : Type} [Zero R] [Add R] [Mul R] [BEq R] {t T : Tensor R} {A : Array R}

theorem shape_contract (h : t.contract axis A m = .ok T) : T.shape = t.shape.set axis m := by
  unfold Tensor.contract at h
  split at h
  · cases h
  · split at h
    · cases h
    · obtain rfl := Except.ok.inj h
      rfl

/-- A contraction goes through exactly if its sizes fit. -/
theorem stopsUnless_contract (haxis : t.shape[axis]? = some n) (hsize : A.size = n * m)
    (h : t.contract axis A m = .ok T) :
    StopsUnless (RoomToContract t.shape axis n m) (Tensor.Checked.contract t axis A m) T := by
  unfold Tensor.Checked.contract
  rw [hsize]
  exact (stopsUnless_roomToContract haxis m).then_ok h

theorem stopsUnless_contract_contract {axis' n' m' : ℕ} {A' : Array R}
    (haxis : t.shape[axis]? = some n) (haxis' : (t.shape.set axis m)[axis']? = some n')
    (hA : A.size = n * m) (hA' : A'.size = n' * m')
    (h : (t.contract axis A m >>= (·.contract axis' A' m')) = .ok T) :
    StopsUnless (RoomToContract t.shape axis n m ∧ RoomToContract (t.shape.set axis m) axis' n' m')
      (Tensor.Checked.contract t axis A m >>= (Tensor.Checked.contract · axis' A' m')) T := by
  obtain ⟨U, hU, hT⟩ := bind_eq_ok h
  rw [← shape_contract hU] at haxis' ⊢
  exact (stopsUnless_contract haxis hA hU).bind fun _ => stopsUnless_contract haxis' hA' hT

end Sizes

/-- Over a commutative ring, a contraction by a matrix that fits the axis gives
    the tensor with the columns of the matrix in the place of the axis, whose
    entry at an index is the sum, over the axis, of the matrix times the entries
    before.  Contractions of different axes can be exchanged, and two of one
    axis are the contraction by the product of the matrices.  Each contraction
    goes through exactly if its sizes fit, and stops otherwise. -/
theorem contract_laws {R : Type} [CommRing R] [BEq R] [LawfulBEq R] (t : Tensor R) :
    (∀ (axis n m : ℕ) (A : Array R), t.shape[axis]? = some n → A.size = n * m →
      ∃ T, StopsUnless (RoomToContract t.shape axis n m) (Tensor.Checked.contract t axis A m) T ∧
        T.shape = t.shape.set axis m ∧
        ∀ o i, InRange (t.shape.take axis) o → InRange (t.shape.drop (axis + 1)) i → ∀ c < m,
          ∃ a v : Fin n → R, (∀ k, A[k.val * m + c]? = some (a k)) ∧
            (∀ k, t.get? (o ++ k.val :: i) = some (v k)) ∧
              T.get? (o ++ c :: i) = some (∑ k, a k * v k)) ∧
    (∀ (axis axis' n n' m m' : ℕ) (A A' : Array R), axis ≠ axis' →
      t.shape[axis]? = some n → t.shape[axis']? = some n' →
      A.size = n * m → A'.size = n' * m' →
      ∃ T, StopsUnless
          (RoomToContract t.shape axis n m ∧ RoomToContract (t.shape.set axis m) axis' n' m')
          (Tensor.Checked.contract t axis A m >>= (Tensor.Checked.contract · axis' A' m')) T ∧
        StopsUnless
          (RoomToContract t.shape axis' n' m' ∧ RoomToContract (t.shape.set axis' m') axis n m)
          (Tensor.Checked.contract t axis' A' m' >>= (Tensor.Checked.contract · axis A m)) T) ∧
    ∀ (axis n m l : ℕ) (M : Matrix (Fin n) (Fin m) R) (N : Matrix (Fin m) (Fin l) R),
      t.shape[axis]? = some n →
      ∃ T, StopsUnless
          (RoomToContract t.shape axis n m ∧ RoomToContract (t.shape.set axis m) axis m l)
          (Tensor.Checked.contract t axis (rowsOf M) m >>=
            (Tensor.Checked.contract · axis (rowsOf N) l)) T ∧
        StopsUnless (RoomToContract t.shape axis n l)
          (Tensor.Checked.contract t axis (rowsOf (M * N)) l) T := by
  refine ⟨?_, ?_, ?_⟩
  · intro axis n m A haxis hsize
    obtain ⟨T, hT, hentries⟩ := contract_sums haxis hsize
    exact ⟨T, stopsUnless_contract haxis hsize hT, hentries⟩
  · intro axis axis' n n' m m' A A' hne haxis haxis' hA hA'
    obtain ⟨T, hT, hT'⟩ := contract_comm hne haxis haxis' hA hA'
    have hsecond : (t.shape.set axis m)[axis']? = some n' := by
      rw [List.getElem?_set_ne hne, haxis']
    have hfirst : (t.shape.set axis' m')[axis]? = some n := by
      rw [List.getElem?_set_ne hne.symm, haxis]
    exact ⟨T, stopsUnless_contract_contract haxis hsecond hA hA' hT,
      stopsUnless_contract_contract haxis' hfirst hA' hA hT'⟩
  · intro axis n m l M N haxis
    obtain ⟨T, hT, hT'⟩ := contract_contract M N haxis
    have hsecond : (t.shape.set axis m)[axis]? = some m :=
      List.getElem?_set_self (List.getElem?_eq_some_iff.mp haxis).1
    exact ⟨T, stopsUnless_contract_contract haxis hsecond (size_rowsOf M) (size_rowsOf N) hT,
      stopsUnless_contract haxis (size_rowsOf (M * N)) hT'⟩

/-- Two rows of three integers. -/
def twoRows : Tensor ℤ := ⟨[2, 3], #[1, 2, 3, 4, 5, 6], rfl⟩

/-- The second row adds up to 15.  Subtracting the rows and adding up the
    columns can be exchanged, and two matrices on the columns act as their
    product. -/
theorem contract_laws_twoRows :
    let M : Matrix (Fin 3) (Fin 2) ℤ := !![1, 2; 0, 1; 3, 0]
    let N : Matrix (Fin 2) (Fin 1) ℤ := !![5; 7]
    (twoRows.shape[0]? = some 2 ∧ twoRows.shape[1]? = some 3) ∧
    (∃ T, Tensor.Checked.contract twoRows 1 #[1, 1, 1] 1 = .ok T ∧ T.shape = [2, 1] ∧
      T.get? [1, 0] = some 15) ∧
    (∃ T, (Tensor.Checked.contract twoRows 0 #[1, -1] 1 >>=
        (Tensor.Checked.contract · 1 #[1, 1, 1] 1)) = .ok T ∧
      (Tensor.Checked.contract twoRows 1 #[1, 1, 1] 1 >>=
        (Tensor.Checked.contract · 0 #[1, -1] 1)) = .ok T) ∧
    ∃ T, (Tensor.Checked.contract twoRows 1 (rowsOf M) 2 >>=
        (Tensor.Checked.contract · 1 (rowsOf N) 1)) = .ok T ∧
      Tensor.Checked.contract twoRows 1 (rowsOf (M * N)) 1 = .ok T := by
  intro M N
  have hroom : RoomToContract [2, 3] 1 3 1 ∧ RoomToContract [2, 3] 0 2 1 ∧
      RoomToContract [1, 3] 1 3 1 ∧ RoomToContract [2, 1] 0 2 1 ∧
      RoomToContract [2, 3] 1 3 2 ∧ RoomToContract [2, 2] 1 2 1 := by
    refine ⟨?_, ?_, ?_, ?_, ?_, ?_⟩ <;> constructor <;> decide
  obtain ⟨hcolumns, hrows, hrows', hcolumns', hpair, hpair'⟩ := hroom
  obtain ⟨hsums, hexchange, hproduct⟩ := contract_laws twoRows
  refine ⟨⟨rfl, rfl⟩, ?_, ?_, ?_⟩
  · obtain ⟨T, hcontract, hshape, hentry⟩ := hsums 1 3 1 #[1, 1, 1] rfl rfl
    refine ⟨T, hcontract.goes hcolumns, hshape, ?_⟩
    obtain ⟨a, v, ha, hv, hsum⟩ := hentry [1] [] (.cons (by decide) .nil) .nil 0 (by decide)
    have hones : a 0 = 1 ∧ a 1 = 1 ∧ a 2 = 1 := by
      exact ⟨(Option.some.inj (ha 0)).symm, (Option.some.inj (ha 1)).symm,
        (Option.some.inj (ha 2)).symm⟩
    have hrow : v 0 = 4 ∧ v 1 = 5 ∧ v 2 = 6 := by
      exact ⟨(Option.some.inj (hv 0)).symm, (Option.some.inj (hv 1)).symm,
        (Option.some.inj (hv 2)).symm⟩
    refine hsum.trans (congrArg some ?_)
    rw [Fin.sum_univ_three, hones.1, hones.2.1, hones.2.2, hrow.1, hrow.2.1, hrow.2.2]
    rfl
  · obtain ⟨T, hfront, hback⟩ := hexchange 0 1 2 3 1 1 #[1, -1] #[1, 1, 1] (by decide) rfl rfl
      rfl rfl
    exact ⟨T, hfront.goes ⟨hrows, hrows'⟩, hback.goes ⟨hcolumns, hcolumns'⟩⟩
  · obtain ⟨T, htwice, honce⟩ := hproduct 1 3 2 1 M N rfl
    exact ⟨T, htwice.goes ⟨hpair, hpair'⟩, honce.goes hcolumns⟩

/-- Two tensors without entries whose sizes overflow: the result of the first
    contraction would be as large as the dimensions around the axis, that of the
    second has no entries either. -/
theorem contract_overflows :
    let across : Tensor ℤ := .zeros [2 ^ (40 : ℕ), 0, 2 ^ (40 : ℕ)]
    let behind : Tensor ℤ := .zeros [0, 2 ^ (40 : ℕ), 2 ^ (40 : ℕ)]
    Tensor.Checked.make across.shape #[] = .ok across ∧ across.shape[1]? = some 0 ∧
    Tensor.Checked.contract across 1 #[] 1 = .error .overflow ∧
    Tensor.Checked.make behind.shape #[] = .ok behind ∧ behind.shape[0]? = some 0 ∧
    behind.contract 0 #[] 0 = .ok behind ∧
    Tensor.Checked.contract behind 0 #[] 0 = .error .overflow := by
  refine ⟨rfl, rfl, rfl, rfl, rfl, rfl, rfl⟩

end Proofs

end CircuitGrad
