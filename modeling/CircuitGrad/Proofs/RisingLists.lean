import Mathlib.Data.List.Perm.Lattice
import Mathlib.Order.Basic

/-! # Rising lists

    Wires and frequencies are kept in rising order and without repetition:
    they are sorted, and of equal neighbours one is kept.  Such a list is told
    by its members (`eq_of_rising`).
-/

namespace CircuitGrad

namespace Proofs

variable {β : Type}

/-- Lists that rise are equal if they have the same members. -/
theorem eq_of_rising {r : β → β → Prop} (hr : ∀ a b, r a b → ¬ r b a) {xs ys : List β}
    (hxs : xs.Pairwise r) (hys : ys.Pairwise r) (h : ∀ x, x ∈ xs ↔ x ∈ ys) : xs = ys := by
  have hne : ∀ {a b}, r a b → a ≠ b := by
    rintro a b hab rfl
    exact hr a a hab hab
  have hperm : xs.Perm ys := (List.perm_ext_iff_of_nodup (hxs.imp hne) (hys.imp hne)).mpr h
  exact hperm.eq_of_pairwise (fun a b _ _ hab hba => absurd hba (hr a b hab)) hxs hys

section Repetitions

variable [BEq β]

theorem eraseReps_loop (a : β) (xs acc : List β) :
    List.eraseRepsBy.loop (· == ·) a xs acc =
      acc.reverse ++ List.eraseRepsBy.loop (· == ·) a xs [] := by
  induction xs generalizing a acc with
  | nil => simp [List.eraseRepsBy.loop]
  | cons b rest ih =>
    rw [List.eraseRepsBy.loop, List.eraseRepsBy.loop]
    cases a == b with
    | true => exact ih a acc
    | false => exact (ih b (a :: acc)).trans (by simp [ih b [a]])

theorem eraseReps_cons_cons (a b : β) (rest : List β) :
    (a :: b :: rest).eraseReps =
      if a == b then (a :: rest).eraseReps else a :: (b :: rest).eraseReps := by
  show List.eraseRepsBy.loop (· == ·) a (b :: rest) [] = _
  rw [List.eraseRepsBy.loop]
  cases a == b with
  | true => rfl
  | false => exact eraseReps_loop b rest [a]

variable [LawfulBEq β]

/-- Removing repetitions removes no value. -/
theorem mem_eraseReps_iff {x : β} {xs : List β} : x ∈ xs.eraseReps ↔ x ∈ xs := by
  cases xs with
  | nil => rfl
  | cons a rest =>
    induction rest generalizing a with
    | nil => rfl
    | cons b rest ih =>
      rw [eraseReps_cons_cons]
      split
      · next heq =>
        obtain rfl : a = b := eq_of_beq heq
        rw [ih, List.mem_cons, List.mem_cons, List.mem_cons, or_self_left]
      · rw [List.mem_cons, ih]
        exact List.mem_cons.symm

/-- Without repetitions, what is sorted rises. -/
theorem rising_eraseReps [PartialOrder β] {xs : List β} (h : xs.Pairwise (· ≤ ·)) :
    xs.eraseReps.Pairwise (· < ·) := by
  cases xs with
  | nil => exact .nil
  | cons a rest =>
    induction rest generalizing a with
    | nil => exact List.pairwise_singleton _ _
    | cons b rest ih =>
      obtain ⟨ha, hrest⟩ := List.pairwise_cons.mp h
      rw [eraseReps_cons_cons]
      split
      · next heq =>
        obtain rfl : a = b := eq_of_beq heq
        exact ih a hrest
      · next hne =>
        -- All that follows is at least the next value, which is greater.
        have hab : a < b := lt_of_le_of_ne (ha b List.mem_cons_self) (by simpa using hne)
        refine List.pairwise_cons.mpr ⟨fun x hx => ?_, ih b hrest⟩
        rcases List.mem_cons.mp (mem_eraseReps_iff.mp hx) with rfl | hx
        · exact hab
        · exact hab.trans_le ((List.pairwise_cons.mp hrest).1 x hx)

end Repetitions

end Proofs

end CircuitGrad
