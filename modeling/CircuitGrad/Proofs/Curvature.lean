import Mathlib
import CircuitGrad.Jet
import CircuitGrad.Proofs.RealScalar

/-! # Sparse second derivatives

    A curvature is a list of index pairs in strictly rising order, each pair
    itself in order.  Adding to an entry keeps this order, and it is what makes
    the entry that is read the one that was written: a pair out of place would
    be inserted a second time in front.

    Every fold of the product and chain rules is a sequence of bumps, so the
    entry it leaves is a sum over the list that is folded (`entry_bumps`), and
    the zeros that the gradients skip do not count (`sum_nonzero`).
-/

namespace CircuitGrad

/-- Index pairs rise strictly, and each is in order. -/
structure Curvature.Ordered {α : Type} (c : Curvature α) : Prop where
  rising  : c.Pairwise fun a b => pairLt a.1 b.1
  ordered : ∀ e ∈ c, e.1.1 ≤ e.1.2

namespace Proofs

open Curvature

variable {α : Type} [Scalar α]

/-! ## The order of index pairs -/

theorem pairLt_iff {p q : ℕ × ℕ} : pairLt p q ↔ p.1 < q.1 ∨ p.1 = q.1 ∧ p.2 < q.2 := by
  simp [pairLt]

theorem pairLt_irrefl (p : ℕ × ℕ) : ¬ pairLt p p := by
  rw [pairLt_iff]
  omega

theorem pairLt_trans {p q r : ℕ × ℕ} (hpq : pairLt p q) (hqr : pairLt q r) : pairLt p r := by
  rw [pairLt_iff] at *
  omega

/-- Of two different pairs one precedes the other. -/
theorem pairLt_of_not {p q : ℕ × ℕ} (hne : q ≠ p) (hnot : ¬ pairLt p q) : pairLt q p := by
  have hpair : ¬ (q.1 = p.1 ∧ q.2 = p.2) := fun h => hne (Prod.ext h.1 h.2)
  rw [pairLt_iff] at *
  omega

/-! ## Entries -/

/-- The coefficient of a pair as it is stored. -/
def coefficient (c : Curvature ℝ) (k : ℕ × ℕ) : ℝ := (c.lookup k).getD 0

/-- A pair in front of all stored pairs is not stored. -/
theorem coefficient_eq_zero {c : Curvature ℝ} {k : ℕ × ℕ} (h : ∀ e ∈ c, pairLt k e.1) :
    coefficient c k = 0 := by
  have hnone : c.lookup k = none := by
    rw [List.lookup_eq_none_iff]
    intro e he
    have hne : k ≠ e.1 := by
      rintro rfl
      exact pairLt_irrefl _ (h e he)
    simpa using hne
  rw [coefficient, hnone, Option.getD_none]

theorem coefficient_cons (k l : ℕ × ℕ) (x : ℝ) (c : Curvature ℝ) :
    coefficient ((l, x) :: c) k = if k = l then x else coefficient c k := by
  unfold coefficient
  rw [List.lookup_cons]
  by_cases h : k = l
  · simp [h]
  · have hne : (k == l) = false := by simpa using h
    simp [h, hne]

/-- Adding to a pair changes its coefficient and no other. -/
theorem coefficient_addAt {c : Curvature ℝ} (hc : c.Ordered) (key k : ℕ × ℕ) (v : ℝ) :
    coefficient (addAt key v c) k = coefficient c k + if k = key then v else 0 := by
  induction c with
  | nil =>
    rw [addAt, coefficient_cons]
    by_cases h : k = key <;> simp [h, coefficient]
  | cons e rest ih =>
    obtain ⟨l, x⟩ := e
    obtain ⟨hlt, hrest⟩ := List.pairwise_cons.mp hc.rising
    rw [addAt]
    by_cases heq : l = key
    · subst heq
      rw [if_pos (by simp), coefficient_cons, coefficient_cons]
      by_cases h : k = l <;> simp [h]
    · rw [if_neg (by simpa using heq)]
      by_cases hbefore : pairLt key l
      · -- the new pair goes in front, and the rest does not hold it
        rw [if_pos hbefore, coefficient_cons]
        by_cases h : k = key
        · have habsent : coefficient ((l, x) :: rest) key = 0 := by
            apply coefficient_eq_zero
            intro e he
            rcases List.mem_cons.mp he with rfl | he
            · exact hbefore
            · exact pairLt_trans hbefore (hlt e he)
          simp [h, habsent]
        · simp [h]
      · rw [if_neg hbefore, coefficient_cons, coefficient_cons,
          ih ⟨hrest, fun e he => hc.ordered e (List.mem_cons_of_mem _ he)⟩]
        by_cases h : k = l
        · have hne : k ≠ key := h ▸ heq
          simp [h, heq]
        · simp [h]

/-- The pairs after an addition are the old ones and the new one. -/
theorem mem_addAt {key k : ℕ × ℕ} {v x : α} {c : Curvature α}
    (h : (k, x) ∈ addAt key v c) : k = key ∨ ∃ y, (k, y) ∈ c := by
  induction c with
  | nil =>
    simp only [addAt, List.mem_singleton, Prod.mk.injEq] at h
    exact .inl h.1
  | cons e rest ih =>
    obtain ⟨l, y⟩ := e
    rw [addAt] at h
    split at h
    · rcases List.mem_cons.mp h with h | h
      · exact .inr ⟨y, by simp [(Prod.mk.inj h).1]⟩
      · exact .inr ⟨x, List.mem_cons_of_mem _ h⟩
    · split at h
      · rcases List.mem_cons.mp h with h | h
        · exact .inl (Prod.mk.inj h).1
        · exact .inr ⟨x, h⟩
      · rcases List.mem_cons.mp h with h | h
        · exact .inr ⟨y, by simp [(Prod.mk.inj h).1]⟩
        · obtain h | ⟨z, hz⟩ := ih h
          · exact .inl h
          · exact .inr ⟨z, List.mem_cons_of_mem _ hz⟩

omit [Scalar α] in
theorem ordered_nil : Ordered ([] : Curvature α) := ⟨List.Pairwise.nil, by simp⟩

theorem ordered_addAt {c : Curvature α} (hc : c.Ordered) {key : ℕ × ℕ}
    (hkey : key.1 ≤ key.2) (v : α) : (addAt key v c).Ordered := by
  constructor
  · have hrising := hc.rising
    clear hc
    induction c with
    | nil => simp [addAt]
    | cons e rest ih =>
      obtain ⟨l, x⟩ := e
      obtain ⟨hlt, hrest⟩ := List.pairwise_cons.mp hrising
      rw [addAt]
      by_cases heq : l = key
      · rw [if_pos (by simpa using heq)]
        exact List.pairwise_cons.mpr ⟨hlt, hrest⟩
      · rw [if_neg (by simpa using heq)]
        by_cases hbefore : pairLt key l
        · rw [if_pos hbefore]
          refine List.pairwise_cons.mpr ⟨?_, hrising⟩
          intro e he
          rcases List.mem_cons.mp he with rfl | he
          · exact hbefore
          · exact pairLt_trans hbefore (hlt e he)
        -- The addition goes further on, and leaves only pairs after `l` there.
        · rw [if_neg hbefore]
          refine List.pairwise_cons.mpr ⟨?_, ih hrest⟩
          rintro ⟨k, y⟩ he
          obtain rfl | ⟨z, hz⟩ := mem_addAt he
          · exact pairLt_of_not heq hbefore
          · exact hlt (k, z) hz
  · rintro ⟨k, x⟩ he
    obtain rfl | ⟨y, hy⟩ := mem_addAt he
    · exact hkey
    · exact hc.ordered (k, y) hy

/-! ## Bumps -/

theorem ordered_bump {c : Curvature α} (hc : c.Ordered) (i j : ℕ) (v : α) :
    (c.bump i j v).Ordered := by
  unfold bump
  split
  · exact hc
  · exact ordered_addAt hc (by simp) v

/-- A bump changes one entry, read with its indices in either order. -/
theorem entry_bump {c : Curvature ℝ} (hc : c.Ordered) (i j a b : ℕ) (v : ℝ) :
    (c.bump i j v).entry a b =
      c.entry a b + if (min a b, max a b) = (min i j, max i j) then v else 0 := by
  unfold bump
  by_cases hv : v = 0
  · simp [hv]
  · rw [if_neg (by simpa using hv)]
    exact coefficient_addAt hc _ _ v

/-- Bump by each item of a list in turn. -/
def bumps {α : Type} [Scalar α] (c : Curvature α) (items : List (ℕ × ℕ × α)) : Curvature α :=
  items.foldl (fun acc e => acc.bump e.1 e.2.1 e.2.2) c

theorem ordered_bumps {c : Curvature α} (hc : c.Ordered) (items : List (ℕ × ℕ × α)) :
    (bumps c items).Ordered := by
  induction items generalizing c with
  | nil => exact hc
  | cons e items ih => exact ih (ordered_bump hc _ _ _)

/-- The entry after a list of bumps is the sum of what the list holds for it. -/
theorem entry_bumps {c : Curvature ℝ} (hc : c.Ordered) (items : List (ℕ × ℕ × ℝ)) (a b : ℕ) :
    (bumps c items).entry a b = c.entry a b +
      (items.map fun e =>
        if (min a b, max a b) = (min e.1 e.2.1, max e.1 e.2.1) then e.2.2 else 0).sum := by
  induction items generalizing c with
  | nil => simp [bumps]
  | cons e items ih =>
    have hstep : bumps c (e :: items) = bumps (c.bump e.1 e.2.1 e.2.2) items := rfl
    rw [hstep, ih (ordered_bump hc _ _ _), entry_bump hc, List.map_cons, List.sum_cons, add_assoc]

/-- Summed over an ordered curvature, the items of one pair are its entry. -/
theorem sum_entries {c : Curvature ℝ} (hc : c.Ordered) (f : ℝ → ℝ) (hf : f 0 = 0) (a b : ℕ) :
    (c.map fun e =>
      if (min a b, max a b) = (min e.1.1 e.1.2, max e.1.1 e.1.2) then f e.2 else 0).sum =
      f (c.entry a b) := by
  induction c with
  | nil => simp [entry, hf]
  | cons e rest ih =>
    obtain ⟨⟨i, j⟩, x⟩ := e
    obtain ⟨hlt, hrest⟩ := List.pairwise_cons.mp hc.rising
    have hij : i ≤ j := hc.ordered _ List.mem_cons_self
    have hentry := coefficient_cons (min a b, max a b) (i, j) x rest
    change entry _ _ _ = _ at hentry
    rw [List.map_cons, List.sum_cons, hentry,
      ih ⟨hrest, fun e he => hc.ordered e (List.mem_cons_of_mem _ he)⟩]
    rw [min_eq_left hij, max_eq_right hij]
    by_cases h : (min a b, max a b) = (i, j)
    · have habsent : entry rest a b = 0 := by
        show coefficient rest (min a b, max a b) = 0
        rw [h]
        exact coefficient_eq_zero hlt
      -- The pairs rise, so no other item is for this one.
      rw [if_pos h, if_pos h, habsent, hf, add_zero]
    · rw [if_neg h, if_neg h, zero_add]
      rfl

theorem bumpAll_eq_bumps (c d : Curvature α) (f : α → α) :
    c.bumpAll d f = bumps c (d.map fun e => (e.1.1, e.1.2, f e.2)) := by
  unfold bumpAll bumps
  rw [List.foldl_map]

theorem ordered_bumpAll {c : Curvature α} (hc : c.Ordered) (d : Curvature α) (f : α → α) :
    (c.bumpAll d f).Ordered := by
  rw [bumpAll_eq_bumps]
  exact ordered_bumps hc _

theorem entry_bumpAll {c d : Curvature ℝ} (hc : c.Ordered) (hd : d.Ordered) (f : ℝ → ℝ)
    (hf : f 0 = 0) (a b : ℕ) :
    (c.bumpAll d f).entry a b = c.entry a b + f (d.entry a b) := by
  rw [bumpAll_eq_bumps, entry_bumps hc, List.map_map, ← sum_entries hd f hf]
  rfl

omit [Scalar α] in
/-- A map of the values keeps the pairs. -/
theorem ordered_mapValues {c : Curvature α} (hc : c.Ordered) (f : α → α) :
    Ordered (c.map fun (k, v) => (k, f v)) := by
  constructor
  · rw [List.pairwise_map]
    exact hc.rising
  · intro e he
    obtain ⟨e', he', rfl⟩ := List.mem_map.mp he
    exact hc.ordered e' he'

theorem entry_mapValues (c : Curvature ℝ) (f : ℝ → ℝ) (hf : f 0 = 0) (a b : ℕ) :
    entry (c.map fun (k, v) => (k, f v)) a b = f (c.entry a b) := by
  show coefficient _ (min a b, max a b) = f (coefficient c (min a b, max a b))
  induction c with
  | nil => simp [coefficient, hf]
  | cons e rest ih =>
    obtain ⟨l, x⟩ := e
    rw [List.map_cons, coefficient_cons, coefficient_cons, ih, apply_ite f]

/-! ## Gradients -/

/-- A sum over the nonzero slopes, numbered from `k`. -/
theorem sum_nonzero_from (g : List ℝ) (F : ℕ → ℝ → ℝ) (hF : ∀ i, F i 0 = 0) (k : ℕ) :
    ((((g.zipIdx k).map fun (x, i) => (i, x)).filter fun (_, x) => !(x == 0)).map
      fun e => F e.1 e.2).sum = ∑ i ∈ Finset.range g.length, F (k + i) (g.getD i 0) := by
  induction g generalizing k with
  | nil => simp
  | cons x g ih =>
    rw [List.length_cons, Finset.sum_range_succ']
    have hrest : ∑ i ∈ Finset.range g.length, F (k + (i + 1)) ((x :: g).getD (i + 1) 0) =
        ∑ i ∈ Finset.range g.length, F (k + 1 + i) (g.getD i 0) := by
      refine Finset.sum_congr rfl fun i _ => ?_
      rw [List.getD_cons_succ, add_comm i 1, ← add_assoc]
    rw [hrest, ← ih (k + 1)]
    by_cases hx : x = 0
    · simp [hx, hF]
    · simp [hx, add_comm]

/-- A sum over the nonzero slopes is a sum over all slopes. -/
theorem sum_nonzero (g : List ℝ) (F : ℕ → ℝ → ℝ) (hF : ∀ i, F i 0 = 0) :
    ((Derivatives.nonzero g).map fun e => F e.1 e.2).sum =
      ∑ i ∈ Finset.range g.length, F i (g.getD i 0) := by
  have h := sum_nonzero_from g F hF 0
  simp only [zero_add] at h
  exact h

/-- A sum that picks one index. -/
theorem sum_range_pick (g : List ℝ) (F : ℝ → ℝ) (hF : F 0 = 0) (a : ℕ) :
    (∑ i ∈ Finset.range g.length, if i = a then F (g.getD i 0) else 0) = F (g.getD a 0) := by
  rw [Finset.sum_ite_eq' (Finset.range g.length) a fun i => F (g.getD i 0)]
  by_cases ha : a < g.length
  · rw [if_pos (Finset.mem_range.mpr ha)]
  · rw [if_neg (by simpa using ha), List.getD_eq_getElem?_getD,
      List.getElem?_eq_none (by omega), Option.getD_none, hF]

end Proofs

end CircuitGrad
