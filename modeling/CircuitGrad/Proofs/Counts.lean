import Mathlib.Algebra.BigOperators.Group.List.Basic
import Mathlib.Algebra.Order.Ring.Nat
import Mathlib.Data.List.Induction
import CircuitGrad.Count
import CircuitGrad.Proofs.Steps

/-! # Counts that fit

    When arithmetic on words goes through.  A checked computation is described
    by the exact number that it is to give and the condition under which it
    gives it, and stops everywhere else (`StopsUnless`); the conditions of
    two steps in a row are put together by `StopsUnless.bind`.

    Adding numbers only grows, so a sum goes through if it fits at the end
    (`stopsUnless_sum`).  A product does not: a factor of zero comes too late
    for an overflow before it, so all prefixes have to fit
    (`stopsUnless_product`).
-/

namespace CircuitGrad

variable {β γ : Type}

/-- The computation gives a result under a condition, and stops everywhere else. -/
structure StopsUnless (P : Prop) (x : Except Error β) (r : β) : Prop where
  goes  : P → x = .ok r
  stops : ¬ P → x = .error .overflow

/-- No product of the first few numbers is too large for a word. -/
def Count.Fits (counts : List ℕ) : Prop :=
  ∀ k ≤ counts.length, (counts.take k).prod < 2 ^ (64 : ℕ)

/-! ## Steps in a row -/

namespace StopsUnless

variable {P Q : Prop} {x y : Except Error β} {f : β → Except Error γ} {a : β} {r : γ}

theorem always (a : β) : StopsUnless True (.ok a) a :=
  ⟨fun _ => rfl, fun h => absurd trivial h⟩

theorem congr (h : StopsUnless P x a) (hPQ : P ↔ Q) : StopsUnless Q x a :=
  ⟨fun hQ => h.goes (hPQ.mpr hQ), fun hQ => h.stops (mt hPQ.mp hQ)⟩

theorem of_eq (h : StopsUnless P x a) (hyx : y = x) : StopsUnless P y a := hyx ▸ h

/-- Two steps go through if the first does and then the second. -/
theorem bind (hx : StopsUnless P x a) (hf : P → StopsUnless Q (f a) r) :
    StopsUnless (P ∧ Q) (x >>= f) r := by
  by_cases hP : P
  · rw [hx.goes hP, Proofs.ok_bind]
    exact (hf hP).congr (and_iff_right hP).symm
  · rw [hx.stops hP, Proofs.error_bind]
    exact ⟨fun h => absurd h.1 hP, fun _ => rfl⟩

/-- A check before a step that always goes through. -/
theorem then_ok (hx : StopsUnless P x a) (hf : f a = .ok r) : StopsUnless P (x >>= f) r :=
  (hx.bind fun _ => hf ▸ always r).congr (and_iff_left trivial)

/-- The same condition for every item of a list that is not empty. -/
theorem mapM {step : β → Except Error γ} {xs : List β} {ys : List γ} (hne : xs ≠ [])
    (h : List.Forall₂ (fun x y => StopsUnless P (step x) y) xs ys) :
    StopsUnless P (xs.mapM step) ys := by
  constructor
  · intro hP
    exact Proofs.mapM_of_forall₂ (h.imp fun _ _ hown => hown.goes hP)
  · intro hP
    obtain ⟨first, rest, rfl⟩ := List.exists_cons_of_ne_nil hne
    obtain ⟨_, _, hfirst, -, rfl⟩ := List.forall₂_cons_left_iff.mp h
    rw [List.mapM_cons, hfirst.stops hP, Proofs.error_bind]

end StopsUnless

instance (counts : List ℕ) : Decidable (Count.Fits counts) :=
  inferInstanceAs (Decidable (∀ k ≤ counts.length, (counts.take k).prod < 2 ^ (64 : ℕ)))

namespace Proofs

/-! ## Words, memory and sums -/

theorem stopsUnless_word (n : ℕ) : StopsUnless (n < 2 ^ (64 : ℕ)) (Count.word n) n :=
  ⟨fun h => if_pos h, fun h => if_neg h⟩

theorem stopsUnless_mul (a b : ℕ) :
    StopsUnless (a * b < 2 ^ (64 : ℕ)) (Count.mul a b) (a * b) :=
  stopsUnless_word (a * b)

theorem stopsUnless_room (count bytes : ℕ) :
    StopsUnless (count * bytes < 2 ^ (63 : ℕ)) (Count.room count bytes) () :=
  ⟨fun h => if_pos h, fun h => if_neg h⟩

/-- What fits the memory can be counted. -/
theorem lt_word_of_room {count bytes : ℕ} (hbytes : 0 < bytes)
    (h : count * bytes < 2 ^ (63 : ℕ)) : count < 2 ^ (64 : ℕ) := by
  have hle : count ≤ count * bytes := Nat.le_mul_of_pos_right count hbytes
  omega

section Sums

variable {measure : β → Except Error ℕ} {size : β → ℕ}

/-- A sum goes on from what has been added so far. -/
theorem stopsUnless_foldlM_add
    (h : ∀ x, StopsUnless (size x < 2 ^ (64 : ℕ)) (measure x) (size x)) (items : List β) {acc : ℕ}
    (hacc : acc < 2 ^ (64 : ℕ)) :
    StopsUnless (acc + (items.map size).sum < 2 ^ (64 : ℕ))
      (items.foldlM (fun acc x => do Count.add acc (← measure x)) acc)
      (acc + (items.map size).sum) := by
  induction items generalizing acc with
  | nil => exact (StopsUnless.always acc).congr (iff_of_true trivial hacc)
  | cons x items ih =>
    rw [List.foldlM_cons, List.map_cons, List.sum_cons, ← Nat.add_assoc]
    have hstep : StopsUnless (size x < 2 ^ (64 : ℕ) ∧ acc + size x < 2 ^ (64 : ℕ))
        (measure x >>= Count.add acc) (acc + size x) :=
      (h x).bind fun _ => stopsUnless_word (acc + size x)
    -- What follows makes the sum no smaller.
    exact (hstep.bind fun hfits => ih hfits.2).congr (by omega)

/-- A sum goes through if it fits at the end. -/
theorem stopsUnless_sum
    (h : ∀ x, StopsUnless (size x < 2 ^ (64 : ℕ)) (measure x) (size x)) (items : List β) :
    StopsUnless ((items.map size).sum < 2 ^ (64 : ℕ)) (Count.sum measure items)
      (items.map size).sum := by
  have hsum := stopsUnless_foldlM_add h items (Nat.two_pow_pos 64)
  rwa [Nat.zero_add] at hsum

end Sums

/-! ## Products -/

section Products

variable {counts more : List ℕ}

/-- A product goes on from what has been multiplied so far. -/
theorem stopsUnless_foldlM_mul (counts : List ℕ) {acc : ℕ} (hacc : acc < 2 ^ (64 : ℕ)) :
    StopsUnless (∀ k ≤ counts.length, acc * (counts.take k).prod < 2 ^ (64 : ℕ))
      (counts.foldlM Count.mul acc) (acc * counts.prod) := by
  induction counts generalizing acc with
  | nil =>
    rw [List.prod_nil, Nat.mul_one]
    exact (StopsUnless.always acc).congr (iff_of_true trivial fun k _ => by simpa using hacc)
  | cons d counts ih =>
    rw [List.foldlM_cons, List.prod_cons, ← Nat.mul_assoc]
    refine ((stopsUnless_mul acc d).bind fun hfits => ih hfits).congr ⟨?_, fun h => ⟨?_, ?_⟩⟩
    · rintro ⟨-, hrest⟩ k hk
      cases k with
      | zero => simpa using hacc
      | succ k =>
        rw [List.take_succ_cons, List.prod_cons, ← Nat.mul_assoc]
        exact hrest k (Nat.le_of_succ_le_succ hk)
    · simpa using h 1 (Nat.le_add_left 1 counts.length)
    · intro k hk
      have hlater := h (k + 1) (Nat.succ_le_succ hk)
      rwa [List.take_succ_cons, List.prod_cons, ← Nat.mul_assoc] at hlater

/-- A product goes through if all its prefixes fit. -/
theorem stopsUnless_product (counts : List ℕ) :
    StopsUnless (Count.Fits counts) (Count.product counts) counts.prod := by
  have hproduct := stopsUnless_foldlM_mul counts (Nat.one_lt_two_pow (by decide : 64 ≠ 0))
  simp only [Nat.one_mul] at hproduct
  exact hproduct

/-- One more number fits if the whole product does. -/
theorem fits_concat {n : ℕ} :
    Count.Fits (counts ++ [n]) ↔ Count.Fits counts ∧ counts.prod * n < 2 ^ (64 : ℕ) := by
  constructor
  · intro h
    refine ⟨fun k hk => ?_, ?_⟩
    · have hprefix := h k (by simp; omega)
      rwa [List.take_append_of_le_length hk] at hprefix
    · have hall := h (counts.length + 1) (by simp)
      rwa [List.take_of_length_le (by simp), List.prod_append, List.prod_singleton] at hall
  · rintro ⟨hcounts, hall⟩ k hk
    rw [List.length_append, List.length_singleton] at hk
    rcases Nat.lt_or_ge counts.length k with hlast | hinside
    · rwa [List.take_of_length_le (by simp; omega), List.prod_append, List.prod_singleton]
    · rw [List.take_append_of_le_length hinside]
      exact hcounts k hinside

/-- Positive numbers behind those that fit only have to fit at the end. -/
theorem fits_append (hpos : 0 < more.prod) :
    Count.Fits (counts ++ more) ↔ Count.Fits counts ∧ (counts ++ more).prod < 2 ^ (64 : ℕ) := by
  induction more using List.reverseRecOn with
  | nil =>
    rw [List.append_nil]
    refine (and_iff_left_of_imp fun h => ?_).symm
    have hall := h counts.length le_rfl
    rwa [List.take_length] at hall
  | append_singleton more n ih =>
    rw [List.prod_append, List.prod_singleton] at hpos
    have hn : 0 < n := Nat.pos_of_mul_pos_left hpos
    have hle : (counts ++ more).prod ≤ (counts ++ more).prod * n := Nat.le_mul_of_pos_right _ hn
    have hlast : (counts ++ more ++ [n]).prod = (counts ++ more).prod * n := by
      rw [List.prod_append, List.prod_singleton]
    rw [← List.append_assoc, fits_concat, ih (Nat.pos_of_mul_pos_right hpos), hlast]
    exact ⟨fun h => ⟨h.1.1, h.2⟩, fun h => ⟨⟨h.1, hle.trans_lt h.2⟩, h.2⟩⟩

theorem fits_of_pos (hpos : 0 < more.prod) : Count.Fits more ↔ more.prod < 2 ^ (64 : ℕ) := by
  have h := @fits_append [] more hpos
  rw [List.nil_append] at h
  exact h.trans (and_iff_right fun k _ => by simp)

end Products

end Proofs

end CircuitGrad
