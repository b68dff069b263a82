import Mathlib
import CircuitGrad.Operation
import CircuitGrad.Proofs.ShiftExactness

/-! # Rules that give all derivatives

    A gate whose generator has two eigenvalues is differentiated by the
    two-term rule of their gap.  The eigenvalues are listed in any order and
    any number of times; those that lie within a tolerance count as one, and
    where different ones lie further apart than that, what is left is each of
    them once (`distinct_of_separated`).

    The functions that a rule is made for are closed under differentiation, so
    that the rule, applied to what it gave the time before, gives the
    derivatives of every order (`derives_of_closed`).  This covers the two-term
    rule and the four-term rule of the controlled rotations
    (`shift_rules_derive`).
-/

namespace CircuitGrad

/-- The values in the list of eigenvalues are two, and the tolerance tells them apart. -/
structure Generator.TwoLevel (g : Generator ℝ) (p q : ℝ) : Prop where
  levels : ∀ e, e ∈ g.eigenvalues ↔ e = p ∨ e = q
  apart  : 1e-12 ≤ |p - q|

/-- A gate with one parameter and no rule of its own, which is differentiated by the rule of the
    generator. -/
structure Operation.GeneratedBy (op : Operation ℝ) (g : Generator ℝ) : Prop where
  method    : op.spec.gradMethod = .analytic
  noRule    : op.spec.rule = none
  single    : op.params.length = 1
  generator : op.spec.generator = some g

/-- The rule applied a number of times, each time to the function that it gave
    the time before. -/
def ShiftRule.nested {α : Type} [Scalar α] (rule : ShiftRule α) (f : α → α) : ℕ → α → α
  | 0 => f
  | k + 1 => fun x => rule.apply x (rule.nested f k)

/-- The rule gives the derivative of a function, and nested those of higher order. -/
structure ShiftRule.Derives (rule : ShiftRule ℝ) (f : ℝ → ℝ) : Prop where
  first  : ∀ x, HasDerivAt f (rule.apply x f) x
  higher : ∀ k, rule.nested f k = iteratedDeriv k f

namespace Proofs

/-! ## Distinct eigenvalues -/

section Distinct

variable {acc values : List ℝ} {e : ℝ} {g : Generator ℝ} {p q : ℝ}

/-- Values that differ lie at least the tolerance apart. -/
def Separated (values : List ℝ) : Prop := ∀ a ∈ values, ∀ b ∈ values, a ≠ b → 1e-12 ≤ |a - b|

theorem Separated.mono {xs ys : List ℝ} (h : Separated ys) (hsub : xs ⊆ ys) : Separated xs :=
  fun a ha b hb => h a (hsub ha) b (hsub hb)

/-- Among separated values, only a value itself lies close to it. -/
theorem any_close_iff (h : Separated (acc ++ [e])) :
    (acc.any fun d => Scalar.lt (Scalar.abs (d - e)) 1e-12) = true ↔ e ∈ acc := by
  rw [List.any_eq_true]
  constructor
  · rintro ⟨d, hd, hclose⟩
    have hclose : |d - e| < 1e-12 := of_decide_eq_true hclose
    by_contra hnew
    have hne : d ≠ e := fun heq => hnew (heq ▸ hd)
    have hfar := h d (List.mem_append_left _ hd) e (by simp) hne
    linarith
  · intro he
    refine ⟨e, he, decide_eq_true ?_⟩
    show |e - e| < 1e-12
    norm_num

/-- Of separated values each is kept once. -/
theorem foldl_distinct (hacc : acc.Nodup) (h : Separated (acc ++ values)) :
    let kept := values.foldl (fun acc e =>
      if acc.any fun d => Scalar.lt (Scalar.abs (d - e)) 1e-12 then acc else acc ++ [e]) acc
    kept.Nodup ∧ ∀ e, e ∈ kept ↔ e ∈ acc ∨ e ∈ values := by
  -- What is kept so far comes from the list, and so stays separated from the rest of it.
  induction values generalizing acc with
  | nil => exact ⟨hacc, by simp⟩
  | cons first rest ih =>
    have hclose := any_close_iff (h.mono (by simp) : Separated (acc ++ [first]))
    rw [List.foldl_cons]
    by_cases hmem : first ∈ acc
    · rw [if_pos (hclose.mpr hmem)]
      obtain ⟨hnodup, hall⟩ := ih hacc (h.mono (by simp))
      refine ⟨hnodup, fun e => (hall e).trans ?_⟩
      rw [List.mem_cons]
      constructor
      · exact Or.imp_right .inr
      · rintro (he | rfl | he)
        exacts [.inl he, .inl hmem, .inr he]
    · rw [if_neg (mt hclose.mp hmem)]
      have hnew : (acc ++ [first]).Nodup := List.nodup_append.mpr ⟨hacc, by simp, by
        rintro a ha b hb rfl
        exact hmem (List.mem_singleton.mp hb ▸ ha)⟩
      obtain ⟨hnodup, hall⟩ := ih hnew (h.mono (by simp))
      refine ⟨hnodup, fun e => (hall e).trans ?_⟩
      rw [List.mem_append, List.mem_singleton, List.mem_cons, or_assoc]

theorem distinct_of_separated (h : Separated g.eigenvalues) :
    g.distinct.Nodup ∧ ∀ e, e ∈ g.distinct ↔ e ∈ g.eigenvalues := by
  obtain ⟨hnodup, hall⟩ := foldl_distinct List.nodup_nil (by simpa using h)
  exact ⟨hnodup, fun e => (hall e).trans (by simp)⟩

/-- Two values are separated if they lie the tolerance apart. -/
theorem separated_of_twoLevel (h : g.TwoLevel p q) : Separated g.eigenvalues := by
  intro a ha b hb hne
  rcases (h.levels a).mp ha with rfl | rfl <;> rcases (h.levels b).mp hb with rfl | rfl
  · exact absurd rfl hne
  · exact h.apart
  · rw [abs_sub_comm]
    exact h.apart
  · exact absurd rfl hne

theorem ne_of_twoLevel (h : g.TwoLevel p q) : p ≠ q := by
  rintro rfl
  have hapart := h.apart
  norm_num at hapart

/-- Two values are left, in one order or the other, and the half gap is theirs. -/
theorem halfGap_of_twoLevel (h : g.TwoLevel p q) : g.halfGap? = some (|p - q| / 2) := by
  obtain ⟨hnodup, hall⟩ := distinct_of_separated (separated_of_twoLevel h)
  have hperm : g.distinct.Perm [p, q] := by
    refine (List.perm_ext_iff_of_nodup hnodup (by simpa using ne_of_twoLevel h)).mpr fun e => ?_
    rw [hall, h.levels, List.mem_pair]
  have htwo : (2.0 : ℝ) = 2 := by norm_num
  unfold Generator.halfGap?
  rcases List.perm_pair.mp hperm with heq | heq <;> rw [heq]
  · exact congrArg (fun half => some (|p - q| / half)) htwo
  · rw [abs_sub_comm p q]
    exact congrArg (fun half => some (|q - p| / half)) htwo

end Distinct

/-! ## Nested rules -/

section Nested

variable {rule : ShiftRule ℝ} {f : ℝ → ℝ}

/-- A rule that gives the derivatives of a family of functions, which lie in the family again,
    gives the derivatives of every order. -/
theorem derives_of_closed {family : Set (ℝ → ℝ)} (hf : f ∈ family)
    (hrule : ∀ f ∈ family, ∀ x, HasDerivAt f (rule.apply x f) x)
    (hclosed : ∀ f ∈ family, (fun x => rule.apply x f) ∈ family) : rule.Derives f := by
  have hnested : ∀ k, rule.nested f k ∈ family ∧ rule.nested f k = iteratedDeriv k f := by
    intro k
    induction k with
    | zero => exact ⟨hf, iteratedDeriv_zero.symm⟩
    | succ k ih =>
      obtain ⟨hmem, heq⟩ := ih
      refine ⟨hclosed _ hmem, ?_⟩
      rw [iteratedDeriv_succ, ← heq]
      exact funext fun x => (hrule _ hmem x).deriv.symm
  exact ⟨hrule f hf, fun k => (hnested k).2⟩

/-- The two-term rule of a gap is made for its frequency. -/
theorem twoTerm_derives {gap : ℝ} (hgap : gap ≠ 0) (a b c : ℝ) :
    (ShiftRule.twoTerm (gap / 2)).Derives (sinusoid gap a b c) := by
  have hmem : sinusoid gap a b c ∈ {f | ∃ a b c, f = sinusoid gap a b c} := ⟨a, b, c, rfl⟩
  refine derives_of_closed hmem ?_ ?_
  · rintro _ ⟨a, b, c, rfl⟩ x
    rw [twoTerm_sinusoid hgap]
    exact hasDerivAt_sinusoid gap a b c x
  · rintro _ ⟨a, b, c, rfl⟩
    exact ⟨_, _, _, funext fun x => twoTerm_sinusoid hgap a b c x⟩

/-- The four-term rule is made for the frequencies one and one half. -/
theorem fourTerm_derives (a b c d e : ℝ) : ShiftRule.fourTerm.Derives (harmonic a b c d e) := by
  have hmem : harmonic a b c d e ∈ {f | ∃ a b c d e, f = harmonic a b c d e} :=
    ⟨a, b, c, d, e, rfl⟩
  refine derives_of_closed hmem ?_ ?_
  · rintro _ ⟨a, b, c, d, e, rfl⟩ x
    exact fourTerm_exact a b c d e x
  · rintro _ ⟨a, b, c, d, e, rfl⟩
    refine ⟨0, c, -b, e / 2, -(d / 2), funext fun x => ?_⟩
    rw [(fourTerm_exact a b c d e x).unique (hasDerivAt_harmonic a b c d e x)]
    unfold harmonic
    ring

end Nested

theorem shiftRule_of_generator {op : Operation ℝ} {g : Generator ℝ} (h : op.GeneratedBy g) :
    op.shiftRule? 0 = g.halfGap?.map ShiftRule.twoTerm := by
  have hanalytic : ¬(op.spec.gradMethod ≠ .analytic || 0 ≥ op.params.length) = true := by
    simp [h.method, h.single]
  unfold Operation.shiftRule?
  rw [if_neg hanalytic, h.noRule]
  show (if op.params.length = 1 then
    (op.spec.generator.bind (·.halfGap?)).map ShiftRule.twoTerm else none) = _
  rw [if_pos h.single, h.generator, Option.bind_some]

/-- A gate with one parameter whose generator has two eigenvalues has a shift rule, and this rule
    gives all derivatives of the functions that oscillate with the gap.  The four-term rule does so
    for those that oscillate with the frequencies one and one half. -/
theorem shift_rules_derive :
    (∀ (op : Operation ℝ) g p q, op.GeneratedBy g → g.TwoLevel p q →
      ∃ rule, op.shiftRule? 0 = some rule ∧ ∀ a b c, rule.Derives fun t =>
        a + b * Real.cos (|p - q| * t) + c * Real.sin (|p - q| * t)) ∧
    ∀ a b c d e, ShiftRule.fourTerm.Derives fun t => a + b * Real.cos t + c * Real.sin t +
      d * Real.cos (t / 2) + e * Real.sin (t / 2) := by
  refine ⟨fun op g p q hgenerated hlevels => ?_, fourTerm_derives⟩
  have hgap : |p - q| ≠ 0 := abs_ne_zero.mpr (sub_ne_zero.mpr (ne_of_twoLevel hlevels))
  refine ⟨.twoTerm (|p - q| / 2), ?_, fun a b c => twoTerm_derives hgap a b c⟩
  rw [shiftRule_of_generator hgenerated, halfGap_of_twoLevel hlevels]
  rfl

/-- Two eigenvalues three apart, listed several times each. -/
noncomputable def threefold : Operation ℝ :=
  ⟨{ name := "threefold", generator := some ⟨[2, -1, 2, -1, -1], false⟩, gradMethod := .analytic },
    [.constant 1], [0]⟩

/-- The derivatives of second order of a threefold frequency, and of one half. -/
theorem shift_rules_derive_threefold : ∃ rule, threefold.shiftRule? 0 = some rule ∧
    rule.nested (fun t => Real.cos (3 * t)) 2 = iteratedDeriv 2 (fun t => Real.cos (3 * t)) ∧
    ShiftRule.fourTerm.nested (fun t => Real.sin (t / 2)) 2 =
      iteratedDeriv 2 fun t => Real.sin (t / 2) := by
  have hlevels : Generator.TwoLevel ⟨[2, -1, 2, -1, -1], false⟩ 2 (-1) := by
    refine ⟨fun e => ?_, by norm_num⟩
    simp only [List.mem_cons, List.not_mem_nil, or_false]
    tauto
  have hgenerated : threefold.GeneratedBy ⟨[2, -1, 2, -1, -1], false⟩ := ⟨rfl, rfl, rfl, rfl⟩
  obtain ⟨hgenerator, hfourTerm⟩ := shift_rules_derive
  obtain ⟨rule, hrule, hderives⟩ := hgenerator threefold _ 2 (-1) hgenerated hlevels
  have hgap : |(2 : ℝ) - -1| = 3 := by norm_num
  rw [hgap] at hderives
  refine ⟨rule, hrule, ?_, ?_⟩
  · simpa using (hderives 0 1 0).higher 2
  · simpa using (hfourTerm 0 0 0 0 1).higher 2

end Proofs

end CircuitGrad
