import CircuitGrad.Proofs.JetFlags
import CircuitGrad.Proofs.Steps

/-! # Jets that follow changes of the inputs

    When the inputs change, an affine jet moves by its slopes times the
    changes and keeps its derivatives, and a constant one stays as it is.
    Every operation keeps this relation between the jets of an expression at
    two points (`Follows.eval`): flags do not depend on values, and where a
    jet is affine nothing else does.
-/

namespace CircuitGrad

/-- The expression forgets no derivatives. -/
def Expression.Unfrozen {ι : Type} : Expression ι → Prop
  | .leaf _ => True
  | .unary f x => f ≠ .frozen ∧ x.Unfrozen
  | .power x _ => x.Unfrozen
  | .binary _ x y => x.Unfrozen ∧ y.Unfrozen

/-- How far an affine jet moves when the inputs change. -/
noncomputable def Jet.drift (x : Jet ℝ) (changes : List ℝ) : ℝ :=
  Scalar.sum (changes.zipIdx.map fun (d, i) => x.slope i * d)

/-- The jet `y` has the flags of `x`, and where `x` is affine it is `x` moved by the
    changes of the inputs. -/
structure Jet.Follows (changes : List ℝ) (x y : Jet ℝ) : Prop where
  constant : y.isConstant = x.isConstant
  affine   : y.isAffine = x.isAffine
  moved    : x.isAffine → y = x.withValue (x.value + x.drift changes)

namespace Proofs

variable {changes : List ℝ} {x y z w : Jet ℝ}

/-! ## Drift -/

theorem drift_eq (x : Jet ℝ) (changes : List ℝ) :
    x.drift changes = (changes.zipIdx.map fun e => x.slope e.2 * e.1).sum :=
  sum_eq_sum _

theorem drift_of_slopes (h : ∀ i, x.slope i = 0) : x.drift changes = 0 := by
  rw [drift_eq]
  simp [h]

theorem drift_of_constant (h : x.isConstant) : x.drift changes = 0 := by
  refine drift_of_slopes fun i => ?_
  rcases x with ⟨v, _ | d⟩
  · exact slope_constant v i
  · cases h

theorem drift_scale (x : Jet ℝ) (k : ℝ) : (x.scale k).drift changes = x.drift changes * k := by
  rw [drift_eq, drift_eq, ← List.sum_map_mul_right]
  refine congrArg List.sum (List.map_congr_left fun e _ => ?_)
  rw [slope_scale]
  ring

theorem drift_add (x y : Jet ℝ) :
    (x.add y).drift changes = x.drift changes + y.drift changes := by
  rw [drift_eq, drift_eq, drift_eq, ← List.sum_map_add]
  refine congrArg List.sum (List.map_congr_left fun e _ => ?_)
  rw [slope_add]
  ring

/-- Only the own input counts, wherever the changes are counted from. -/
theorem sum_single (changes : List ℝ) (start k : ℕ) :
    ((changes.zipIdx start).map fun e => (if e.2 = start + k then 1 else 0) * e.1).sum =
      changes.getD k 0 := by
  induction changes generalizing start k with
  | nil => simp
  | cons d changes ih =>
    rw [List.zipIdx_cons, List.map_cons, List.sum_cons]
    cases k with
    | zero =>
      -- All other changes are of later inputs.
      have hrest : ((changes.zipIdx (start + 1)).map fun e =>
          (if e.2 = start + 0 then (1 : ℝ) else 0) * e.1).sum = 0 := by
        refine List.sum_eq_zero fun s hs => ?_
        obtain ⟨e, he, rfl⟩ := List.mem_map.mp hs
        have hlate := List.le_snd_of_mem_zipIdx he
        rw [if_neg (by omega), zero_mul]
      rw [hrest]
      simp
    | succ k =>
      have hnext := ih (start + 1) k
      rw [show start + 1 + k = start + (k + 1) by omega] at hnext
      rw [hnext]
      simp

/-- An input drifts by its own change. -/
theorem drift_seed {k n : ℕ} (hk : k < n) (v : ℝ) (secondOrder : Bool) :
    (Jet.seed v k n secondOrder).drift changes = changes.getD k 0 := by
  have hslope : ∀ i, (Jet.seed v k n secondOrder).slope i = if i = 0 + k then 1 else 0 := by
    intro i
    have h : (Jet.seed v k n secondOrder).slope i =
        ((List.range n).map fun i => if i == k then (1 : ℝ) else 0).getD i 0 := rfl
    rw [h, List.getD_eq_getElem?_getD, List.getElem?_map]
    by_cases hi : i < n
    · simp [hi]
    · have hne : i ≠ k := by omega
      simp [hi, hne]
  rw [drift_eq, ← sum_single changes 0 k]
  refine congrArg List.sum (List.map_congr_left fun e _ => ?_)
  rw [hslope]

end Proofs

namespace Jet.Follows

open Proofs

variable {changes : List ℝ} {x y z w : Jet ℝ}

theorem affine_of_constant (h : x.isConstant) : x.isAffine := by
  rcases x with ⟨v, _ | d⟩
  · rfl
  · cases h

/-- Constants stay as they are. -/
theorem eq_of_constant (h : x.Follows changes y) (hx : x.isConstant) : y = x := by
  rw [h.moved (affine_of_constant hx), drift_of_constant hx, add_zero]
  rfl

/-- What does not drift follows any changes. -/
theorem refl (h : x.drift changes = 0) : x.Follows changes x := by
  refine ⟨rfl, rfl, fun _ => ?_⟩
  rw [h, add_zero]
  rfl

theorem of_constant (h : x.isConstant) : x.Follows changes x := refl (drift_of_constant h)

/-- A seed follows the change of its input. -/
theorem seed {k n : ℕ} (hk : k < n) (v : ℝ) (secondOrder : Bool) :
    (Jet.seed v k n secondOrder).Follows changes
      (.seed (v + changes.getD k 0) k n secondOrder) := by
  refine ⟨rfl, rfl, fun _ => ?_⟩
  rw [drift_seed hk]
  rfl

/-- After the chain rule only constants are affine. -/
theorem chain (h : x.Follows changes y) (op : Jet ℝ → Jet ℝ)
    (hop : ∀ x, ∃ f0 f1 f2, op x = x.chain f0 f1 f2) : (op x).Follows changes (op y) := by
  obtain ⟨f0, f1, f2, hx⟩ := hop x
  obtain ⟨g0, g1, g2, hy⟩ := hop y
  refine ⟨?_, ?_, fun haffine => ?_⟩
  · rw [hx, hy, isConstant_chain, isConstant_chain, h.constant]
  · rw [hx, hy, isAffine_chain, isAffine_chain, h.constant]
  · rw [hx, isAffine_chain] at haffine
    have hconst : (op x).isConstant := by rw [hx, isConstant_chain, haffine]
    -- A constant does not move, and neither does what is computed from it.
    rw [h.eq_of_constant haffine]
    exact (of_constant hconst).moved (affine_of_constant hconst)

theorem scale (h : x.Follows changes y) (k : ℝ) : (x.scale k).Follows changes (y.scale k) := by
  refine ⟨?_, ?_, fun haffine => ?_⟩
  · rw [isConstant_scale, isConstant_scale, h.constant]
  · rw [isAffine_scale, isAffine_scale, h.affine]
  · rw [isAffine_scale] at haffine
    rw [h.moved haffine, drift_scale, value_scale, ← add_mul]
    rfl

theorem add (h : x.Follows changes y) (h' : z.Follows changes w) :
    (x.add z).Follows changes (y.add w) := by
  refine ⟨?_, ?_, fun haffine => ?_⟩
  · rw [isConstant_add, isConstant_add, h.constant, h'.constant]
  · rw [isAffine_add, isAffine_add, h.affine, h'.affine]
  · rw [isAffine_add, Bool.and_eq_true] at haffine
    rw [h.moved haffine.1, h'.moved haffine.2, drift_add, value_add, add_add_add_comm]
    rfl

/-- A product is affine when one factor is constant and the other affine. -/
theorem mul (h : x.Follows changes y) (h' : z.Follows changes w) :
    (x.mul z).Follows changes (y.mul w) := by
  cases hx : x.isConstant with
  | true =>
    obtain rfl := h.eq_of_constant hx
    rcases y with ⟨v, _ | d⟩
    · rw [constant_mul, constant_mul]
      exact h'.scale v
    · cases hx
  | false =>
    cases hz : z.isConstant with
    | true =>
      obtain rfl := h'.eq_of_constant hz
      rcases w with ⟨v, _ | d⟩
      · rw [mul_constant, mul_constant]
        exact h.scale v
      · cases hz
    -- Two factors that are not constant: no flag is set.
    | false =>
      obtain ⟨hconst, haffine⟩ := flags_mul x z hx hz
      obtain ⟨hconst', haffine'⟩ := flags_mul y w (h.constant.trans hx) (h'.constant.trans hz)
      refine ⟨hconst'.trans hconst.symm, haffine'.trans haffine.symm, fun hset => ?_⟩
      rw [haffine] at hset
      cases hset

theorem power (h : x.Follows changes y) (k : ℤ) : (x.power k).Follows changes (y.power k) := by
  by_cases hzero : k = 0
  · rw [Jet.power, Jet.power, if_pos hzero, if_pos hzero]
    exact of_constant rfl
  by_cases hone : k = 1
  · rw [Jet.power, Jet.power, if_neg hzero, if_pos hone, if_neg hzero, if_pos hone]
    exact h
  · refine h.chain (fun x => x.power k) fun x => ?_
    rw [Jet.power, if_neg hzero, if_neg hone]
    exact ⟨_, _, _, rfl⟩

theorem unary (h : x.Follows changes y) {φ : UnaryFunction} (hkeep : φ ≠ .frozen) :
    (φ.apply x).Follows changes (φ.apply y) := by
  cases φ with
  | neg => exact h.scale (-1)
  | frozen => exact absurd rfl hkeep
  | _ => exact h.chain _ fun x => ⟨_, _, _, rfl⟩

theorem binary (h : x.Follows changes y) (h' : z.Follows changes w) (φ : BinaryFunction) :
    (φ.apply x z).Follows changes (φ.apply y w) := by
  cases φ with
  | add => exact h.add h'
  | sub => exact h.add (h'.scale (-1))
  | mul => exact h.mul h'
  | div =>
    -- A quotient is the product with the reciprocal.
    have hproduct := h.mul (h'.unary (φ := .recip) (by decide))
    simp only [UnaryFunction.apply, ← div_eq_mul_recip] at hproduct
    exact hproduct

/-- Expressions follow when their leaves do. -/
theorem eval {ι : Type} {leaf leaf' : ι → Except Error (Jet ℝ)}
    (hleaf : ∀ l x, leaf l = .ok x → ∃ y, leaf' l = .ok y ∧ x.Follows changes y)
    {e : Expression ι} (he : e.Unfrozen) (h : e.eval leaf = .ok x) :
    ∃ y, e.eval leaf' = .ok y ∧ x.Follows changes y := by
  induction e generalizing x with
  | leaf l => exact hleaf l x h
  | unary φ e ih =>
    obtain ⟨x', hx', h⟩ := bind_eq_ok h
    obtain rfl := Except.ok.inj h
    obtain ⟨y, hy, hfollows⟩ := ih he.2 hx'
    refine ⟨φ.apply y, ?_, hfollows.unary he.1⟩
    rw [Expression.eval, hy]
    rfl
  | power e k ih =>
    obtain ⟨x', hx', h⟩ := bind_eq_ok h
    obtain rfl := Except.ok.inj h
    obtain ⟨y, hy, hfollows⟩ := ih he hx'
    refine ⟨y.power k, ?_, hfollows.power k⟩
    rw [Expression.eval, hy]
    rfl
  | binary φ e e' ih ih' =>
    obtain ⟨x₁, hx₁, h⟩ := bind_eq_ok h
    obtain ⟨x₂, hx₂, h⟩ := bind_eq_ok h
    obtain rfl := Except.ok.inj h
    obtain ⟨y₁, hy₁, hfollows₁⟩ := ih he.1 hx₁
    obtain ⟨y₂, hy₂, hfollows₂⟩ := ih' he.2 hx₂
    refine ⟨φ.apply y₁ y₂, ?_, hfollows₁.binary hfollows₂ φ⟩
    rw [Expression.eval, hy₁, ok_bind, hy₂]
    rfl

end Jet.Follows

/-- Lists of expressions follow when their leaves do. -/
theorem Proofs.exists_evals_of_follows {ι : Type} {changes : List ℝ}
    {leaf leaf' : ι → Except Error (Jet ℝ)}
    (hleaf : ∀ l x, leaf l = .ok x → ∃ y, leaf' l = .ok y ∧ x.Follows changes y)
    {es : List (Expression ι)} (hes : ∀ e ∈ es, e.Unfrozen) {xs : List (Jet ℝ)}
    (h : es.mapM (·.eval leaf) = .ok xs) :
    ∃ ys, es.mapM (·.eval leaf') = .ok ys ∧ List.Forall₂ (Jet.Follows changes) xs ys := by
  have hsame : List.Forall₂ (fun e e' => e' = e ∧ e.Unfrozen) es es :=
    List.forall₂_same.mpr fun e he => ⟨rfl, hes e he⟩
  refine Proofs.exists_mapM_of_related ?_ hsame h
  rintro e e' ⟨rfl, he⟩ x hx
  exact Jet.Follows.eval hleaf he hx

end CircuitGrad
