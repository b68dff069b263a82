import Mathlib
import CircuitGrad.Proofs.Curvature

/-! # Derivatives carried by jets

    What each operation on jets does to the slopes and the bends.  A constant
    has slopes and bends too, all of them zero, and so has an input beyond the
    gradient; with this reading every rule is one formula, and the shortcuts
    for constants and the padding of short gradients are cases of it.

    Bends obey their rules where they are tracked, and under the invariant
    that stored pairs are in order.
-/

namespace CircuitGrad

/-- The stored second derivatives are in order. -/
def Jet.Ordered (x : Jet ℝ) : Prop :=
  ∀ d, x.derivatives = some d → ∀ c, d.curvature = some c → c.Ordered

namespace Proofs

/-! ## Gradients as functions of the index -/

theorem getD_zipWith (f : ℝ → ℝ → ℝ) (hf : f 0 0 = 0) {g h : List ℝ}
    (hlen : g.length = h.length) (i : ℕ) :
    (List.zipWith f g h).getD i 0 = f (g.getD i 0) (h.getD i 0) := by
  by_cases hi : i < g.length
  · have hi' : i < h.length := hlen ▸ hi
    simp [List.getD_eq_getElem?_getD, hi, hi']
  · have hi' : ¬ i < h.length := hlen ▸ hi
    simp [List.getD_eq_getElem?_getD, hi, hi', hf]

theorem length_gradientTo {α : Type} [Scalar α] (d : Derivatives α) {n : ℕ}
    (hn : d.gradient.length ≤ n) : (d.gradientTo n).length = n := by
  unfold Derivatives.gradientTo
  rw [List.length_append, List.length_replicate]
  omega

/-- Continuing a gradient with zeros changes no slope. -/
theorem getD_gradientTo {α : Type} [Scalar α] (d : Derivatives α) (n i : ℕ) :
    (d.gradientTo n).getD i 0 = d.gradient.getD i 0 := by
  unfold Derivatives.gradientTo
  by_cases hi : i < d.gradient.length
  · rw [List.getD_append _ _ _ _ hi]
  · rw [List.getD_append_right _ _ _ _ (by omega)]
    rw [List.getD_eq_getElem?_getD, List.getElem?_getD_replicate_default_eq]
    simp [List.getD_eq_getElem?_getD, hi]

/-! ## Reading constants and trainable jets -/

theorem slope_constant (v : ℝ) (i : ℕ) : (Jet.mk v none).slope i = 0 := rfl

theorem slope_trainable (v : ℝ) (d : Derivatives ℝ) (i : ℕ) :
    (Jet.mk v (some d)).slope i = d.gradient.getD i 0 := rfl

theorem bend_constant (v : ℝ) (i j : ℕ) : (Jet.mk v none).bend i j = 0 := rfl

theorem bend_trainable {d : Derivatives ℝ} {c : Curvature ℝ} (h : d.curvature = some c)
    (v : ℝ) (i j : ℕ) : (Jet.mk v (some d)).bend i j = c.entry i j := by
  simp [Jet.bend, h]

/-! ## Seeds -/

theorem slope_seed {n : ℕ} (v : ℝ) (k i : Fin n) (secondOrder : Bool) :
    (Jet.seed v k n secondOrder).slope i = if k = i then 1 else 0 := by
  have h : (Jet.seed v k n secondOrder).slope i =
      ((List.range n).map fun i => if i == (k : ℕ) then (1 : ℝ) else 0).getD i 0 := rfl
  rw [h, List.getD_eq_getElem?_getD]
  by_cases hik : k = i
  · simp [hik]
  · have hne : (i : ℕ) ≠ k := fun h => hik (Fin.ext h.symm)
    simp [hik, hne]

theorem bend_seed {n : ℕ} (v : ℝ) (k : Fin n) (secondOrder : Bool) (i j : ℕ) :
    (Jet.seed v k n secondOrder).bend i j = 0 := by
  cases secondOrder <;> rfl

/-! ## Sums of double folds -/

/-- Two nested folds of bumps are one. -/
theorem foldl_foldl_eq_bumps {α ι κ : Type} [Scalar α] (l : List ι) (m : ι → List κ)
    (item : ι → κ → ℕ × ℕ × α) (c : Curvature α) :
    l.foldl (fun acc x => (m x).foldl (fun acc y =>
      acc.bump (item x y).1 (item x y).2.1 (item x y).2.2) acc) c =
      bumps c (l.flatMap fun x => (m x).map (item x)) := by
  unfold bumps
  rw [List.foldl_flatMap]
  simp only [List.foldl_map]

theorem sum_flatMap {ι κ : Type} (l : List ι) (m : ι → List κ) (w : κ → ℝ) :
    ((l.flatMap m).map w).sum = (l.map fun x => ((m x).map w).sum).sum := by
  induction l with
  | nil => rfl
  | cons x l ih => simp [ih]

theorem sum_filter_map {ι : Type} (l : List ι) (p : ι → Bool) (w : ι → ℝ) :
    ((l.filter p).map w).sum = (l.map fun x => if p x then w x else 0).sum := by
  induction l with
  | nil => rfl
  | cons x l ih =>
    rw [List.filter_cons]
    by_cases hp : p x <;> simp [hp, ih]

/-! ## The chain rule -/

section Chain

variable (x : Jet ℝ) (f0 f1 f2 : ℝ)

@[simp] theorem value_chain : (x.chain f0 f1 f2).value = f0 := rfl

theorem slope_chain (i : ℕ) : (x.chain f0 f1 f2).slope i = f1 * x.slope i := by
  rcases x with ⟨v, _ | d⟩
  · simp [Jet.chain, slope_constant]
  · have h := List.getD_map (l := d.gradient) (d := 0) (n := i) (f1 * ·)
    rw [mul_zero] at h
    exact h

theorem hasSecondOrder_chain : (x.chain f0 f1 f2).hasSecondOrder = x.hasSecondOrder := by
  rcases x with ⟨v, _ | ⟨g, _ | c, a⟩⟩ <;> rfl

/-- The pairs that the chain rule bumps: the outer product of the gradient
    with itself, each pair of inputs once. -/
theorem sum_upperPairs (g : List ℝ) (f : ℝ) (a b : ℕ) :
    (((Derivatives.nonzero g).flatMap fun p =>
      ((Derivatives.nonzero g).filter fun q => q.1 ≥ p.1).map fun q =>
        (p.1, q.1, f * p.2 * q.2)).map fun e : ℕ × ℕ × ℝ =>
          if (min a b, max a b) = (min e.1 e.2.1, max e.1 e.2.1) then e.2.2 else 0).sum =
      f * g.getD a 0 * g.getD b 0 := by
  -- only the pair `min a b`, `max a b` contributes
  have hinner : ∀ p : ℕ × ℝ,
      ((((Derivatives.nonzero g).filter fun q => q.1 ≥ p.1).map fun q =>
        (p.1, q.1, f * p.2 * q.2)).map fun e : ℕ × ℕ × ℝ =>
          if (min a b, max a b) = (min e.1 e.2.1, max e.1 e.2.1) then e.2.2 else 0).sum =
        if p.1 = min a b then f * p.2 * g.getD (max a b) 0 else 0 := by
    rintro ⟨i, u⟩
    rw [List.map_map, sum_filter_map]
    have hpick : ∀ q : ℕ × ℝ, (if decide (q.1 ≥ i) then
        if (min a b, max a b) = (min i q.1, max i q.1) then f * u * q.2 else 0 else 0) =
        (fun j v => if j = max a b then if i = min a b then f * u * v else 0 else 0) q.1 q.2 := by
      rintro ⟨j, v⟩
      simp only [Prod.mk.injEq, decide_eq_true_eq]
      split_ifs <;> first | rfl | omega
    refine (congrArg List.sum (List.map_congr_left fun q _ => hpick q)).trans ?_
    rw [sum_nonzero g (fun j v => if j = max a b then if i = min a b then f * u * v else 0 else 0)
      (by simp), sum_range_pick g (fun v => if i = min a b then f * u * v else 0) (by simp)]
  rw [sum_flatMap, List.map_congr_left fun p _ => hinner p,
    sum_nonzero g (fun i u => if i = min a b then f * u * g.getD (max a b) 0 else 0) (by simp),
    sum_range_pick g (fun u => f * u * g.getD (max a b) 0) (by simp)]
  rcases le_total a b with hab | hab
  · rw [min_eq_left hab, max_eq_right hab]
  · rw [min_eq_right hab, max_eq_left hab]
    ring

/-- The curvature of a chained jet as a sequence of bumps. -/
theorem curvature_chain {α : Type} [Scalar α] (f1 f2 : α) (g : List α) (c : Curvature α) (a : Bool)
    (hne : (f2 == 0) = false) :
    (Derivatives.chain ⟨g, some c, a⟩ f1 f2).curvature =
      some (bumps (c.scaleLeft f1) ((Derivatives.nonzero g).flatMap fun p =>
        ((Derivatives.nonzero g).filter fun q => q.1 ≥ p.1).map fun q =>
          (p.1, q.1, f2 * p.2 * q.2))) := by
  rw [← foldl_foldl_eq_bumps]
  simp only [Derivatives.chain, Option.map_some, hne]
  rfl

theorem ordered_chain (hx : x.Ordered) : (x.chain f0 f1 f2).Ordered := by
  rcases x with ⟨v, _ | ⟨g, _ | c, a⟩⟩
  · intro d hd
    cases hd
  · intro d hd c hc
    cases hd
    cases hc
  · have hc : c.Ordered := hx _ rfl c rfl
    intro d hd c' hc'
    cases hd
    by_cases hf2 : f2 = 0
    · subst hf2
      have : c' = c.scaleLeft f1 := by simpa [Derivatives.chain] using hc'.symm
      exact this ▸ ordered_mapValues hc (f1 * ·)
    · rw [curvature_chain f1 f2 g c a (by simpa using hf2)] at hc'
      obtain rfl := Option.some.inj hc'
      exact ordered_bumps (ordered_mapValues hc (f1 * ·)) _

theorem bend_chain (hx : x.Ordered) (hs : x.hasSecondOrder) (i j : ℕ) :
    (x.chain f0 f1 f2).bend i j = f1 * x.bend i j + f2 * x.slope i * x.slope j := by
  rcases x with ⟨v, _ | ⟨g, _ | c, a⟩⟩
  · have hnone : ((Jet.mk v none).chain f0 f1 f2).bend i j = 0 := rfl
    rw [hnone, bend_constant, slope_constant, slope_constant]
    ring
  · cases hs
  · have hc : c.Ordered := hx _ rfl c rfl
    have hlinear : (c.scaleLeft f1).entry i j = f1 * c.entry i j :=
      entry_mapValues c (f1 * ·) (mul_zero f1) i j
    have hchain : (Jet.mk v (some ⟨g, some c, a⟩)).chain f0 f1 f2 =
        ⟨f0, some (Derivatives.chain ⟨g, some c, a⟩ f1 f2)⟩ := rfl
    have hstored : (Jet.mk v (some ⟨g, some c, a⟩)).bend i j = c.entry i j := rfl
    rw [hchain, hstored, slope_trainable, slope_trainable, ← hlinear]
    by_cases hf2 : f2 = 0
    · subst hf2
      -- Without a second derivative of the function nothing is bumped.
      have hcurv : (Derivatives.chain ⟨g, some c, a⟩ f1 0).curvature = some (c.scaleLeft f1) := by
        simp [Derivatives.chain]
      rw [bend_trainable hcurv]
      ring
    · have hordered : (c.scaleLeft f1).Ordered := ordered_mapValues hc (f1 * ·)
      rw [bend_trainable (curvature_chain f1 f2 g c a (by simpa using hf2)),
        entry_bumps hordered, sum_upperPairs]

end Chain

/-! ## Products with a constant -/

section Scale

variable (x : Jet ℝ) (k : ℝ)

@[simp] theorem value_scale : (x.scale k).value = x.value * k := rfl

theorem slope_scale (i : ℕ) : (x.scale k).slope i = k * x.slope i := by
  rcases x with ⟨v, _ | d⟩
  · simp [Jet.scale, slope_constant]
  · have h := List.getD_map (l := d.gradient) (d := 0) (n := i) (· * k)
    rw [zero_mul, mul_comm] at h
    exact h

theorem hasSecondOrder_scale : (x.scale k).hasSecondOrder = x.hasSecondOrder := by
  rcases x with ⟨v, _ | ⟨g, _ | c, a⟩⟩ <;> rfl

theorem ordered_scale (hx : x.Ordered) : (x.scale k).Ordered := by
  rcases x with ⟨v, _ | ⟨g, _ | c, a⟩⟩
  · intro d hd
    cases hd
  · intro d hd c hc
    cases hd
    cases hc
  · have hc : c.Ordered := hx _ rfl c rfl
    intro d hd c' hc'
    cases hd
    cases hc'
    exact ordered_mapValues hc (· * k)

theorem bend_scale (i j : ℕ) : (x.scale k).bend i j = k * x.bend i j := by
  rcases x with ⟨v, _ | ⟨g, _ | c, a⟩⟩
  · simp [Jet.scale, bend_constant]
  · simp [Jet.scale, Derivatives.scaled, Jet.bend, Curvature.entry]
  · have h := entry_mapValues c (· * k) (zero_mul k) i j
    rw [mul_comm] at h
    exact h

end Scale

/-! ## Sums -/

section Add

variable (x y : Jet ℝ)

@[simp] theorem value_add : (x.add y).value = x.value + y.value := rfl

theorem slope_add (i : ℕ) : (x.add y).slope i = x.slope i + y.slope i := by
  rcases x with ⟨v, _ | d⟩ <;> rcases y with ⟨w, _ | e⟩
  · simp [Jet.add, slope_constant]
  · simp [Jet.add, slope_constant, slope_trainable]
  · simp [Jet.add, slope_constant, slope_trainable]
  · have hlen : (d.gradientTo (max d.gradient.length e.gradient.length)).length =
        (e.gradientTo (max d.gradient.length e.gradient.length)).length := by
      rw [length_gradientTo d (le_max_left _ _), length_gradientTo e (le_max_right _ _)]
    have h := getD_zipWith (· + ·) (add_zero 0) hlen i
    rw [getD_gradientTo, getD_gradientTo] at h
    exact h

theorem hasSecondOrder_add :
    (x.add y).hasSecondOrder = (x.hasSecondOrder && y.hasSecondOrder) := by
  rcases x with ⟨v, _ | ⟨g, _ | c, a⟩⟩ <;> rcases y with ⟨w, _ | ⟨h, _ | e, b⟩⟩ <;> rfl

theorem ordered_add (hx : x.Ordered) (hy : y.Ordered) : (x.add y).Ordered := by
  rcases x with ⟨v, _ | ⟨g, _ | c, a⟩⟩ <;> rcases y with ⟨w, _ | ⟨h, _ | e, b⟩⟩
  case some.none.some.some | some.some.some.none | some.none.some.none =>
    intro d hd c' hc'
    cases hd
    cases hc'
  case some.some.some.some =>
    have hc : c.Ordered := hx _ rfl c rfl
    intro d hd c' hc'
    cases hd
    cases hc'
    exact ordered_bumpAll hc e id
  all_goals assumption

theorem bend_add (hx : x.Ordered) (hy : y.Ordered) (hs : (x.add y).hasSecondOrder) (i j : ℕ) :
    (x.add y).bend i j = x.bend i j + y.bend i j := by
  rcases x with ⟨v, _ | ⟨g, _ | c, a⟩⟩ <;> rcases y with ⟨w, _ | ⟨h, _ | e, b⟩⟩
  case some.none.some.some | some.some.some.none | some.none.some.none => cases hs
  case some.some.some.some =>
    exact entry_bumpAll (hx _ rfl c rfl) (hy _ rfl e rfl) id rfl i j
  all_goals simp [Jet.add, Jet.bend, Curvature.entry]

end Add

/-! ## Products -/

section Mul

variable (x y : Jet ℝ)

/-- A product with a constant on the left only scales. -/
theorem constant_mul (v : ℝ) : (Jet.mk v none).mul y = y.scale v := by
  rcases y with ⟨w, _ | e⟩
  · simp [Jet.mul, Jet.constant, Jet.scale, mul_comm]
  · rfl

/-- A product with a constant on the right only scales. -/
theorem mul_constant (w : ℝ) : x.mul (Jet.mk w none) = x.scale w := by
  rcases x with ⟨v, _ | d⟩ <;> rfl

@[simp] theorem value_mul : (x.mul y).value = x.value * y.value := by
  rcases x with ⟨v, _ | d⟩
  · rw [constant_mul, value_scale, mul_comm]
  · rcases y with ⟨w, _ | e⟩ <;> rfl

theorem slope_mul (i : ℕ) :
    (x.mul y).slope i = x.value * y.slope i + y.value * x.slope i := by
  rcases x with ⟨v, _ | d⟩
  · rw [constant_mul, slope_scale, slope_constant, mul_zero, add_zero]
  · rcases y with ⟨w, _ | e⟩
    · rw [mul_constant, slope_scale, slope_constant, mul_zero, zero_add]
    · have hlen : (d.gradientTo (max d.gradient.length e.gradient.length)).length =
          (e.gradientTo (max d.gradient.length e.gradient.length)).length := by
        rw [length_gradientTo d (le_max_left _ _), length_gradientTo e (le_max_right _ _)]
      have h := getD_zipWith (fun p q => v * q + w * p) (by simp) hlen i
      rw [getD_gradientTo, getD_gradientTo] at h
      exact h

theorem hasSecondOrder_mul :
    (x.mul y).hasSecondOrder = (x.hasSecondOrder && y.hasSecondOrder) := by
  rcases x with ⟨v, _ | ⟨g, _ | c, a⟩⟩ <;> rcases y with ⟨w, _ | ⟨h, _ | e, b⟩⟩ <;> rfl

/-- The pairs that the product rule bumps: each pair of slopes once, and the
    diagonal with both of its terms. -/
theorem sum_crossPairs (g h : List ℝ) (a b : ℕ) :
    (((Derivatives.nonzero g).flatMap fun p => (Derivatives.nonzero h).map fun q =>
      (p.1, q.1, if p.1 == q.1 then 2.0 * p.2 * q.2 else p.2 * q.2)).map fun e : ℕ × ℕ × ℝ =>
        if (min a b, max a b) = (min e.1 e.2.1, max e.1 e.2.1) then e.2.2 else 0).sum =
      g.getD a 0 * h.getD b 0 + g.getD b 0 * h.getD a 0 := by
  have hinner : ∀ p : ℕ × ℝ, (((Derivatives.nonzero h).map fun q =>
      (p.1, q.1, if p.1 == q.1 then 2.0 * p.2 * q.2 else p.2 * q.2)).map fun e : ℕ × ℕ × ℝ =>
        if (min a b, max a b) = (min e.1 e.2.1, max e.1 e.2.1) then e.2.2 else 0).sum =
      (if p.1 = a then p.2 * h.getD b 0 else 0) + (if p.1 = b then p.2 * h.getD a 0 else 0) := by
    rintro ⟨i, u⟩
    rw [List.map_map]
    -- the pair `i`, `j` is read in two ways, which coincide on the diagonal
    have hsplit : ∀ q : ℕ × ℝ,
        (if (min a b, max a b) = (min i q.1, max i q.1) then
          (if i == q.1 then 2.0 * u * q.2 else u * q.2) else 0) =
        (fun j v => (if j = b then (if i = a then u * v else 0) else 0) +
          (if j = a then (if i = b then u * v else 0) else 0)) q.1 q.2 := by
      rintro ⟨j, v⟩
      simp only [Prod.mk.injEq, beq_iff_eq]
      split_ifs <;> first | omega | (norm_num; try ring)
    refine (congrArg List.sum (List.map_congr_left fun q _ => hsplit q)).trans ?_
    rw [sum_nonzero h (fun j v => (if j = b then (if i = a then u * v else 0) else 0) +
          (if j = a then (if i = b then u * v else 0) else 0)) (by simp), Finset.sum_add_distrib,
      sum_range_pick h (fun v => if i = a then u * v else 0) (by simp),
      sum_range_pick h (fun v => if i = b then u * v else 0) (by simp)]
  rw [sum_flatMap, List.map_congr_left fun p _ => hinner p,
    sum_nonzero g (fun i u => (if i = a then u * h.getD b 0 else 0) +
      (if i = b then u * h.getD a 0 else 0)) (by simp), Finset.sum_add_distrib,
    sum_range_pick g (fun u => u * h.getD b 0) (by simp),
    sum_range_pick g (fun u => u * h.getD a 0) (by simp)]

/-- The curvature of a product as a sequence of bumps. -/
theorem curvature_mul {α : Type} [Scalar α] (v w : α) (g h : List α) (c e : Curvature α)
    (a b : Bool) :
    (Derivatives.mul v w ⟨g, some c, a⟩ ⟨h, some e, b⟩).curvature =
      some (bumps ((Curvature.bumpAll [] e (v * ·)).bumpAll c (w * ·))
        ((Derivatives.nonzero (Derivatives.gradientTo ⟨g, some c, a⟩
          (max g.length h.length))).flatMap fun p =>
            (Derivatives.nonzero (Derivatives.gradientTo ⟨h, some e, b⟩
              (max g.length h.length))).map fun q =>
                (p.1, q.1, if p.1 == q.1 then 2.0 * p.2 * q.2 else p.2 * q.2))) := by
  rw [← foldl_foldl_eq_bumps]
  rfl

theorem ordered_mul (hx : x.Ordered) (hy : y.Ordered) : (x.mul y).Ordered := by
  rcases x with ⟨v, _ | ⟨g, oc, a⟩⟩
  · rw [constant_mul]
    exact ordered_scale _ _ hy
  · rcases y with ⟨w, _ | ⟨h, oe, b⟩⟩
    · rw [mul_constant]
      exact ordered_scale _ _ hx
    · intro d hd c' hc'
      cases hd
      rcases oc with _ | c <;> rcases oe with _ | e
      case some.some =>
        rw [curvature_mul] at hc'
        obtain rfl := Option.some.inj hc'
        exact ordered_bumps (ordered_bumpAll (ordered_bumpAll ordered_nil e _) c _) _
      all_goals cases hc'

theorem bend_mul (hx : x.Ordered) (hy : y.Ordered) (hs : (x.mul y).hasSecondOrder) (i j : ℕ) :
    (x.mul y).bend i j = x.value * y.bend i j + y.value * x.bend i j +
      (x.slope i * y.slope j + x.slope j * y.slope i) := by
  rcases x with ⟨v, _ | ⟨g, oc, a⟩⟩
  · rw [constant_mul, bend_scale, bend_constant, slope_constant, slope_constant]
    ring
  · rcases y with ⟨w, _ | ⟨h, oe, b⟩⟩
    · rw [mul_constant, bend_scale, bend_constant, slope_constant, slope_constant]
      ring
    · rcases oc with _ | c <;> rcases oe with _ | e
      case some.some =>
        have hc : c.Ordered := hx _ rfl c rfl
        have he : e.Ordered := hy _ rfl e rfl
        -- Both factors track bends: scaled sums of these, then the crossed slopes.
        have hscaled : (Curvature.bumpAll [] e (v * ·)).Ordered := ordered_bumpAll ordered_nil e _
        have houter : ((Curvature.bumpAll [] e (v * ·)).bumpAll c (w * ·)).entry i j =
            v * e.entry i j + w * c.entry i j := by
          rw [entry_bumpAll hscaled hc _ (mul_zero w),
            entry_bumpAll ordered_nil he _ (mul_zero v)]
          simp [Curvature.entry]
        have hmul : (Jet.mk v (some ⟨g, some c, a⟩)).mul (Jet.mk w (some ⟨h, some e, b⟩)) =
            ⟨v * w, some (Derivatives.mul v w ⟨g, some c, a⟩ ⟨h, some e, b⟩)⟩ := rfl
        rw [hmul, bend_trainable (curvature_mul v w g h c e a b),
          entry_bumps (ordered_bumpAll hscaled c _), sum_crossPairs, houter]
        simp only [getD_gradientTo]
        rfl
      all_goals cases hs

end Mul

/-- The shortcut for constant divisors is the general quotient. -/
theorem div_eq_mul_recip (x y : Jet ℝ) : x / y = x.mul y.recip := by
  show x.div y = x.mul y.recip
  rcases y with ⟨w, _ | e⟩
  · exact (mul_constant x (1 / w)).symm
  · rfl

end Proofs

end CircuitGrad
