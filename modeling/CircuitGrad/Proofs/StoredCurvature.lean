import CircuitGrad.Expression
import CircuitGrad.Proofs.JetCalculus

/-! # What is stored of second derivatives

    The curvature of a jet is meant to hold the nonzero second derivatives,
    and so their number to be that of its entries.  A bump by zero indeed
    leaves no trace.  But an entry that is there stays: the chain rule and
    products with constants multiply it by factors that may vanish, and sums
    and products add to it what may cancel it (`stored_cancellation`).

    What holds is that the pairs are in order and name inputs, and that the
    nonzero second derivatives are the stored ones without the zeros
    (`bends_eq_stored`).  Which pairs an operation stores can be told from the
    values, slopes and bends of its operands (`Jet.Storing`), and the number of
    entries is that of the nonzero second derivatives exactly when none of the
    stored ones has vanished (`stored_second_derivatives`).
-/

namespace CircuitGrad

variable {α : Type}

/-- A second derivative is listed for the pair, whatever its value. -/
def Curvature.Holds (c : Curvature α) (k : ℕ × ℕ) : Prop := k ∈ c.map Prod.fst

/-- The pairs are in order, and both of their indices are below `n`. -/
structure Curvature.Within (n : ℕ) (c : Curvature α) : Prop where
  ordered : c.Ordered
  lt      : ∀ e ∈ c, e.1.2 < n

namespace Jet

/-- The stored second derivatives; none when they are not tracked. -/
def stored (x : Jet α) : Curvature α := (x.derivatives.bind (·.curvature)).getD []

/-- A second derivative is stored for the pair, whatever its value. -/
def Stores (x : Jet α) (i j : ℕ) : Prop := x.stored.Holds (i, j)

variable [Scalar α]

/-- What is computed from constants, inputs and trainable numbers. -/
inductive Computed : Jet α → Prop
  | constant (v : α) : Computed (.constant v)
  | seed (v : α) {index inputs : ℕ} (h : index < inputs) (secondOrder : Bool) :
      Computed (.seed v index inputs secondOrder)
  | trainable (v : α) : Computed (.trainable v)
  | withValue {x : Jet α} (h : Computed x) (v : α) : Computed (x.withValue v)
  | unary (f : UnaryFunction) {x : Jet α} (h : Computed x) : Computed (f.apply x)
  | power {x : Jet α} (h : Computed x) (n : ℤ) : Computed (x.power n)
  | binary (f : BinaryFunction) {x y : Jet α} (hx : Computed x) (hy : Computed y) :
      Computed (f.apply x y)

/-- Which pairs the operations store.  What is scaled or added to stays stored, whatever comes of
    it; what is added is stored where it is not zero. -/
structure Storing (α : Type) [Scalar α] : Prop where
  constant : ∀ x y : Jet α, x.isConstant = true → ∀ i j : ℕ,
    ((x.add y).Stores i j ↔ y.Stores i j) ∧ ((y.add x).Stores i j ↔ y.Stores i j) ∧
      ((x.mul y).Stores i j ↔ y.Stores i j) ∧ ((y.mul x).Stores i j ↔ y.Stores i j)
  scale    : ∀ (x : Jet α) (k : α) (i j : ℕ), (x.scale k).Stores i j ↔ x.Stores i j
  chain    : ∀ (x : Jet α) (f0 f1 f2 : α) (i j : ℕ), (x.chain f0 f1 f2).Stores i j ↔
    x.Stores i j ∨ x.hasSecondOrder = true ∧ i ≤ j ∧ (f2 == 0) = false ∧
      (x.slope i == 0) = false ∧ (x.slope j == 0) = false ∧
        (f2 * x.slope i * x.slope j == 0) = false
  add      : ∀ x y : Jet α, x.isTrainable = true → y.isTrainable = true → y.Computed → ∀ i j : ℕ,
    (x.add y).Stores i j ↔ (x.add y).hasSecondOrder = true ∧
      (x.Stores i j ∨ y.Stores i j ∧ (y.bend i j == 0) = false)
  mul      : ∀ x y : Jet α, x.isTrainable = true → y.isTrainable = true → x.Computed → y.Computed →
    ∀ i j : ℕ, (x.mul y).Stores i j ↔ (x.mul y).hasSecondOrder = true ∧
      (y.Stores i j ∧ (x.value * y.bend i j == 0) = false ∨
        x.Stores i j ∧ (y.value * x.bend i j == 0) = false ∨
        ∃ p q, (min p q, max p q) = (i, j) ∧ (x.slope p == 0) = false ∧ (y.slope q == 0) = false ∧
          ((if p == q then 2.0 * x.slope p * y.slope q else x.slope p * y.slope q) == 0) = false)

end Jet

namespace Proofs

open Curvature

variable [Scalar α]

/-! ## Lists of pairs -/

section Pairs

variable {c : Curvature α} {n : ℕ}

/-- A pair in order is read as it is. -/
theorem pair_of_le {i j : ℕ} (h : i ≤ j) : (min i j, max i j) = (i, j) := by
  rw [min_eq_left h, max_eq_right h]

theorem holds_addAt {key k : ℕ × ℕ} {v : α} : (addAt key v c).Holds k ↔ c.Holds k ∨ k = key := by
  unfold Holds
  induction c with
  | nil => simp [addAt]
  | cons e rest ih =>
    obtain ⟨l, x⟩ := e
    rw [addAt]
    by_cases heq : l = key
    · subst heq
      simp only [beq_self_eq_true, if_true, List.map_cons, List.mem_cons]
      tauto
    · rw [if_neg (by simpa using heq)]
      split
      · simp only [List.map_cons, List.mem_cons]
        tauto
      · simp only [List.map_cons, List.mem_cons, ih]
        tauto

theorem holds_bump {i j : ℕ} {k : ℕ × ℕ} {v : α} :
    (c.bump i j v).Holds k ↔ c.Holds k ∨ (v == 0) = false ∧ k = (min i j, max i j) := by
  unfold bump
  cases hv : v == 0 with
  | true => simp
  | false => simpa using holds_addAt

/-- After bumps there are the pairs from before and those that something was added to. -/
theorem holds_bumps {items : List (ℕ × ℕ × α)} {k : ℕ × ℕ} :
    (bumps c items).Holds k ↔ c.Holds k ∨
      ∃ e ∈ items, (e.2.2 == 0) = false ∧ k = (min e.1 e.2.1, max e.1 e.2.1) := by
  induction items generalizing c with
  | nil => simp [bumps]
  | cons e items ih =>
    have hstep : bumps c (e :: items) = bumps (c.bump e.1 e.2.1 e.2.2) items := rfl
    rw [hstep, ih, holds_bump, List.exists_mem_cons_iff, or_assoc]

omit [Scalar α] in
theorem holds_mapValues {f : α → α} {k : ℕ × ℕ} :
    Holds (c.map fun (l, v) => (l, f v)) k ↔ c.Holds k := by
  unfold Holds
  rw [List.map_map]
  rfl

omit [Scalar α] in
theorem holds_of_mem {e : (ℕ × ℕ) × α} (h : e ∈ c) : c.Holds e.1 := List.mem_map_of_mem h

omit [Scalar α] in
theorem within_nil (n : ℕ) : Within n ([] : Curvature α) := ⟨ordered_nil, by simp⟩

omit [Scalar α] in
theorem within_mono {m : ℕ} (h : c.Within m) (hle : m ≤ n) : c.Within n :=
  ⟨h.ordered, fun e he => (h.lt e he).trans_le hle⟩

/-- Bumps at indices below `n` leave pairs below `n`. -/
theorem within_bumps (h : c.Within n) {items : List (ℕ × ℕ × α)}
    (hitems : ∀ e ∈ items, e.1 < n ∧ e.2.1 < n) : (bumps c items).Within n := by
  refine ⟨ordered_bumps h.ordered items, ?_⟩
  rintro ⟨k, v⟩ hk
  rcases holds_bumps.mp (holds_of_mem hk) with hold | ⟨e, he, -, heq⟩
  · obtain ⟨e, he, rfl⟩ := List.mem_map.mp hold
    exact h.lt e he
  · rw [show k = _ from heq]
    exact max_lt (hitems e he).1 (hitems e he).2

omit [Scalar α] in
theorem within_mapValues (h : c.Within n) (f : α → α) :
    Within n (c.map fun (k, v) => (k, f v)) := by
  refine ⟨ordered_mapValues h.ordered f, fun e he => ?_⟩
  obtain ⟨e', he', rfl⟩ := List.mem_map.mp he
  exact h.lt e' he'

theorem within_bumpAll {d : Curvature α} (h : c.Within n) (hd : d.Within n) (f : α → α) :
    (c.bumpAll d f).Within n := by
  rw [bumpAll_eq_bumps]
  refine within_bumps h (List.forall_mem_map.mpr fun e he => ?_)
  exact ⟨(hd.ordered.ordered e he).trans_lt (hd.lt e he), hd.lt e he⟩

omit [Scalar α] in
/-- A pair is listed once. -/
theorem lookup_of_listed {k : ℕ × ℕ} {v : α} (hc : c.Ordered) (h : (k, v) ∈ c) :
    c.lookup k = some v := by
  have hrising := hc.rising
  clear hc
  induction c with
  | nil => cases h
  | cons e rest ih =>
    obtain ⟨l, x⟩ := e
    obtain ⟨hlt, hrest⟩ := List.pairwise_cons.mp hrising
    rcases List.mem_cons.mp h with hfirst | hmem
    · obtain ⟨rfl, rfl⟩ := Prod.mk.inj hfirst
      exact List.lookup_cons_self
    · have hne : (k == l) = false := by
        rw [beq_eq_false_iff_ne]
        rintro rfl
        exact pairLt_irrefl k (hlt (k, v) hmem)
      rw [List.lookup_cons, hne]
      exact ih hmem hrest

/-- A listed entry is the one that is read. -/
theorem entry_of_mem {i j : ℕ} {v : α} (hc : c.Ordered) (h : ((i, j), v) ∈ c) :
    c.entry i j = v := by
  have hle : i ≤ j := hc.ordered _ h
  unfold entry
  rw [pair_of_le hle, lookup_of_listed hc h, Option.getD_some]

end Pairs

/-! ## Operations -/

section Operations

/-- Slopes that are not zero, by input. -/
theorem mem_nonzero {g : List α} {i : ℕ} {u : α} :
    (i, u) ∈ Derivatives.nonzero g ↔ g[i]? = some u ∧ (u == 0) = false := by
  unfold Derivatives.nonzero
  simp only [List.mem_filter, List.mem_map, Prod.mk.injEq, Bool.not_eq_true']
  refine and_congr_left fun _ => ⟨?_, ?_⟩
  · rintro ⟨⟨_, _⟩, he, rfl, rfl⟩
    exact List.mem_zipIdx_iff_getElem?.mp he
  · exact fun h => ⟨(u, i), List.mem_zipIdx_iff_getElem?.mpr h, rfl, rfl⟩

theorem lt_of_mem_nonzero {g : List α} {e : ℕ × α} (h : e ∈ Derivatives.nonzero g) :
    e.1 < g.length :=
  (List.getElem?_eq_some_iff.mp (mem_nonzero.mp h).1).1

/-- Where zero counts as zero, an absent slope is one of those left out. -/
theorem mem_nonzero_iff (h0 : ((0 : α) == 0) = true) {g : List α} {i : ℕ} {u : α} :
    (i, u) ∈ Derivatives.nonzero g ↔ g.getD i 0 = u ∧ (u == 0) = false := by
  rw [mem_nonzero, List.getD_eq_getElem?_getD]
  cases g[i]? with
  | none =>
    refine iff_of_false (fun h => by cases h.1) fun h => ?_
    rw [← h.1, Option.getD_none, h0] at h
    cases h.2
  | some v => simp

/-- The pairs of the chain rule. -/
theorem holds_upperPairs (h0 : ((0 : α) == 0) = true) {g : List α} {f2 : α} {c : Curvature α}
    {i j : ℕ} :
    (bumps c ((Derivatives.nonzero g).flatMap fun p =>
      ((Derivatives.nonzero g).filter fun q => q.1 ≥ p.1).map fun q =>
        (p.1, q.1, f2 * p.2 * q.2))).Holds (i, j) ↔
      c.Holds (i, j) ∨ i ≤ j ∧ (g.getD i 0 == 0) = false ∧ (g.getD j 0 == 0) = false ∧
        (f2 * g.getD i 0 * g.getD j 0 == 0) = false := by
  rw [holds_bumps]
  refine or_congr_right ⟨?_, ?_⟩
  · rintro ⟨e, he, hne, heq⟩
    obtain ⟨⟨p, u⟩, hp, he⟩ := List.mem_flatMap.mp he
    obtain ⟨⟨q, v⟩, hfilter, rfl⟩ := List.mem_map.mp he
    obtain ⟨hq, hbehind⟩ := List.mem_filter.mp hfilter
    have hle : p ≤ q := by simpa using hbehind
    rw [pair_of_le hle, Prod.mk.injEq] at heq
    obtain ⟨rfl, rfl⟩ := heq
    obtain ⟨rfl, hu⟩ := (mem_nonzero_iff h0).mp hp
    obtain ⟨rfl, hv⟩ := (mem_nonzero_iff h0).mp hq
    exact ⟨hle, hu, hv, hne⟩
  · rintro ⟨hle, hu, hv, hne⟩
    refine ⟨(i, j, f2 * g.getD i 0 * g.getD j 0), List.mem_flatMap.mpr
      ⟨(i, g.getD i 0), (mem_nonzero_iff h0).mpr ⟨rfl, hu⟩, List.mem_map.mpr
        ⟨(j, g.getD j 0), List.mem_filter.mpr ⟨(mem_nonzero_iff h0).mpr ⟨rfl, hv⟩, ?_⟩, rfl⟩⟩,
      hne, ?_⟩
    · simpa using hle
    · rw [pair_of_le hle]

/-- The pairs of the product rule. -/
theorem holds_crossPairs (h0 : ((0 : α) == 0) = true) {g h : List α} {c : Curvature α}
    {k : ℕ × ℕ} :
    (bumps c ((Derivatives.nonzero g).flatMap fun p => (Derivatives.nonzero h).map fun q =>
      (p.1, q.1, if p.1 == q.1 then 2.0 * p.2 * q.2 else p.2 * q.2))).Holds k ↔
      c.Holds k ∨ ∃ p q, (min p q, max p q) = k ∧ (g.getD p 0 == 0) = false ∧
        (h.getD q 0 == 0) = false ∧
        ((if p == q then 2.0 * g.getD p 0 * h.getD q 0 else g.getD p 0 * h.getD q 0) == 0) =
          false := by
  rw [holds_bumps]
  refine or_congr_right ⟨?_, ?_⟩
  · rintro ⟨e, he, hne, heq⟩
    obtain ⟨⟨p, u⟩, hp, he⟩ := List.mem_flatMap.mp he
    obtain ⟨⟨q, v⟩, hq, rfl⟩ := List.mem_map.mp he
    obtain ⟨rfl, hu⟩ := (mem_nonzero_iff h0).mp hp
    obtain ⟨rfl, hv⟩ := (mem_nonzero_iff h0).mp hq
    exact ⟨p, q, heq.symm, hu, hv, hne⟩
  · rintro ⟨p, q, rfl, hu, hv, hne⟩
    exact ⟨_, List.mem_flatMap.mpr ⟨(p, g.getD p 0), (mem_nonzero_iff h0).mpr ⟨rfl, hu⟩,
      List.mem_map.mpr ⟨(q, h.getD q 0), (mem_nonzero_iff h0).mpr ⟨rfl, hv⟩, rfl⟩⟩, hne, rfl⟩

/-- The pairs that a transformed curvature is added at. -/
theorem holds_bumpAll {c d : Curvature α} {f : α → α} (hd : d.Ordered) {i j : ℕ} :
    (c.bumpAll d f).Holds (i, j) ↔
      c.Holds (i, j) ∨ d.Holds (i, j) ∧ (f (d.entry i j) == 0) = false := by
  rw [bumpAll_eq_bumps, holds_bumps]
  refine or_congr_right ⟨?_, ?_⟩
  · rintro ⟨e, he, hne, heq⟩
    obtain ⟨⟨⟨p, q⟩, v⟩, hmem, rfl⟩ := List.mem_map.mp he
    have hle : p ≤ q := hd.ordered _ hmem
    rw [pair_of_le hle, Prod.mk.injEq] at heq
    obtain ⟨rfl, rfl⟩ := heq
    rw [entry_of_mem hd hmem]
    exact ⟨holds_of_mem hmem, hne⟩
  · rintro ⟨hold, hne⟩
    obtain ⟨⟨⟨p, q⟩, v⟩, hmem, heq⟩ := List.mem_map.mp hold
    obtain ⟨rfl, rfl⟩ := Prod.mk.inj heq
    rw [entry_of_mem hd hmem] at hne
    have hle : p ≤ q := hd.ordered _ hmem
    exact ⟨_, List.mem_map.mpr ⟨_, hmem, rfl⟩, hne, by rw [pair_of_le hle]⟩

end Operations

/-! ## Jets -/

section Jets

omit [Scalar α] in
theorem stored_of_curvature {d : Derivatives α} {c : Curvature α} (h : d.curvature = some c)
    (v : α) : (Jet.mk v (some d)).stored = c := by
  simp [Jet.stored, h]

/-- The nonzero slopes of a gradient that is continued to `n` inputs are below `n`. -/
theorem lt_of_mem_gradientTo {d : Derivatives α} {n : ℕ} (hn : d.gradient.length ≤ n) {e : ℕ × α}
    (h : e ∈ Derivatives.nonzero (d.gradientTo n)) : e.1 < n :=
  (lt_of_mem_nonzero h).trans_eq (length_gradientTo d hn)

variable (x y : Jet α)

theorem within_scale (h : x.stored.Within x.inputs) (k : α) :
    (x.scale k).stored.Within (x.scale k).inputs := by
  rcases x with ⟨v, _ | ⟨g, _ | c, a⟩⟩
  · exact within_nil _
  · exact within_nil _
  · have hinputs : ((Jet.mk v (some ⟨g, some c, a⟩)).scale k).inputs = g.length :=
      List.length_map _
    rw [hinputs]
    exact within_mapValues h (· * k)

theorem within_chain (h : x.stored.Within x.inputs) (f0 f1 f2 : α) :
    (x.chain f0 f1 f2).stored.Within (x.chain f0 f1 f2).inputs := by
  rcases x with ⟨v, _ | ⟨g, _ | c, a⟩⟩
  · exact within_nil _
  · exact within_nil _
  · have hinputs : ((Jet.mk v (some ⟨g, some c, a⟩)).chain f0 f1 f2).inputs = g.length :=
      List.length_map _
    have hlinear : (c.scaleLeft f1).Within g.length := within_mapValues h (f1 * ·)
    rw [hinputs]
    cases hf2 : f2 == 0 with
    | true =>
      have hcurvature : (Derivatives.chain ⟨g, some c, a⟩ f1 f2).curvature =
          some (c.scaleLeft f1) := by simp [Derivatives.chain, hf2]
      exact (stored_of_curvature hcurvature f0).symm ▸ hlinear
    | false =>
      refine (stored_of_curvature (curvature_chain f1 f2 g c a hf2) f0).symm ▸
        within_bumps hlinear fun e he => ?_
      obtain ⟨p, hp, he⟩ := List.mem_flatMap.mp he
      obtain ⟨q, hfilter, rfl⟩ := List.mem_map.mp he
      have hp : p.1 < g.length := lt_of_mem_nonzero hp
      have hq : q.1 < g.length := lt_of_mem_nonzero (List.mem_filter.mp hfilter).1
      exact ⟨hp, hq⟩

/-- Both gradients are continued to the longer one. -/
theorem length_zipWith_gradientTo (op : α → α → α) (d e : Derivatives α) :
    (List.zipWith op (d.gradientTo (max d.gradient.length e.gradient.length))
      (e.gradientTo (max d.gradient.length e.gradient.length))).length =
      max d.gradient.length e.gradient.length := by
  rw [List.length_zipWith, length_gradientTo d (le_max_left _ _),
    length_gradientTo e (le_max_right _ _), min_self]

theorem within_sum (hx : x.stored.Within x.inputs) (hy : y.stored.Within y.inputs) :
    (x.add y).stored.Within (x.add y).inputs := by
  rcases x with ⟨v, _ | ⟨g, _ | c, a⟩⟩ <;> rcases y with ⟨w, _ | ⟨h, _ | e, b⟩⟩
  case some.none.some.some | some.some.some.none | some.none.some.none => exact within_nil _
  case some.some.some.some =>
    have hinputs : ((Jet.mk v (some ⟨g, some c, a⟩)).add ⟨w, some ⟨h, some e, b⟩⟩).inputs =
        max g.length h.length := length_zipWith_gradientTo (· + ·) _ _
    rw [hinputs]
    exact within_bumpAll (within_mono hx (le_max_left _ _)) (within_mono hy (le_max_right _ _)) id
  all_goals assumption

theorem within_product (hx : x.stored.Within x.inputs) (hy : y.stored.Within y.inputs) :
    (x.mul y).stored.Within (x.mul y).inputs := by
  rcases x with ⟨v, _ | ⟨g, oc, a⟩⟩ <;> rcases y with ⟨w, _ | ⟨h, oe, b⟩⟩
  · exact within_nil _
  · exact within_scale _ hy v
  · exact within_scale _ hx w
  · have hinputs : ((Jet.mk v (some ⟨g, oc, a⟩)).mul ⟨w, some ⟨h, oe, b⟩⟩).inputs =
        max g.length h.length := length_zipWith_gradientTo (fun p q => v * q + w * p) _ _
    rw [hinputs]
    rcases oc with _ | c <;> rcases oe with _ | e
    case some.some =>
      refine (stored_of_curvature (curvature_mul v w g h c e a b) (v * w)).symm ▸
        within_bumps (within_bumpAll (within_bumpAll (within_nil _)
          (within_mono hy (le_max_right _ _)) _) (within_mono hx (le_max_left _ _)) _) ?_
      intro i hi
      obtain ⟨p, hp, hi⟩ := List.mem_flatMap.mp hi
      obtain ⟨q, hq, rfl⟩ := List.mem_map.mp hi
      have hp : p.1 < max g.length h.length := lt_of_mem_gradientTo (le_max_left _ _) hp
      have hq : q.1 < max g.length h.length := lt_of_mem_gradientTo (le_max_right _ _) hq
      exact ⟨hp, hq⟩
    all_goals exact within_nil _

end Jets

/-! ## Computed jets -/

section Computed

/-- All operations come down to four. -/
theorem computed_induction {P : Jet α → Prop} (hconstant : ∀ v, P (.constant v))
    (hseed : ∀ v index inputs secondOrder, index < inputs → P (.seed v index inputs secondOrder))
    (htrainable : ∀ v, P (.trainable v)) (hvalue : ∀ x v, P x → P (x.withValue v))
    (hscale : ∀ x k, P x → P (x.scale k)) (hchain : ∀ x f0 f1 f2, P x → P (x.chain f0 f1 f2))
    (hadd : ∀ x y, P x → P y → P (x.add y)) (hmul : ∀ x y, P x → P y → P (x.mul y))
    {x : Jet α} (h : x.Computed) : P x := by
  induction h with
  | constant v => exact hconstant v
  | seed v hindex secondOrder => exact hseed v _ _ secondOrder hindex
  | trainable v => exact htrainable v
  | withValue _ v ih => exact hvalue _ v ih
  | unary f _ ih =>
    cases f with
    | neg => exact hscale _ (-1) ih
    | frozen => exact hconstant _
    | _ => exact hchain _ _ _ _ ih
  | power _ n ih =>
    unfold Jet.power
    split
    · exact hconstant 1
    · split
      · exact ih
      · exact hchain _ _ _ _ ih
  | binary f _ _ ihx ihy =>
    cases f with
    | add => exact hadd _ _ ihx ihy
    | sub => exact hadd _ _ ihx (hscale _ (-1) ihy)
    | mul => exact hmul _ _ ihx ihy
    | div =>
      show P (Jet.div _ _)
      unfold Jet.div
      split
      · exact hscale _ _ ihx
      · exact hmul _ _ ihx (hchain _ _ _ _ ihy)

/-- The stored pairs of a computed jet are in order and name inputs. -/
theorem within_of_computed {x : Jet α} (h : x.Computed) : x.stored.Within x.inputs := by
  refine computed_induction (P := fun x => x.stored.Within x.inputs) (fun v => within_nil _)
    (fun v index inputs secondOrder _ => ?_) (fun v => within_nil _) (fun x v hx => hx)
    (fun x k hx => within_scale x hx k) (fun x f0 f1 f2 hx => within_chain x hx f0 f1 f2)
    within_sum within_product h
  cases secondOrder <;> exact within_nil _

end Computed

/-! ## Nonzero second derivatives -/

section Bends

variable {x : Jet α}

theorem mem_bends {i j : ℕ} {v : α} :
    (i, j, v) ∈ x.bends ↔ i ≤ j ∧ j < x.inputs ∧ x.bend i j = v ∧ (v == 0) = false := by
  unfold Jet.bends
  simp only [List.mem_flatMap, List.mem_filterMap, List.mem_range]
  constructor
  · rintro ⟨p, hp, k, hk, h⟩
    split at h
    · cases h
    · next hne =>
      obtain ⟨rfl, rfl, rfl⟩ : p = i ∧ p + k = j ∧ x.bend p (p + k) = v := by simpa using h
      exact ⟨by omega, by omega, rfl, Bool.eq_false_iff.mpr hne⟩
  · rintro ⟨hle, hlt, rfl, hne⟩
    refine ⟨i, by omega, j - i, by omega, ?_⟩
    rw [Nat.add_sub_cancel' hle, if_neg (Bool.eq_false_iff.mp hne)]

/-- They are listed in the order of their pairs. -/
theorem pairwise_bends (x : Jet α) :
    x.bends.Pairwise fun a b => pairLt (a.1, a.2.1) (b.1, b.2.1) = true := by
  have hitem : ∀ i k, ∀ e ∈ (if x.bend i (i + k) == 0 then none
      else some (i, i + k, x.bend i (i + k))), e.1 = i ∧ e.2.1 = i + k := by
    intro i k e he
    split at he
    · cases he
    · obtain rfl := Option.some.inj he
      exact ⟨rfl, rfl⟩
  unfold Jet.bends
  rw [List.pairwise_flatMap]
  constructor
  · intro i _
    rw [List.pairwise_filterMap]
    refine List.pairwise_lt_range.imp fun {k k'} hk e he e' he' => ?_
    obtain ⟨hfirst, hsecond⟩ := hitem i k e he
    obtain ⟨hfirst', hsecond'⟩ := hitem i k' e' he'
    rw [pairLt_iff]
    omega
  · refine List.pairwise_lt_range.imp fun {i i'} hi e he e' he' => ?_
    obtain ⟨k, -, he⟩ := List.mem_filterMap.mp he
    obtain ⟨k', -, he'⟩ := List.mem_filterMap.mp he'
    obtain ⟨hfirst, -⟩ := hitem i k e he
    obtain ⟨hfirst', -⟩ := hitem i' k' e' he'
    rw [pairLt_iff]
    omega

/-- An entry other than zero is listed. -/
theorem mem_of_entry (h0 : ((0 : α) == 0) = true) {c : Curvature α} {i j : ℕ} (hle : i ≤ j)
    (hne : (c.entry i j == 0) = false) : ((i, j), c.entry i j) ∈ c := by
  unfold entry at hne ⊢
  rw [pair_of_le hle] at hne ⊢
  cases hlookup : c.lookup (i, j) with
  | none =>
    rw [hlookup, Option.getD_none, h0] at hne
    cases hne
  | some v =>
    obtain ⟨before, after, hc, -⟩ := List.lookup_eq_some_iff.mp hlookup
    rw [hc]
    exact List.mem_append_right _ List.mem_cons_self

/-- The nonzero second derivatives are the stored ones without the zeros. -/
theorem bends_eq_stored (h0 : ((0 : α) == 0) = true) (h : x.stored.Within x.inputs) :
    x.bends = (x.stored.filter fun e => !(e.2 == 0)).map fun ((i, j), v) => (i, j, v) := by
  let before (a b : ℕ × ℕ × α) : Prop := pairLt (a.1, a.2.1) (b.1, b.2.1) = true
  have : Std.Irrefl before := ⟨fun _ => pairLt_irrefl _⟩
  have : Std.Antisymm before :=
    ⟨fun _ _ hab hba => absurd (pairLt_trans hab hba) (pairLt_irrefl _)⟩
  refine List.Pairwise.eq_of_mem_iff (r := before) (pairwise_bends x) ?_ ?_
  · rw [List.pairwise_map]
    exact h.ordered.rising.filter _
  rintro ⟨i, j, v⟩
  have hmem :
      (i, j, v) ∈ (x.stored.filter fun e => !(e.2 == 0)).map (fun ((i, j), v) => (i, j, v)) ↔
      ((i, j), v) ∈ x.stored ∧ (v == 0) = false := by
    simp [List.mem_map, List.mem_filter]
  rw [mem_bends, hmem]
  constructor
  · rintro ⟨hle, -, rfl, hne⟩
    exact ⟨mem_of_entry h0 hle hne, hne⟩
  · rintro ⟨hstored, hne⟩
    exact ⟨h.ordered.ordered _ hstored, h.lt _ hstored, entry_of_mem h.ordered hstored, hne⟩

/-- The entries are the nonzero second derivatives and the zeros. -/
theorem secondOrderCount_eq (h0 : ((0 : α) == 0) = true) (h : x.stored.Within x.inputs) :
    x.secondOrderCount = x.bends.length + (x.stored.filter (·.2 == 0)).length := by
  rw [bends_eq_stored h0 h, List.length_map, Nat.add_comm]
  exact List.length_eq_length_filter_add _

/-- The count is exact when no stored pair has a vanishing second derivative. -/
theorem count_exact_iff (h0 : ((0 : α) == 0) = true) (h : x.stored.Within x.inputs) :
    x.secondOrderCount = x.bends.length ↔ ∀ i j, x.Stores i j → (x.bend i j == 0) = false := by
  rw [secondOrderCount_eq h0 h, Nat.add_eq_left, List.length_eq_zero_iff, List.filter_eq_nil_iff]
  constructor
  · intro hall i j hstores
    obtain ⟨⟨_, v⟩, hmem, rfl⟩ := List.mem_map.mp hstores
    have hbend : x.bend i j = v := entry_of_mem h.ordered hmem
    rw [hbend]
    exact Bool.eq_false_iff.mpr (hall _ hmem)
  · rintro hall ⟨⟨i, j⟩, v⟩ hmem
    have hbend : x.bend i j = v := entry_of_mem h.ordered hmem
    exact Bool.eq_false_iff.mp (hbend ▸ hall i j (holds_of_mem hmem))

end Bends

/-! ## What operations store -/

section Storing

theorem stores_scale (x : Jet α) (k : α) (i j : ℕ) : (x.scale k).Stores i j ↔ x.Stores i j := by
  rcases x with ⟨v, _ | ⟨g, _ | c, a⟩⟩
  · rfl
  · rfl
  · exact holds_mapValues (f := (· * k))

omit [Scalar α] in
theorem not_stores_constant (v : α) (i j : ℕ) : ¬ (Jet.mk v none).Stores i j :=
  List.not_mem_nil

/-- A constant adds no pair, and only scales. -/
theorem stores_with_constant {x : Jet α} (hx : x.isConstant = true) (y : Jet α) (i j : ℕ) :
    ((x.add y).Stores i j ↔ y.Stores i j) ∧ ((y.add x).Stores i j ↔ y.Stores i j) ∧
      ((x.mul y).Stores i j ↔ y.Stores i j) ∧ ((y.mul x).Stores i j ↔ y.Stores i j) := by
  rcases x with ⟨v, _ | d⟩
  · rcases y with ⟨w, _ | e⟩
    · exact ⟨Iff.rfl, Iff.rfl, Iff.rfl, Iff.rfl⟩
    · exact ⟨Iff.rfl, Iff.rfl, stores_scale _ v i j, stores_scale _ v i j⟩
  · cases hx

theorem stores_chain (h0 : ((0 : α) == 0) = true) (x : Jet α) (f0 f1 f2 : α) (i j : ℕ) :
    (x.chain f0 f1 f2).Stores i j ↔ x.Stores i j ∨ x.hasSecondOrder = true ∧ i ≤ j ∧
      (f2 == 0) = false ∧ (x.slope i == 0) = false ∧ (x.slope j == 0) = false ∧
        (f2 * x.slope i * x.slope j == 0) = false := by
  rcases x with ⟨v, _ | ⟨g, _ | c, a⟩⟩
  · -- All slopes of a constant are zero.
    refine iff_of_false List.not_mem_nil ?_
    rintro (hstores | ⟨-, -, -, hslope, -⟩)
    · exact not_stores_constant v i j hstores
    · cases h0.symm.trans hslope
  · refine iff_of_false List.not_mem_nil ?_
    rintro (hstores | ⟨htracked, -⟩)
    · exact List.not_mem_nil hstores
    · cases htracked
  · have hlinear : (c.scaleLeft f1).Holds (i, j) ↔ c.Holds (i, j) := holds_mapValues
    have hx : (Jet.mk v (some ⟨g, some c, a⟩)).Stores i j ↔ c.Holds (i, j) := Iff.rfl
    have hslope (m : ℕ) : (Jet.mk v (some ⟨g, some c, a⟩)).slope m = g.getD m 0 := rfl
    have htracked : (Jet.mk v (some ⟨g, some c, a⟩)).hasSecondOrder = true := rfl
    rw [hx, hslope, hslope, htracked]
    unfold Jet.Stores
    cases hf2 : f2 == 0 with
    | true =>
      have hcurvature : (Derivatives.chain ⟨g, some c, a⟩ f1 f2).curvature =
          some (c.scaleLeft f1) := by simp [Derivatives.chain, hf2]
      have hstored := stored_of_curvature hcurvature f0
      unfold Jet.chain
      rw [Option.map_some, hstored, hlinear]
      simp
    | false =>
      have hstored := stored_of_curvature (curvature_chain f1 f2 g c a hf2) f0
      unfold Jet.chain
      rw [Option.map_some, hstored, holds_upperPairs h0, hlinear]
      simp

theorem stores_add {x y : Jet α} (hx : x.isTrainable = true) (hy : y.isTrainable = true)
    (hordered : y.stored.Ordered) (i j : ℕ) :
    (x.add y).Stores i j ↔ (x.add y).hasSecondOrder = true ∧
      (x.Stores i j ∨ y.Stores i j ∧ (y.bend i j == 0) = false) := by
  rcases x with ⟨v, _ | ⟨g, oc, a⟩⟩
  · cases hx
  rcases y with ⟨w, _ | ⟨h, oe, b⟩⟩
  · cases hy
  rcases oc with _ | c <;> rcases oe with _ | e
  case some.some =>
    have hholds : Holds (c.bumpAll e id) (i, j) ↔
        c.Holds (i, j) ∨ e.Holds (i, j) ∧ (e.entry i j == 0) = false := holds_bumpAll hordered
    exact ⟨fun hstores => ⟨rfl, hholds.mp hstores⟩, fun hand => hholds.mpr hand.2⟩
  all_goals exact iff_of_false List.not_mem_nil fun hand => by cases hand.1

theorem stores_mul (h0 : ((0 : α) == 0) = true) {x y : Jet α} (hx : x.isTrainable = true)
    (hy : y.isTrainable = true) (hordered : x.stored.Ordered) (hordered' : y.stored.Ordered)
    (i j : ℕ) :
    (x.mul y).Stores i j ↔ (x.mul y).hasSecondOrder = true ∧
      (y.Stores i j ∧ (x.value * y.bend i j == 0) = false ∨
        x.Stores i j ∧ (y.value * x.bend i j == 0) = false ∨
        ∃ p q, (min p q, max p q) = (i, j) ∧ (x.slope p == 0) = false ∧ (y.slope q == 0) = false ∧
          ((if p == q then 2.0 * x.slope p * y.slope q else x.slope p * y.slope q) == 0) =
            false) := by
  rcases x with ⟨v, _ | ⟨g, oc, a⟩⟩
  · cases hx
  rcases y with ⟨w, _ | ⟨h, oe, b⟩⟩
  · cases hy
  rcases oc with _ | c <;> rcases oe with _ | e
  case some.some =>
    have hc : c.Ordered := hordered
    have he : e.Ordered := hordered'
    have hnone : ¬ Holds ([] : Curvature α) (i, j) := List.not_mem_nil
    have hstored := stored_of_curvature (curvature_mul v w g h c e a b) (v * w)
    unfold Jet.Stores
    show Holds (Jet.stored ⟨v * w, _⟩) (i, j) ↔ _
    rw [hstored, holds_crossPairs h0, holds_bumpAll hc, holds_bumpAll he, or_iff_right hnone,
      or_assoc]
    simp only [getD_gradientTo]
    exact ⟨fun hreached => ⟨rfl, hreached⟩, fun hand => hand.2⟩
  all_goals exact iff_of_false List.not_mem_nil fun hand => by cases hand.1

end Storing

/-- The stored pairs are in order and name inputs, and the nonzero second derivatives are the stored
    ones without the zeros, so that their number is the count exactly when no stored pair has a
    vanishing second derivative.  Which pairs are stored is told operation by operation. -/
theorem stored_second_derivatives (h0 : ((0 : α) == 0) = true) :
    (∀ x : Jet α, x.Computed →
      (x.stored.Pairwise fun a b => pairLt a.1 b.1) ∧
      (∀ e ∈ x.stored, e.1.1 ≤ e.1.2 ∧ e.1.2 < x.inputs) ∧
      (x.bends = (x.stored.filter fun e => !(e.2 == 0)).map fun ((i, j), v) => (i, j, v)) ∧
      x.secondOrderCount = x.bends.length + (x.stored.filter (·.2 == 0)).length ∧
      (x.secondOrderCount = x.bends.length ↔
        ∀ i j, x.Stores i j → (x.bend i j == 0) = false)) ∧
    Jet.Storing α := by
  refine ⟨fun x hx => ?_, ?_⟩
  · have hwithin := within_of_computed hx
    exact ⟨hwithin.ordered.rising, fun e he => ⟨hwithin.ordered.ordered e he, hwithin.lt e he⟩,
      bends_eq_stored h0 hwithin, secondOrderCount_eq h0 hwithin, count_exact_iff h0 hwithin⟩
  · exact {
      constant := fun _ y hx => stores_with_constant hx y
      scale := stores_scale
      chain := stores_chain h0
      add := fun _ _ hx hy hcomputed => stores_add hx hy (within_of_computed hcomputed).ordered
      mul := fun _ _ hx hy hcomputed hcomputed' => stores_mul h0 hx hy
        (within_of_computed hcomputed).ordered (within_of_computed hcomputed').ordered }

/-- One of two numbers. -/
def firstInput : Jet Float := .seed 2 0 2 true

def secondInput : Jet Float := .seed 5 1 2 true

theorem computed_firstInput : firstInput.Computed := .seed 2 (by decide) true

theorem computed_secondInput : secondInput.Computed := .seed 5 (by decide) true

/-- A product with a sum stores what does not vanish. -/
theorem stored_second_derivatives_product :
    ((0 : Float) == 0) = true ∧ (firstInput * (firstInput + secondInput)).Computed ∧
      (firstInput * (firstInput + secondInput)).stored = [((0, 0), 2), ((0, 1), 1)] ∧
      (firstInput * (firstInput + secondInput)).secondOrderCount =
        (firstInput * (firstInput + secondInput)).bends.length := by
  have h0 : ((0 : Float) == 0) = true := by decide
  have hcomputed : (firstInput * (firstInput + secondInput)).Computed :=
    .binary .mul computed_firstInput (.binary .add computed_firstInput computed_secondInput)
  obtain ⟨-, -, -, hcount, -⟩ := (stored_second_derivatives h0).1 _ hcomputed
  exact ⟨h0, hcomputed, rfl, hcount⟩

/-- The bend of a product is still stored after it has cancelled. -/
theorem stored_cancellation :
    ¬ ∀ x : Jet Float, x.Computed → (∀ e ∈ x.stored, (e.2 == 0) = false) ∧
      x.secondOrderCount = x.bends.length := by
  intro hall
  obtain ⟨-, hcount⟩ := hall (firstInput * secondInput - firstInput * secondInput)
    (.binary .sub (.binary .mul computed_firstInput computed_secondInput)
      (.binary .mul computed_firstInput computed_secondInput))
  have hstored : (firstInput * secondInput - firstInput * secondInput).secondOrderCount = 1 := rfl
  have hbends : (firstInput * secondInput - firstInput * secondInput).bends.length = 0 := rfl
  rw [hstored, hbends] at hcount
  cases hcount

end Proofs

end CircuitGrad
