import CircuitGrad.Proofs.ExpressionSemantics
import CircuitGrad.Proofs.JetCalculus

/-! # What jets do not depend on

    Two facts about the jet of an expression that hold at every point alike.
    Whether second derivatives are tracked does not matter to anything else:
    forgetting them commutes with every operation (`forgetBends_reseed`).
    And a flag that is set at one point is set for a reason that holds at all
    points (`Flagged.expression`): a constant jet is the same everywhere, and
    an affine one has the same slopes everywhere and stores no bends.
-/

namespace CircuitGrad

namespace Proofs

variable {n : ℕ}

/-! ## Seeds of either order -/

/-- The jet without its second derivatives. -/
def forgetBends (x : Jet ℝ) : Jet ℝ :=
  ⟨x.value, x.derivatives.map fun d => { d with curvature := none }⟩

section Forget

variable (x y : Jet ℝ)

theorem forgetBends_chain (f0 f1 f2 : ℝ) :
    forgetBends (x.chain f0 f1 f2) = (forgetBends x).chain f0 f1 f2 := by
  rcases x with ⟨v, _ | d⟩ <;> rfl

theorem forgetBends_scale (k : ℝ) : forgetBends (x.scale k) = (forgetBends x).scale k := by
  rcases x with ⟨v, _ | d⟩ <;> rfl

theorem forgetBends_add : forgetBends (x.add y) = (forgetBends x).add (forgetBends y) := by
  rcases x with ⟨v, _ | d⟩ <;> rcases y with ⟨w, _ | e⟩ <;> rfl

theorem forgetBends_mul : forgetBends (x.mul y) = (forgetBends x).mul (forgetBends y) := by
  rcases x with ⟨v, _ | d⟩ <;> rcases y with ⟨w, _ | e⟩ <;> rfl

theorem forgetBends_power (k : ℤ) : forgetBends (x.power k) = (forgetBends x).power k := by
  unfold Jet.power
  split_ifs
  · rfl
  · rfl
  · exact forgetBends_chain x _ _ _

theorem forgetBends_unary (φ : UnaryFunction) :
    forgetBends (φ.apply x) = φ.apply (forgetBends x) := by
  cases φ with
  | neg => exact forgetBends_scale x (-1)
  | frozen => rfl
  | _ => exact forgetBends_chain x _ _ _

theorem forgetBends_binary (φ : BinaryFunction) :
    forgetBends (φ.apply x y) = φ.apply (forgetBends x) (forgetBends y) := by
  cases φ with
  | add => exact forgetBends_add x y
  | sub =>
    have h := forgetBends_add x (y.scale (-1))
    rw [forgetBends_scale] at h
    exact h
  | mul => exact forgetBends_mul x y
  | div =>
    have h := forgetBends_mul x y.recip
    rw [← div_eq_mul_recip] at h
    refine h.trans ?_
    rw [show forgetBends y.recip = (forgetBends y).recip from forgetBends_chain y _ _ _]
    exact (div_eq_mul_recip _ _).symm

end Forget

/-- Up to the second derivatives, the order of the seeds does not matter. -/
theorem forgetBends_reseed (secondOrder : Bool) (e : Expression (Leaf n)) (p : Fin n → ℝ) :
    forgetBends ((e.reseed secondOrder).jet p) = forgetBends (e.jet p) := by
  induction e with
  | leaf l => cases l <;> rfl
  | unary φ x ih =>
    have h := congrArg φ.apply ih
    rw [← forgetBends_unary, ← forgetBends_unary] at h
    exact h
  | power x k ih =>
    have h := congrArg (Jet.power · k) ih
    simp only [← forgetBends_power] at h
    exact h
  | binary φ x y ihx ihy =>
    have h := congrArg₂ φ.apply ihx ihy
    rw [← forgetBends_binary, ← forgetBends_binary] at h
    exact h

theorem value_forgetBends (x : Jet ℝ) : (forgetBends x).value = x.value := rfl

theorem gradient_forgetBends (x : Jet ℝ) : (forgetBends x).gradient? = x.gradient? := by
  rcases x with ⟨v, _ | d⟩ <;> rfl

theorem isAffine_forgetBends (x : Jet ℝ) : (forgetBends x).isAffine = x.isAffine := by
  rcases x with ⟨v, _ | d⟩ <;> rfl

/-! ## Affine expressions -/

/-- No second derivative is stored. -/
def Flat (x : Jet ℝ) : Prop :=
  ∀ d, x.derivatives = some d → ∀ c, d.curvature = some c → c = []

theorem bend_of_flat {x : Jet ℝ} (h : Flat x) (i j : ℕ) : x.bend i j = 0 := by
  rcases x with ⟨v, _ | ⟨g, _ | c, a⟩⟩
  · rfl
  · rfl
  · obtain rfl := h _ rfl c rfl
    rfl

theorem flat_scale {x : Jet ℝ} (h : Flat x) (k : ℝ) : Flat (x.scale k) := by
  rcases x with ⟨v, _ | ⟨g, _ | c, a⟩⟩
  · exact fun d hd => by cases hd
  · exact fun d hd c hc => by cases hd; cases hc
  · obtain rfl := h _ rfl c rfl
    exact fun d hd c hc => by cases hd; cases hc; rfl

theorem flat_add {x y : Jet ℝ} (hx : Flat x) (hy : Flat y) : Flat (x.add y) := by
  rcases x with ⟨v, _ | ⟨g, _ | c, a⟩⟩ <;> rcases y with ⟨w, _ | ⟨h, _ | e, b⟩⟩
  case some.some.some.some =>
    obtain rfl := hx _ rfl c rfl
    obtain rfl := hy _ rfl e rfl
    exact fun d hd c hc => by cases hd; cases hc; rfl
  case some.none.some.some | some.some.some.none | some.none.some.none =>
    exact fun d hd c hc => by cases hd; cases hc
  all_goals assumption

/-! ### Flags -/

section Flags

variable (x y : Jet ℝ)

theorem isConstant_scale (k : ℝ) : (x.scale k).isConstant = x.isConstant := by
  rcases x with ⟨v, _ | d⟩ <;> rfl

theorem isAffine_scale (k : ℝ) : (x.scale k).isAffine = x.isAffine := by
  rcases x with ⟨v, _ | d⟩ <;> rfl

theorem isConstant_chain (f0 f1 f2 : ℝ) : (x.chain f0 f1 f2).isConstant = x.isConstant := by
  rcases x with ⟨v, _ | d⟩ <;> rfl

/-- Only constants are affine after the chain rule. -/
theorem isAffine_chain (f0 f1 f2 : ℝ) : (x.chain f0 f1 f2).isAffine = x.isConstant := by
  rcases x with ⟨v, _ | d⟩ <;> rfl

theorem isConstant_add : (x.add y).isConstant = (x.isConstant && y.isConstant) := by
  rcases x with ⟨v, _ | d⟩ <;> rcases y with ⟨w, _ | e⟩ <;> rfl

theorem isAffine_add : (x.add y).isAffine = (x.isAffine && y.isAffine) := by
  rcases x with ⟨v, _ | ⟨g, c, a⟩⟩ <;> rcases y with ⟨w, _ | ⟨h, e, b⟩⟩
  · rfl
  · rfl
  · exact (Bool.and_true a).symm
  · rfl

/-- A product of two jets with derivatives is neither constant nor affine. -/
theorem flags_mul (hx : x.isConstant = false) (hy : y.isConstant = false) :
    (x.mul y).isConstant = false ∧ (x.mul y).isAffine = false := by
  rcases x with ⟨v, _ | d⟩
  · cases hx
  · rcases y with ⟨w, _ | e⟩
    · cases hy
    · exact ⟨rfl, rfl⟩

end Flags

/-- The jets `J` are those of one affine function at every point. -/
def Affinely (J : (Fin n → ℝ) → Jet ℝ) : Prop :=
  ∃ (a : ℝ) (b : Fin n → ℝ), ∀ q, (J q).value = a + ∑ i, b i * q i ∧
    (∀ i : Fin n, (J q).slope i = b i) ∧ Flat (J q)

namespace Affinely

variable {J K : (Fin n → ℝ) → Jet ℝ}

theorem constant (v : ℝ) : Affinely fun _ : Fin n → ℝ => Jet.constant v := by
  refine ⟨v, fun _ => 0, fun q => ⟨?_, fun i => rfl, fun d hd => by cases hd⟩⟩
  simp [Jet.constant]

theorem scale (h : Affinely J) (k : ℝ) : Affinely fun q => (J q).scale k := by
  obtain ⟨a, b, h⟩ := h
  refine ⟨a * k, fun i => k * b i, fun q => ?_⟩
  obtain ⟨hvalue, hslope, hflat⟩ := h q
  refine ⟨?_, fun i => ?_, ?_⟩
  · rw [value_scale, hvalue, add_mul, mul_comm (∑ i, _), Finset.mul_sum]
    simp only [mul_assoc]
  · rw [slope_scale, hslope]
  · exact flat_scale hflat k

theorem add (hJ : Affinely J) (hK : Affinely K) : Affinely fun q => (J q).add (K q) := by
  obtain ⟨a, b, hJ⟩ := hJ
  obtain ⟨a', b', hK⟩ := hK
  refine ⟨a + a', fun i => b i + b' i, fun q => ?_⟩
  obtain ⟨hvalue, hslope, hflat⟩ := hJ q
  obtain ⟨hvalue', hslope', hflat'⟩ := hK q
  refine ⟨?_, fun i => ?_, ?_⟩
  · rw [value_add, hvalue, hvalue']
    simp only [add_mul, Finset.sum_add_distrib]
    ring
  · rw [slope_add, hslope, hslope']
  · exact flat_add hflat hflat'

end Affinely

/-- The flags of the jets `J` hold everywhere once they hold anywhere, and for
    a reason. -/
structure Flagged (J : (Fin n → ℝ) → Jet ℝ) : Prop where
  constant : ∀ q, (J q).isConstant → ∃ v, ∀ q', J q' = .constant v
  affine   : ∀ q, (J q).isAffine → Affinely J

namespace Flagged

variable {J K : (Fin n → ℝ) → Jet ℝ}

theorem of_constant {v : ℝ} (h : ∀ q, J q = .constant v) : Flagged J where
  constant _ _ := ⟨v, h⟩
  affine _ _ := funext h ▸ Affinely.constant v

theorem leaf (l : Leaf n) : Flagged fun q => l.jet q := by
  cases l with
  | constant x => exact of_constant fun _ => rfl
  | trainable x =>
    refine ⟨fun q hq => (by cases hq), fun q _ => ⟨x, fun _ => 0, fun q => ⟨?_, fun i => rfl, ?_⟩⟩⟩
    · simp [Leaf.jet, Jet.trainable]
    · exact fun d hd c hc => by cases hd; cases hc; rfl
  | input k secondOrder =>
    refine ⟨fun q hq => (by cases hq),
      fun q _ => ⟨0, fun i => if k = i then 1 else 0, fun q => ⟨?_, fun i => ?_, ?_⟩⟩⟩
    · simp [Leaf.jet, Jet.seed]
    · exact slope_seed (q k) k i secondOrder
    · intro d hd c hc
      cases hd
      cases secondOrder <;> cases hc
      rfl

theorem chain (h : Flagged J) (op : Jet ℝ → Jet ℝ)
    (hop : ∀ x, ∃ f0 f1 f2, op x = x.chain f0 f1 f2) : Flagged fun q => op (J q) := by
  have hconst : ∀ q, (J q).isConstant → ∃ v, ∀ q', op (J q') = .constant v := by
    intro q hq
    obtain ⟨v, hv⟩ := h.constant q hq
    obtain ⟨f0, f1, f2, hf⟩ := hop (.constant v)
    exact ⟨f0, fun q' => by rw [hv, hf]; rfl⟩
  constructor
  · intro q hq
    obtain ⟨f0, f1, f2, hf⟩ := hop (J q)
    rw [hf, isConstant_chain] at hq
    exact hconst q hq
  · intro q hq
    obtain ⟨f0, f1, f2, hf⟩ := hop (J q)
    rw [hf, isAffine_chain] at hq
    obtain ⟨v, hv⟩ := hconst q hq
    exact funext hv ▸ Affinely.constant v

theorem scale (h : Flagged J) (k : ℝ) : Flagged fun q => (J q).scale k where
  constant q hq := by
    rw [isConstant_scale] at hq
    obtain ⟨v, hv⟩ := h.constant q hq
    exact ⟨v * k, fun q' => by rw [hv]; rfl⟩
  affine q hq := by
    rw [isAffine_scale] at hq
    exact (h.affine q hq).scale k

theorem add (hJ : Flagged J) (hK : Flagged K) : Flagged fun q => (J q).add (K q) where
  constant q hq := by
    rw [isConstant_add, Bool.and_eq_true] at hq
    obtain ⟨v, hv⟩ := hJ.constant q hq.1
    obtain ⟨w, hw⟩ := hK.constant q hq.2
    exact ⟨v + w, fun q' => by rw [hv, hw]; rfl⟩
  affine q hq := by
    rw [isAffine_add, Bool.and_eq_true] at hq
    exact (hJ.affine q hq.1).add (hK.affine q hq.2)

/-- A product is affine when one factor is constant and the other affine. -/
theorem mul (hJ : Flagged J) (hK : Flagged K) : Flagged fun q => (J q).mul (K q) := by
  -- A factor that is constant at one point is constant at all, and scales the other.
  by_cases hconst : (∃ q, (J q).isConstant) ∨ ∃ q, (K q).isConstant
  · rcases hconst with ⟨q, hq⟩ | ⟨q, hq⟩
    · obtain ⟨v, hv⟩ := hJ.constant q hq
      have heq : (fun q => (J q).mul (K q)) = fun q => (K q).scale v :=
        funext fun q => by rw [hv]; exact constant_mul (K q) v
      exact heq ▸ hK.scale v
    · obtain ⟨w, hw⟩ := hK.constant q hq
      have heq : (fun q => (J q).mul (K q)) = fun q => (J q).scale w :=
        funext fun q => by rw [hw]; exact mul_constant (J q) w
      exact heq ▸ hJ.scale w
  -- Two factors that are nowhere constant: no flag is ever set.
  · have hflags : ∀ q, ((J q).mul (K q)).isConstant = false ∧
        ((J q).mul (K q)).isAffine = false := by
      intro q
      refine flags_mul _ _ ?_ ?_
      · exact Bool.eq_false_iff.mpr fun h => hconst (.inl ⟨q, h⟩)
      · exact Bool.eq_false_iff.mpr fun h => hconst (.inr ⟨q, h⟩)
    constructor
    · intro q hq
      rw [(hflags q).1] at hq
      cases hq
    · intro q hq
      rw [(hflags q).2] at hq
      cases hq

theorem power (h : Flagged J) (k : ℤ) : Flagged fun q => (J q).power k := by
  by_cases hzero : k = 0
  · refine of_constant (v := 1) fun q => ?_
    rw [Jet.power, if_pos hzero]
  by_cases hone : k = 1
  · have heq : (fun q => (J q).power k) = J := funext fun q => by
      rw [Jet.power, if_neg hzero, if_pos hone]
    rw [heq]
    exact h
  · refine h.chain (fun x => x.power k) fun x => ?_
    rw [Jet.power, if_neg hzero, if_neg hone]
    exact ⟨_, _, _, rfl⟩

theorem unary (h : Flagged J) {φ : UnaryFunction} (hkeep : φ ≠ .frozen) :
    Flagged fun q => φ.apply (J q) := by
  cases φ with
  | neg => exact h.scale (-1)
  | frozen => exact absurd rfl hkeep
  | _ => exact h.chain _ fun x => ⟨_, _, _, rfl⟩

theorem binary (hJ : Flagged J) (hK : Flagged K) (φ : BinaryFunction) :
    Flagged fun q => φ.apply (J q) (K q) := by
  cases φ with
  | add => exact hJ.add hK
  | sub => exact hJ.add (hK.scale (-1))
  | mul => exact hJ.mul hK
  | div =>
    -- A quotient is the product with the reciprocal.
    have h := hJ.mul (hK.unary (φ := .recip) (by decide))
    simp only [UnaryFunction.apply, ← div_eq_mul_recip] at h
    exact h

theorem expression {e : Expression (Leaf n)} (hadm : e.Admissible) :
    Flagged fun q => e.jet q := by
  induction e with
  | leaf l => exact leaf l
  | unary φ x ih => exact (ih hadm.2).unary hadm.1
  | power x k ih => exact (ih hadm.2.2).power k
  | binary φ x y ihx ihy => exact (ihx hadm.1).binary (ihy hadm.2) φ

end Flagged

end Proofs

end CircuitGrad
