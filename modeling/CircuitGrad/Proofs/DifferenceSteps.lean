import CircuitGrad.Binding.Config
import CircuitGrad.Proofs.MissingBatches
import CircuitGrad.Proofs.PlanAlgebra

/-! # Steps of difference quotients

    A difference quotient divides by its step, which should therefore be
    positive and finite.  The step is given in three places.  The plan of
    difference quotients checks it (`differences_ok_iff`).  The plan of the
    parameter-shift rule takes it for gates without a rule of their own, and
    never looks at it (`shifts_agree`), no more than the transform that takes
    it as an argument.  The settings of a binding check it in other words:
    they refuse what is not a number and what is not above zero, which leaves
    positive infinity (`steps_accepted`).
-/

namespace CircuitGrad

variable {α : Type} [Scalar α]

/-- A step to divide by. -/
def UsableStep (h : α) : Prop := Scalar.isFinite h ∧ Scalar.lt 0 h

/-- The parameter is one of a gate that asks for difference quotients and has no rule for it. -/
def Trace.Approximated (t : Trace α) (i : ℕ) : Prop :=
  ∃ o p op, t.paramLocation? i = some (o, p) ∧ t.operations[o]? = some op ∧
    op.shiftRule? p = none ∧ op.spec.gradMethod = .numeric

/-- The positive float that is not finite. -/
def infinity : Float := 1.0 / 0.0

namespace Proofs

/-! ## Positive floats -/

section Floats

open Float.Model Float.Model.UnpackedFloat

theorem unpack_zero : (0 : Float).toModel.unpack = .zero .positive := rfl

theorem lt_unpack (x y : Float) : Scalar.lt x y = x.toModel.unpack.lt y.toModel.unpack := by
  have hlt : Scalar.lt x y = decide (decide (x.toModel.unpack.lt y.toModel.unpack = true) = true) :=
    rfl
  rw [hlt, Bool.decide_eq_true, Bool.decide_eq_true]

theorem le_unpack (x y : Float) : Scalar.le x y = x.toModel.unpack.le y.toModel.unpack := by
  have hle : Scalar.le x y = decide (decide (x.toModel.unpack.le y.toModel.unpack = true) = true) :=
    rfl
  rw [hle, Bool.decide_eq_true, Bool.decide_eq_true]

/-- What is a number and not below or equal to zero is above zero. -/
theorem positive_iff (h : Float) :
    (Scalar.isNaN h || Scalar.le h 0) = false ↔ Scalar.lt 0 h = true := by
  have hnan : Scalar.isNaN h = h.toModel.unpack.isNaN := rfl
  rw [hnan, lt_unpack, le_unpack, unpack_zero]
  cases h.toModel.unpack with
  | infinity s => cases s <;> decide
  | notANumber => decide
  | zero s => cases s <;> decide
  | finite s m e hm =>
    cases s <;> simp [UnpackedFloat.le, UnpackedFloat.lt, UnpackedFloat.compare,
      UnpackedFloat.isNaN]

/-- The largest exponent, no mantissa and no sign are the bits of infinity. -/
theorem bits_of_fields {b : BitVec 64} (hexponent : @unpackExponent Format.binary64 b = -1#11)
    (hmantissa : @unpackMantissa Format.binary64 b = 0#52)
    (hsign : @unpackSign Format.binary64 b = 0#1) : b = 0x7FF0000000000000#64 := by
  have hexponent := congrArg BitVec.toNat hexponent
  have hmantissa := congrArg BitVec.toNat hmantissa
  have hsign := congrArg BitVec.toNat hsign
  simp [unpackExponent, unpackMantissa, unpackSign, BitVec.extractLsb_toNat,
    Nat.shiftRight_eq_div_pow] at hexponent hmantissa hsign
  have hlt := b.isLt
  refine BitVec.eq_of_toNat_eq ?_
  rw [BitVec.toNat_ofNat]
  omega

/-- A float is packed in one way if it is infinite. -/
theorem eq_infinity {h : Float} (hunpack : h.toModel.unpack = .infinity .positive) :
    h = infinity := by
  have hbits : h.toModel.toBits.toBitVec = 0x7FF0000000000000#64 := by
    change UnpackedFloat.unpack Format.binary64 h.toModel.toBits.toBitVec = _ at hunpack
    generalize h.toModel.toBits.toBitVec = b at hunpack
    unfold UnpackedFloat.unpack at hunpack
    dsimp only at hunpack
    split at hunpack
    · next hexponent =>
      split at hunpack
      · next hmantissa =>
        have hsign : @unpackSign Format.binary64 b = 0#1 := by
          by_contra hne
          have hnegative : Sign.ofBitVec (@unpackSign Format.binary64 b) = .negative := if_neg hne
          rw [hnegative] at hunpack
          cases hunpack
        exact bits_of_fields hexponent hmantissa hsign
      · cases hunpack
    · split at hunpack
      · split at hunpack <;> cases hunpack
      · cases hunpack
  obtain ⟨⟨bits, hvalid⟩⟩ := h
  have hsame : bits = infinity.toModel.toBits := UInt64.toBitVec_inj.mp hbits
  subst hsame
  rfl

theorem usableStep_iff (h : Float) : Scalar.lt 0 h = true ↔ UsableStep h ∨ h = infinity := by
  have hfinite : Scalar.isFinite h = h.toModel.unpack.isFinite := rfl
  constructor
  · intro hpositive
    rw [UsableStep, hfinite]
    cases hunpack : h.toModel.unpack with
    | infinity s =>
      rw [lt_unpack, unpack_zero, hunpack] at hpositive
      cases s with
      | positive => exact .inr (eq_infinity hunpack)
      | negative => cases hpositive
    | notANumber =>
      rw [lt_unpack, unpack_zero, hunpack] at hpositive
      cases hpositive
    | zero s => exact .inl ⟨rfl, hpositive⟩
    | finite s m e hm => exact .inl ⟨rfl, hpositive⟩
  · rintro (⟨-, hpositive⟩ | rfl)
    · exact hpositive
    · decide

/-- The settings of a binding let one unusable step pass. -/
theorem settings_accept_iff {c : BindingConfig Float} {h : Float}
    (hmethod : c.method = .finiteDifference h) : c.validate = .ok () ↔
      (UsableStep h ∨ h = infinity) ∧ c.maxOrder ≠ 0 := by
  rw [← usableStep_iff, ← positive_iff]
  unfold BindingConfig.validate DiffMethod.isEnabled
  rw [hmethod]
  dsimp only
  split
  · next hrefused => exact iff_of_false nofun fun hand => Bool.eq_false_iff.mp hand.1 hrefused
  · next haccepted =>
    by_cases horder : c.maxOrder = 0
    · rw [horder]
      exact iff_of_false nofun fun hand => hand.2 rfl
    · refine iff_of_true ?_ ⟨Bool.eq_false_iff.mpr haccepted, horder⟩
      simp only [horder, decide_false, Bool.and_false, Bool.false_eq_true, if_false]
      rfl

end Floats

/-! ## Plans -/

section Plans

variable {t : Trace α}

/-- The plan of difference quotients checks its step, and asks nothing else of it. -/
theorem differences_ok_iff (c : DifferenceConfig α) : (∃ p, FiniteDifference.plan t c = .ok p) ↔
    UsableStep c.step ∧ t.checkDifferentiable = .ok () ∧
      (∃ selected, t.selectTrainable c.parameters = .ok selected) ∧
      ∃ shape, t.outputShape = .ok shape := by
  constructor
  · rintro ⟨p, hp⟩
    obtain ⟨_, hcheck, hp⟩ := bind_eq_ok hp
    split at hp
    · cases hp
    · next hstep =>
      obtain ⟨selected, hselected, hp⟩ := bind_eq_ok hp
      obtain ⟨shape, hshape, -⟩ := bind_eq_ok hp
      refine ⟨?_, hcheck, ⟨selected, hselected⟩, shape, hshape⟩
      simpa [UsableStep] using hstep
  · rintro ⟨⟨hfinite, hpositive⟩, hcheck, ⟨selected, hselected⟩, shape, hshape⟩
    obtain ⟨traces, htraces⟩ := exists_differenceTraces c (mem_selectTrainable hselected)
    unfold FiniteDifference.plan
    rw [hcheck, ok_bind, hfinite, hpositive, hselected, ok_bind, hshape, ok_bind, htraces]
    cases hnil : selected.isEmpty <;> exact ⟨_, rfl⟩

/-- Another step gives another rule, with as many terms. -/
theorem shiftRule_agree (i : ℕ) (h h' : α) :
    Agree (fun r r' => r.terms.length = r'.terms.length) (t.shiftRule i h) (t.shiftRule i h') := by
  unfold Trace.shiftRule
  split
  · exact .error
  · split
    · exact .error
    · split
      · exact .ok rfl
      · exact .ok rfl
      · exact .error

omit [Scalar α] in
theorem withParam_agree (i : ℕ) (x y : α) :
    Agree (fun _ _ => True) (t.withParam i x) (t.withParam i y) := by
  unfold Trace.withParam
  split
  · exact .error
  · exact .ok trivial

/-- Items beside the same items. -/
theorem forall₂_zip {β γ δ : Type} {R : β → γ → Prop} {ys : List β} {zs : List γ} (xs : List δ)
    (h : List.Forall₂ R ys zs) :
    List.Forall₂ (fun e e' => e.1 = e'.1 ∧ R e.2 e'.2) (xs.zip ys) (xs.zip zs) := by
  induction h generalizing xs with
  | nil =>
    rw [List.zip_nil_right, List.zip_nil_right]
    exact .nil
  | cons hyz _ ih =>
    cases xs with
    | nil => exact .nil
    | cons x xs => exact .cons ⟨rfl, hyz⟩ (ih xs)

/-- As many terms give as many traces. -/
theorem shifted_agree (i : ℕ) {r r' : ShiftRule α} (hterms : r.terms.length = r'.terms.length) :
    Agree (List.Forall₂ fun _ _ => True) (t.shifted i r) (t.shifted i r') :=
  .mapM_of_forall₂ (R := fun _ _ => True) (List.forall₂_iff_get.mpr ⟨hterms, fun _ _ _ => trivial⟩)
    fun _ _ _ => withParam_agree i _ _

/-- And so for the rules of several parameters. -/
theorem shifteds_agree (base : Trace α) (selected : List ℕ) {rules rules' : List (ShiftRule α)}
    (h : List.Forall₂ (fun r r' => r.terms.length = r'.terms.length) rules rules') :
    Agree (List.Forall₂ (List.Forall₂ fun _ _ => True))
      ((selected.zip rules).mapM fun (i, rule) => base.shifted i rule)
      ((selected.zip rules').mapM fun (i, rule) => base.shifted i rule) := by
  refine .mapM_of_forall₂ (forall₂_zip selected h) ?_
  rintro ⟨i, rule⟩ ⟨_, rule'⟩ ⟨rfl, hterms⟩
  exact shifted_agree i hterms

/-- The parameter-shift rule never looks at its step. -/
theorem shifts_agree (t : Trace α) (c : ShiftConfig α) (h : α) : Agree (fun p q => p.size = q.size)
    (ParameterShift.plan t { c with step := h }) (ParameterShift.plan t c) := by
  unfold ParameterShift.plan
  refine (Agree.refl (R := Eq) (fun _ => rfl) _).bind fun _ _ _ => ?_
  refine (Agree.refl (R := Eq) (fun _ => rfl) _).bind ?_
  rintro selected _ rfl
  refine (Agree.refl (R := Eq) (fun _ => rfl) _).bind ?_
  rintro variances _ rfl
  extract_lets rest rest'
  have hrest (base : Trace α) : Agree (fun p q => p.size = q.size) (rest base) (rest' base) := by
    refine (Agree.mapM selected fun i => shiftRule_agree i h c.step).bind
      fun rules rules' hrules => ?_
    refine (shifteds_agree base selected hrules).bind fun shifted shifted' htraces => ?_
    refine (Agree.refl (R := Eq) (fun _ => rfl) t.outputShape).bind fun _ _ _ => .ok ?_
    have hempty : rules.isEmpty = rules'.isEmpty := by cases hrules <;> rfl
    have hflat := (List.rel_flatten htraces).length_eq
    simp only [Plan.size, List.length_append, hflat, hempty]
  split
  · exact hrest t
  · refine (Agree.refl (R := Eq) (fun _ => rfl) _).bind ?_
    rintro base _ rfl
    exact hrest base

end Plans

/-! ## Arguments of a transform -/

section Arguments

omit [Scalar α]

variable {entries : List (String × ArgumentValue α)} {name other : String}

theorem lookup_place (name : String) (value : ArgumentValue α)
    (entries : List (String × ArgumentValue α)) :
    (Arguments.place name value entries).lookup name = some value := by
  induction entries with
  | nil => simp [Arguments.place]
  | cons e rest ih =>
    obtain ⟨key, v⟩ := e
    rw [Arguments.place]
    split_ifs with hlt heq
    · simp
    · simp
    · rw [List.lookup_cons, beq_eq_false_iff_ne.mpr heq]
      exact ih

theorem lookup_place_of_ne (h : other ≠ name) (value : ArgumentValue α) :
    (Arguments.place name value entries).lookup other = entries.lookup other := by
  have hne : (other == name) = false := beq_eq_false_iff_ne.mpr h
  induction entries with
  | nil => simp [Arguments.place, List.lookup_cons, hne]
  | cons e rest ih =>
    obtain ⟨key, v⟩ := e
    rw [Arguments.place]
    split_ifs with hlt heq
    · rw [List.lookup_cons, hne]
    · subst heq
      rw [List.lookup_cons, List.lookup_cons, hne]
    · rw [List.lookup_cons, List.lookup_cons, ih]

/-- A check that does not tell two values of a name apart does not tell their lists apart. -/
theorem forM_place {check : String × ArgumentValue α → Except Error Unit}
    {value value' : ArgumentValue α} (h : check (name, value) = check (name, value')) :
    (Arguments.place name value entries).forM check =
      (Arguments.place name value' entries).forM check := by
  induction entries with
  | nil => simp [Arguments.place, h]
  | cons e rest ih =>
    obtain ⟨key, v⟩ := e
    rw [Arguments.place, Arguments.place]
    split_ifs with hlt heq
    · simp only [List.forM_eq_forM, List.forM_cons, h]
    · simp only [List.forM_eq_forM, List.forM_cons, h]
    · rw [List.forM_eq_forM] at ih ⊢
      rw [List.forM_cons, List.forM_cons, ih]

/-- Only the kind of an argument is checked. -/
theorem validate_insert (s : Signature) (args : Arguments α) (name : String)
    {value value' : ArgumentValue α} (hkind : value.kind = value'.kind) :
    s.validate (args.insert name value) = s.validate (args.insert name value') := by
  have hgiven (p : Parameter) : ((args.insert name value).get? p.name).isNone =
      ((args.insert name value').get? p.name).isNone := by
    unfold Arguments.get? Arguments.insert
    by_cases hname : p.name = name
    · rw [hname, lookup_place, lookup_place]
      rfl
    · rw [lookup_place_of_ne hname, lookup_place_of_ne hname]
  unfold Signature.validate
  simp only [hgiven]
  refine congrArg (· >>= _) (forM_place ?_)
  simp only [hkind]

end Arguments

/-- The transform hands its step on to the parameter-shift rule. -/
theorem transform_agree {gates : GateTable α} {transform : Transform α}
    (htransform : parameterShiftTransform gates = .ok transform) (t : Trace α)
    (args : Arguments α) (h h' : α) : Agree (fun p q => p.size = q.size)
      (transform.apply t (args.insert "h" (.float h)))
      (transform.apply t (args.insert "h" (.float h'))) := by
  unfold parameterShiftTransform Transform.register at htransform
  dsimp only at htransform
  rw [if_pos rfl] at htransform
  obtain rfl := Except.ok.inj htransform
  have hstep (x : α) : (args.insert "h" (.float x)).float? "h" = some x := by
    unfold Arguments.float? Arguments.get? Arguments.insert
    rw [lookup_place]
  have hdepth (x : α) : (args.insert "h" (.float x)).int? "expansion_depth" =
      args.int? "expansion_depth" := by
    unfold Arguments.int? Arguments.get? Arguments.insert
    rw [lookup_place_of_ne (by decide)]
  have hkind : (ArgumentValue.float h).kind = (ArgumentValue.float h').kind := rfl
  unfold Transform.apply Transform.run
  dsimp only
  rw [validate_insert _ args "h" hkind]
  refine (Agree.refl (R := Eq) (fun _ => rfl) _).bind fun _ _ _ => ?_
  simp only [hdepth, hstep, Option.getD_some]
  refine (Agree.refl (R := Eq) (fun _ => rfl) _).bind ?_
  rintro u _ rfl
  exact shifts_agree u { ShiftConfig.standard with step := h' } h

/-! ## Where the step is checked -/

theorem agree_ok_iff {β γ : Type} {R : β → γ → Prop} {x : Except Error β} {y : Except Error γ}
    (h : Agree R x y) : (∃ r, x = .ok r) ↔ ∃ r, y = .ok r := by
  cases h with
  | ok _ => exact iff_of_true ⟨_, rfl⟩ ⟨_, rfl⟩
  | error => exact iff_of_false nofun nofun

/-- **Steps.**  Difference quotients are planned with a positive and finite step only.  The
    parameter-shift rule, alone or as a transform, is planned with every step if it is with any,
    and shifts a parameter of a gate without a rule by it, be it zero, infinite or not a number.
    The settings of a binding, which hand their step on to difference quotients, accept the steps
    that these are planned with, and positive infinity. -/
theorem steps_accepted (t : Trace Float) (gates : GateTable Float) :
    (∀ c : DifferenceConfig Float, (∃ p, FiniteDifference.plan t c = .ok p) ↔
      UsableStep c.step ∧ ∃ p, FiniteDifference.plan t { c with step := 1 } = .ok p) ∧
    (∀ (c : ShiftConfig Float) h, (∃ p, ParameterShift.plan t { c with step := h } = .ok p) ↔
      ∃ p, ParameterShift.plan t c = .ok p) ∧
    (∀ transform, parameterShiftTransform gates = .ok transform →
      ∀ (args : Arguments Float) h h',
        (∃ p, transform.apply t (args.insert "h" (.float h)) = .ok p) ↔
          ∃ p, transform.apply t (args.insert "h" (.float h')) = .ok p) ∧
    (∀ i, t.Approximated i → ∀ h, t.shiftRule i h = .ok (.centralDifference h)) ∧
    ∀ (c : BindingConfig Float) h, c.method = .finiteDifference h →
      (c.validate = .ok () ↔ (UsableStep h ∨ h = infinity) ∧ c.maxOrder ≠ 0) ∧
      ∃ d, c.differentiator? gates = some d ∧
        d.method = .finiteDifference { (DifferenceConfig.standard : DifferenceConfig Float) with
          step := h } := by
  refine ⟨fun c => ?_, fun c h => agree_ok_iff (shifts_agree t c h),
    fun transform htransform args h h' => agree_ok_iff (transform_agree htransform t args h h'),
    ?_, fun c h hmethod => ⟨settings_accept_iff hmethod, ?_⟩⟩
  · have hone : UsableStep (1 : Float) := ⟨by decide, by decide⟩
    rw [differences_ok_iff, differences_ok_iff]
    exact and_congr_right fun _ => (and_iff_right hone).symm
  · rintro i ⟨o, p, op, hlocation, hop, hrule, hnumeric⟩ h
    unfold Trace.shiftRule
    simp only [hlocation, hop, hrule, hnumeric]
  · unfold BindingConfig.differentiator?
    rw [hmethod]
    exact ⟨_, rfl, rfl⟩

/-- A turn whose gate asks for difference quotients, and its mean. -/
def numericTurn : Trace Float :=
  let spec : GateSpec Float := StandardGate.rx.spec
  ⟨[⟨{ spec with gradMethod := .numeric }, [.trainable 0.6], [0]⟩],
    [.ofObservable .expectation (.word (.single 0 .Z))], 1, .analytic, .empty⟩

/-- The parameter-shift rule with a step. -/
def shiftsBy (h : Float) : ShiftConfig Float := ⟨none, h, true⟩

/-- Difference quotients with a step. -/
def quotientsBy (h : Float) : DifferenceConfig Float := ⟨.central, h, none⟩

/-- Settings with difference quotients of a step. -/
def settingsBy (h : Float) : BindingConfig Float :=
  ⟨.finiteDifference h, 1, true, .device, defaultGradientDepth, .analytic⟩

theorem approximated_numericTurn : numericTurn.Approximated 0 :=
  ⟨0, 0, _, rfl, rfl, rfl, rfl⟩

/-- Any step will do for the shifts, a usable one for the quotients, and an infinite one for the
    settings. -/
theorem steps_accepted_numericTurn : numericTurn.Approximated 0 ∧
    (∀ h, ∃ p, ParameterShift.plan numericTurn (shiftsBy h) = .ok p) ∧
    (∀ h, numericTurn.shiftRule 0 h = .ok (.centralDifference h)) ∧
    (∃ p, FiniteDifference.plan numericTurn (quotientsBy 0.5) = .ok p) ∧
    ∀ h, (settingsBy h).validate = .ok () ↔ UsableStep h ∨ h = infinity := by
  obtain ⟨hquotients, hshifts, -, hrule, hsettings⟩ := steps_accepted numericTurn ⟨#[]⟩
  refine ⟨approximated_numericTurn, fun h => ?_, hrule 0 approximated_numericTurn, ?_, fun h => ?_⟩
  · exact (hshifts (shiftsBy 1) h).mpr ⟨_, rfl⟩
  · exact (hquotients (quotientsBy 0.5)).mpr ⟨⟨by decide, by decide⟩, _, rfl⟩
  · rw [(hsettings (settingsBy h) h rfl).1]
    exact and_iff_left one_ne_zero

/-- The weights of a step of zero. -/
theorem weights_zero :
    (ShiftRule.centralDifference (0 : Float)).terms.map (·.coefficient) =
      [infinity, -infinity] := by
  decide +kernel

/-- A step of zero is shifted by, with infinite weights, and an infinite step is accepted among the
    settings; neither is one for difference quotients. -/
theorem unusable_steps_accepted :
    (∃ p, ParameterShift.plan numericTurn (shiftsBy 0) = .ok p ∧ p.size = 2) ∧
    (ShiftRule.centralDifference (0 : Float)).terms.map (·.coefficient) = [infinity, -infinity] ∧
    (∃ e, FiniteDifference.plan numericTurn (quotientsBy 0) = .error e) ∧
    (settingsBy infinity).validate = .ok () ∧
    ∃ e, FiniteDifference.plan numericTurn (quotientsBy infinity) = .error e :=
  ⟨⟨_, rfl, rfl⟩, weights_zero, ⟨_, rfl⟩,
    (settings_accept_iff rfl).mpr ⟨.inr rfl, one_ne_zero⟩, _, rfl⟩

end Proofs

end CircuitGrad
