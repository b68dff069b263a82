import Mathlib
import CircuitGrad.Gradient.Spectrum
import CircuitGrad.Proofs.FollowedExpansion
import CircuitGrad.Proofs.JetCalculus

/-! # Spectra at other arguments

    The spectrum of a circuit is read off the derivatives of its parameters
    at one point.  A parameter that is an affine function of the inputs has
    the same derivatives at every point, so it contributes the same
    frequencies everywhere.  A curved one is refused where it has a slope in
    the input (`Jet.CurvedIn`), and passes where its slope happens to
    vanish: the spectrum that is found there is that of every point at which
    no curved parameter has a slope (`spectrum_stable`), and at the others
    there is none (`spectrum_unseen_curvature`).
-/

namespace CircuitGrad

/-- The parameter is not affine, and has a slope in the input. -/
def Jet.CurvedIn (x : Jet ℝ) (input : ℕ) : Prop := x.isAffine = false ∧ x.slope input ≠ 0

/-- Another value for the argument, unless it is not differentiable. -/
structure Argument.Varies (a a' : Argument ℝ) : Prop where
  shape          : a'.shape = a.shape
  differentiable : a'.differentiable = a.differentiable
  batched        : a'.batched = a.batched
  constant       : a.differentiable = false → a'.values = a.values
  filled         : a'.Filled

/-- How far the inputs of the argument move. -/
def Argument.shift (a a' : Argument ℝ) : List ℝ :=
  if a.differentiable then List.zipWith (fun v w => w - v) a.values a'.values else []

/-- How far all inputs move. -/
def Argument.shifts (args args' : List (Argument ℝ)) : List ℝ :=
  ((args.zip args').map fun (a, a') => a.shift a').flatten

namespace Proofs

variable {changes : List ℝ} {op op' : Operation ℝ} {x y : Jet ℝ} {input : ℕ}

/-! ## One parameter -/

/-- A parameter that contributes is not curved in the input. -/
theorem not_curvedIn_of_addParameter {frequencies frequencies' : List ℝ}
    (h : Spectrum.addParameter op input frequencies x = .ok frequencies') : ¬x.CurvedIn input := by
  rintro ⟨haffine, hslope⟩
  simp [Spectrum.addParameter, haffine, hslope] at h

/-- A parameter is refused for the one reason only that it has no spectrum. -/
theorem cause_of_addParameter {frequencies : List ℝ} {e : Error}
    (h : Spectrum.addParameter op input frequencies x = .error e) :
    ∃ cause, e = .spectrumUndefined cause := by
  unfold Spectrum.addParameter at h
  dsimp only at h
  split_ifs at h
  · exact ⟨_, (Except.error.inj h).symm⟩
  · split at h
    · exact ⟨_, (Except.error.inj h).symm⟩
    · cases h

/-- An affine parameter of a gate with a generator contributes. -/
theorem addParameter_of_affine (haffine : x.isAffine) (hgenerator : op.hasGenerator)
    (frequencies : List ℝ) :
    ∃ frequencies', Spectrum.addParameter op input frequencies x = .ok frequencies' := by
  obtain ⟨g, hg⟩ := Option.isSome_iff_exists.mp hgenerator
  unfold Spectrum.addParameter
  rw [haffine, hg]
  by_cases hslope : (x.slope input == 0) = true
  · exact ⟨_, if_pos hslope⟩
  · exact ⟨_, if_neg hslope⟩

/-- Parameters that follow contribute the same, unless one of them is curved. -/
theorem addParameter_follows (hspec : op'.spec = op.spec) (h : x.Follows changes y)
    (hx : ¬x.CurvedIn input) (hy : ¬y.CurvedIn input) (frequencies : List ℝ) :
    Spectrum.addParameter op' input frequencies y =
      Spectrum.addParameter op input frequencies x := by
  have hname : op'.name = op.name := congrArg GateSpec.name hspec
  unfold Spectrum.addParameter
  rw [hspec, hname, h.affine]
  cases haffine : x.isAffine with
  | true =>
    rw [h.moved haffine]
    rfl
  -- Neither of two curved parameters has a slope.
  | false =>
    have hslope : x.slope input = 0 := by
      by_contra hne
      exact hx ⟨haffine, hne⟩
    have hslope' : y.slope input = 0 := by
      by_contra hne
      exact hy ⟨h.affine.trans haffine, hne⟩
    simp [hslope, hslope']

/-! ## All parameters -/

theorem not_curvedIn_of_ofInput {ops : List (Operation ℝ)} {frequencies : List ℝ}
    (h : Spectrum.ofInput ops input = .ok frequencies) :
    ∀ op ∈ ops, ∀ x ∈ op.params, ¬x.CurvedIn input :=
  forall_of_foldlM (fun _ _ _ _ hop =>
    forall_of_foldlM (fun _ _ _ _ hx => not_curvedIn_of_addParameter hx) hop) h

theorem cause_of_ofInput {ops : List (Operation ℝ)} {e : Error}
    (h : Spectrum.ofInput ops input = .error e) : ∃ cause, e = .spectrumUndefined cause := by
  obtain ⟨op, -, _, hop⟩ := exists_of_foldlM_error h
  obtain ⟨x, -, _, hx⟩ := exists_of_foldlM_error hop
  exact cause_of_addParameter hx

/-- Operations that follow have the same frequencies in an input in which no parameter is
    curved. -/
theorem ofInput_follows {ops ops' : List (Operation ℝ)}
    (h : List.Forall₂ (OperationFollows changes) ops ops')
    (hops : ∀ op ∈ ops, ∀ x ∈ op.params, ¬x.CurvedIn input)
    (hops' : ∀ op ∈ ops', ∀ y ∈ op.params, ¬y.CurvedIn input) :
    Spectrum.ofInput ops' input = Spectrum.ofInput ops input := by
  refine foldlM_of_forall₂ ((forall₂_with hops hops' h).imp ?_)
  rintro op op' ⟨hfollows, hop, hop'⟩ frequencies
  refine foldlM_of_forall₂ ((forall₂_with hop hop' hfollows.params).imp ?_)
  rintro x y ⟨hxy, hx, hy⟩ frequencies
  exact addParameter_follows hfollows.spec hxy hx hy frequencies

/-! ## Spectra of traces -/

section Traces

variable {table : GateTable ℝ} {t u : Trace ℝ} {argument start count : ℕ}

/-- The spectrum of an argument, by its first input and the number of its inputs. -/
theorem spectrum_eq (hinputs : t.layout.inputs? argument = some (start, count))
    (hexpand : t.expand table defaultGradientDepth Spectrum.criterion = .ok u) :
    t.spectrum table argument =
      (List.range count).mapM fun i => Spectrum.ofInput u.operations (start + i) := by
  unfold Trace.spectrum
  rw [hinputs]
  simp only [hexpand, ok_bind]

/-- A trace with a spectrum has the argument, and can be expanded. -/
theorem exists_of_spectrum {S : List (List ℝ)} (h : t.spectrum table argument = .ok S) :
    ∃ start count u, t.layout.inputs? argument = some (start, count) ∧
      t.expand table defaultGradientDepth Spectrum.criterion = .ok u := by
  unfold Trace.spectrum at h
  split at h
  · cases h
  · next start count hinputs =>
    obtain ⟨u, hu, -⟩ := bind_eq_ok h
    exact ⟨start, count, u, hinputs, hu⟩

/-- A spectrum is found, and no parameter is curved in an input, or it is not defined. -/
theorem spectrum_cases (hinputs : t.layout.inputs? argument = some (start, count))
    (hexpand : t.expand table defaultGradientDepth Spectrum.criterion = .ok u) :
    (∃ S, t.spectrum table argument = .ok S ∧
      ∀ x ∈ u.params, ∀ i ∈ List.range count, ¬x.CurvedIn (start + i)) ∨
    ∃ cause, t.spectrum table argument = .error (.spectrumUndefined cause) := by
  rw [spectrum_eq hinputs hexpand]
  cases hresult : (List.range count).mapM fun i => Spectrum.ofInput u.operations (start + i) with
  | ok S =>
    refine .inl ⟨S, rfl, fun x hx i hi => ?_⟩
    obtain ⟨op, hop, hx⟩ := List.mem_flatMap.mp hx
    obtain ⟨frequencies, hfrequencies⟩ := ok_of_mapM hresult hi
    exact not_curvedIn_of_ofInput hfrequencies op hop x hx
  | error e =>
    obtain ⟨i, -, hfail⟩ : ∃ i ∈ List.range count,
        Spectrum.ofInput u.operations (start + i) = .error e := by
      by_contra hnone
      push Not at hnone
      exact mapM_ne_error hnone hresult
    obtain ⟨cause, rfl⟩ := cause_of_ofInput hfail
    exact .inr ⟨cause, rfl⟩

/-- Where a parameter is curved in an input, the spectrum is not defined. -/
theorem spectrum_of_curvedIn (hinputs : t.layout.inputs? argument = some (start, count))
    (hexpand : t.expand table defaultGradientDepth Spectrum.criterion = .ok u)
    (hcurved : ∃ x ∈ u.params, ∃ i ∈ List.range count, x.CurvedIn (start + i)) :
    ∃ cause, t.spectrum table argument = .error (.spectrumUndefined cause) := by
  obtain ⟨x, hx, i, hi, hcurved⟩ := hcurved
  refine (spectrum_cases hinputs hexpand).resolve_left ?_
  rintro ⟨S, -, hnone⟩
  exact hnone x hx i hi hcurved

/-- Where a spectrum is found, no parameter is curved in an input. -/
theorem not_curvedIn_of_spectrum (hinputs : t.layout.inputs? argument = some (start, count))
    (hexpand : t.expand table defaultGradientDepth Spectrum.criterion = .ok u)
    {S : List (List ℝ)} (h : t.spectrum table argument = .ok S) :
    ∀ x ∈ u.params, ∀ i ∈ List.range count, ¬x.CurvedIn (start + i) := by
  intro x hx i hi hcurved
  obtain ⟨cause, hcause⟩ := spectrum_of_curvedIn hinputs hexpand ⟨x, hx, i, hi, hcurved⟩
  rw [h] at hcause
  cases hcause

end Traces

/-! ## Other arguments -/

theorem steady_criterion : Criterion.Steady Spectrum.criterion := by
  intro changes op op' h
  have hgenerator : op'.hasGenerator = op.hasGenerator := by
    unfold Operation.hasGenerator
    rw [h.spec]
  have htrainable := isTrainable_follows h
  show (op'.hasGenerator || !op'.isTrainable) = (op.hasGenerator || !op.isTrainable)
  rw [hgenerator, htrainable]

/-- The inputs of an argument that varies move by its shift. -/
theorem changes_of_varies {a a' : Argument ℝ} (h : a.Varies a') :
    a.changes? a' = some (a.shift a') := by
  unfold Argument.changes? Argument.shift
  rw [h.shape, h.differentiable, h.batched]
  simp only [bne_self_eq_false, Bool.or_self, Bool.false_eq_true, if_false]
  cases hkind : a.differentiable with
  | true => rfl
  | false => simp [h.constant hkind]

theorem mapM_changes_of_varies {args args' : List (Argument ℝ)}
    (h : List.Forall₂ Argument.Varies args args') :
    (args.zip args').mapM (fun e => e.1.changes? e.2) =
      some ((args.zip args').map fun (a, a') => a.shift a') := by
  induction h with
  | nil => rfl
  | cons hfirst _ ih =>
    rw [List.zip_cons_cons, List.mapM_cons, changes_of_varies hfirst, ih]
    rfl

section Recorded

variable {f : CircuitFunction ℝ} {table : GateTable ℝ} {args args' : List (Argument ℝ)}
  {register order argument : ℕ} {shots : Shots} {t u : Trace ℝ}

/-- Recorded at other arguments and expanded, a circuit follows. -/
theorem expanded_follows (hf : f.Structural) (htable : table.Structural)
    (hfilled : ∀ a ∈ args, a.Filled) (hrecord : Trace.record f args register shots order = .ok t)
    (hgates : ∀ op ∈ t.operations, op.OfTable table)
    (hexpand : t.expand table defaultGradientDepth Spectrum.criterion = .ok u)
    (hvaries : List.Forall₂ Argument.Varies args args') :
    ∃ t' u', Trace.record f args' register shots order = .ok t' ∧ t'.layout = t.layout ∧
      t'.expand table defaultGradientDepth Spectrum.criterion = .ok u' ∧
      List.Forall₂ (OperationFollows (Argument.shifts args args')) u.operations u'.operations := by
  have hfilled' : ∀ a ∈ args', a.Filled := by
    intro a' ha'
    obtain ⟨a, -, ha⟩ := exists_of_forall₂ hvaries.flip ha'
    exact ha.filled
  obtain ⟨ops, hrecord', hops⟩ := record_follows hf hvaries.length_eq
    (mapM_changes_of_varies hvaries) hfilled hfilled' hrecord
  obtain ⟨ops', hexpand', hops'⟩ := expand_follows steady_criterion htable hgates hops hexpand
  exact ⟨_, _, hrecord', rfl, hexpand', hops'⟩

/-- If a circuit of fixed structure has a spectrum, the parameters that depend on the inputs
    there are affine functions of them, and the spectrum is the same at all arguments at which
    no other parameter depends on the inputs.  Where a curved parameter does, there is none. -/
theorem spectrum_stable (hf : f.Structural) (htable : table.Structural)
    (hfilled : ∀ a ∈ args, a.Filled) (hrecord : Trace.record f args register shots order = .ok t)
    (hgates : ∀ op ∈ t.operations, op.OfTable table) :
    (∀ S, t.spectrum table argument = .ok S → ∃ start count u,
      t.layout.inputs? argument = some (start, count) ∧
      t.expand table defaultGradientDepth Spectrum.criterion = .ok u ∧
      ∀ args', List.Forall₂ Argument.Varies args args' → ∃ t' u',
        Trace.record f args' register shots order = .ok t' ∧
        t'.expand table defaultGradientDepth Spectrum.criterion = .ok u' ∧
        List.Forall₂ (fun x y => (∃ i ∈ List.range count, x.slope (start + i) ≠ 0) →
          y = x.withValue (x.value + x.drift (Argument.shifts args args'))) u.params u'.params ∧
        (t'.spectrum table argument = .ok S ↔
          ∀ y ∈ u'.params, ∀ i ∈ List.range count, ¬y.CurvedIn (start + i))) ∧
    ∀ start count u, t.layout.inputs? argument = some (start, count) →
      t.expand table defaultGradientDepth Spectrum.criterion = .ok u →
      (∃ x ∈ u.params, ∃ i ∈ List.range count, x.CurvedIn (start + i)) →
      ∃ cause, t.spectrum table argument = .error (.spectrumUndefined cause) := by
  refine ⟨fun S hS => ?_, fun _ _ _ => spectrum_of_curvedIn⟩
  obtain ⟨start, count, u, hinputs, hexpand⟩ := exists_of_spectrum hS
  have hstraight := not_curvedIn_of_spectrum hinputs hexpand hS
  refine ⟨start, count, u, hinputs, hexpand, fun args' hvaries => ?_⟩
  obtain ⟨t', u', hrecord', hlayout, hexpand', hfollow⟩ :=
    expanded_follows hf htable hfilled hrecord hgates hexpand hvaries
  have hinputs' : t'.layout.inputs? argument = some (start, count) := hlayout ▸ hinputs
  refine ⟨t', u', hrecord', hexpand', ?_, not_curvedIn_of_spectrum hinputs' hexpand',
    fun hstraight' => ?_⟩
  · refine (forall₂_with hstraight (fun _ _ => trivial) (params_of_follows hfollow)).imp ?_
    rintro x y ⟨hxy, hx, -⟩ ⟨i, hi, hslope⟩
    refine hxy.moved ?_
    by_contra hcurved
    exact hx i hi ⟨by simpa using hcurved, hslope⟩
  · rw [← hS, spectrum_eq hinputs hexpand, spectrum_eq hinputs' hexpand']
    refine mapM_congr fun i hi => ofInput_follows hfollow (fun op hop x hx => ?_)
      fun op hop y hy => ?_
    · exact hstraight x (List.mem_flatMap.mpr ⟨op, hop, hx⟩) i hi
    · exact hstraight' y (List.mem_flatMap.mpr ⟨op, hop, hy⟩) i hi

end Recorded

/-! ## Curvature that is not seen -/

/-- A rotation about the first axis by an expression in the arguments. -/
noncomputable def rotatedBy (e : Expression Quantity) : CircuitFunction ℝ := fun args r => do
  let angle ← e.eval (Quantity.jet args)
  (← r.apply StandardGate.rx.spec [angle] [0]).measure (.probs [])

/-- The trace of such a rotation in one argument. -/
noncomputable def rotation (x : Jet ℝ) : Trace ℝ :=
  { operations := [⟨StandardGate.rx.spec, [x], [0]⟩]
    measurements := [.probs []]
    register := 1
    shots := .analytic
    layout := ⟨[⟨[], some 0⟩]⟩ }

/-- The square of the first entry of the first argument. -/
def squaredEntry : Expression Quantity := .power (.leaf (.entry 0 0)) 2

theorem structural_rotatedBy {e : Expression Quantity} (he : e.Unfrozen) :
    (rotatedBy e).Structural := by
  refine ⟨fun _ _ => .ok [.apply StandardGate.rx.spec [e] [0], .measure (.probs [])], ?_, ?_⟩
  · intro _ _ steps hsteps step hstep
    obtain rfl := Except.ok.inj hsteps
    simp only [List.mem_cons, List.not_mem_nil, or_false] at hstep
    rcases hstep with rfl | rfl
    · simpa [Instruction.Unfrozen] using he
    · trivial
  · intro args register
    unfold rotatedBy
    rw [ok_bind]
    simp only [List.foldlM_cons, List.foldlM_nil, Instruction.issue, List.mapM_cons,
      List.mapM_nil, bind_assoc, pure_bind, bind_pure]

theorem spectrum_rotation (x : Jet ℝ) : (rotation x).spectrum ⟨#[]⟩ 0 =
    (Spectrum.addParameter ⟨StandardGate.rx.spec, [x], [0]⟩ 0 [0] x).map ([·]) := by
  have hexpand : (rotation x).expand ⟨#[]⟩ defaultGradientDepth Spectrum.criterion =
      .ok (rotation x) := rfl
  rw [spectrum_eq rfl hexpand]
  have hrange : List.range (ArgumentSlot.size ⟨[], some 0⟩) = [0] := rfl
  simp only [hrange, List.mapM_cons, List.mapM_nil, Spectrum.ofInput, rotation, List.foldlM_cons,
    List.foldlM_nil, bind_pure, Nat.add_zero]
  rfl

theorem record_squaredEntry (v : ℝ) : Trace.record (rotatedBy squaredEntry) [.scalar v] 1
    .analytic 1 = .ok (rotation ((Jet.seed v 0 1 false).power 2)) := rfl

theorem slope_squared (v : ℝ) : ((Jet.seed v 0 1 false).power 2).slope 0 = 2 * v := by
  have hword : Jet.exponentWord (2 - 1) = 1 := rfl
  have hseed : (Jet.seed v 0 1 false).slope 0 = 1 := rfl
  have hvalue : (Jet.seed v 0 1 false).value = v := rfl
  rw [Jet.power, if_neg (by decide), if_neg (by decide), slope_chain, hseed, hword, hvalue,
    power_eq_zpow]
  simp

/-- A rotation by the square of its argument has a spectrum at zero, where the slope of the
    square vanishes, and none at one. -/
theorem spectrum_unseen_curvature : (rotatedBy squaredEntry).Structural ∧
    (∃ t, Trace.record (rotatedBy squaredEntry) [.scalar 0] 1 .analytic 1 = .ok t ∧
      t.spectrum ⟨#[]⟩ 0 = .ok [[0]]) ∧
    ∃ t, Trace.record (rotatedBy squaredEntry) [.scalar 1] 1 .analytic 1 = .ok t ∧
      t.spectrum ⟨#[]⟩ 0 = .error (.spectrumUndefined (.nonlinear "RX" 0)) := by
  have hcurved : ∀ v : ℝ, ((Jet.seed v 0 1 false).power 2).isAffine = false := fun _ => rfl
  refine ⟨structural_rotatedBy (by simp [squaredEntry, Expression.Unfrozen]),
    ⟨_, record_squaredEntry 0, ?_⟩, _, record_squaredEntry 1, ?_⟩
  · rw [spectrum_rotation]
    simp [Spectrum.addParameter, slope_squared, Except.map]
  · rw [spectrum_rotation]
    simp [Spectrum.addParameter, slope_squared, hcurved, Except.map]
    rfl

/-- A rotation by twice its argument has the same spectrum at all arguments. -/
theorem spectrum_stable_doubledEntry : ∃ t S,
    Trace.record (rotatedBy doubledEntry) [.scalar 0.3] 1 .analytic 1 = .ok t ∧
      t.spectrum ⟨#[]⟩ 0 = .ok S ∧ ∀ v : ℝ, ∃ t',
        Trace.record (rotatedBy doubledEntry) [.scalar v] 1 .analytic 1 = .ok t' ∧
        t'.spectrum ⟨#[]⟩ 0 = .ok S := by
  let doubled (v : ℝ) : Jet ℝ := (Jet.constant 2).mul (.seed v 0 1 false)
  have hrecord : ∀ v : ℝ, Trace.record (rotatedBy doubledEntry) [.scalar v] 1 .analytic 1 =
      .ok (rotation (doubled v)) := fun _ => rfl
  have hexpand : ∀ v : ℝ, (rotation (doubled v)).expand ⟨#[]⟩ defaultGradientDepth
      Spectrum.criterion = .ok (rotation (doubled v)) := fun _ => rfl
  have haffine : ∀ v : ℝ, (doubled v).isAffine := fun _ => rfl
  have hstructural : (rotatedBy doubledEntry).Structural :=
    structural_rotatedBy (by simp [doubledEntry, Expression.Unfrozen])
  have htable : GateTable.Structural ⟨#[]⟩ := by simp [GateTable.Structural]
  have hfilled : ∀ v : ℝ, (Argument.scalar v).Filled := fun _ => rfl
  obtain ⟨S, hS⟩ : ∃ S, (rotation (doubled 0.3)).spectrum ⟨#[]⟩ 0 = .ok S := by
    rw [spectrum_rotation]
    have hgenerator : (⟨StandardGate.rx.spec, [doubled 0.3], [0]⟩ : Operation ℝ).hasGenerator :=
      rfl
    obtain ⟨frequencies, h⟩ := addParameter_of_affine (haffine 0.3) hgenerator [0]
    exact ⟨[frequencies], by rw [h]; rfl⟩
  refine ⟨_, S, hrecord 0.3, hS, fun v => ⟨_, hrecord v, ?_⟩⟩
  obtain ⟨hstable, -⟩ := spectrum_stable hstructural htable
    (List.forall_mem_singleton.mpr (hfilled 0.3)) (hrecord 0.3)
    (List.forall_mem_singleton.mpr ⟨.standard .rx, rfl⟩)
  obtain ⟨start, count, u, -, -, hall⟩ := hstable S hS
  obtain ⟨t', u', hrecord', hexpand', -, hsame⟩ := hall [.scalar v]
    (.cons ⟨rfl, rfl, rfl, fun h => Bool.noConfusion h, hfilled v⟩ .nil)
  -- The traces that the theorem speaks of are the rotations by the doubled argument.
  obtain rfl := Except.ok.inj ((hrecord v).symm.trans hrecord')
  obtain rfl := Except.ok.inj ((hexpand v).symm.trans hexpand')
  refine hsame.mpr fun y hy i _ hcurved => ?_
  obtain rfl := List.mem_singleton.mp hy
  exact Bool.false_ne_true (hcurved.1.symm.trans (haffine v))

end Proofs

end CircuitGrad
