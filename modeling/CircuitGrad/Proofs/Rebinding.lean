import CircuitGrad.Proofs.Assignment
import CircuitGrad.Proofs.MovedJets
import CircuitGrad.Proofs.RequestSteps
import CircuitGrad.Proofs.StandardAction

/-! # Rebinding instead of recording

    A binding that is not mutable moves its recorded trace to new arguments
    where it can.  For a circuit function of fixed structure, whose parameters
    are expressions in the arguments, the moved trace is the one that a new
    recording would give: the recordings at two lists of arguments issue the
    same instructions, and their parameters follow the changes
    (`record_follows`).  The recorded trace is replaced whenever it cannot be
    moved, so over a sequence of requests the invariant is that it is the
    recording at its own arguments (`construct_step`).
-/

namespace CircuitGrad

/-- Values fill the shape, as `Argument.array` makes sure. -/
def Argument.Filled (a : Argument ℝ) : Prop := a.values.length = Tensor.volume a.shape

/-- The argument without the values of its entries. -/
def TracedArgument.blank (a : TracedArgument ℝ) : TracedArgument ℝ :=
  { a with entries := a.entries.map (·.withValue 0) }

/-- What gate parameters are computed from. -/
inductive Quantity where
  | constant (x : ℝ)
  /-- Trainable, but computed from no argument. -/
  | trainable (x : ℝ)
  /-- An entry of an argument, by row-major position. -/
  | entry (argument position : ℕ)

/-- The jet of a quantity; entries that are not there cannot be read. -/
def Quantity.jet (args : List (TracedArgument ℝ)) : Quantity → Except Error (Jet ℝ)
  | constant x => .ok (.constant x)
  | trainable x => .ok (.trainable x)
  | entry a i =>
    match (args[a]?).bind (·.entries[i]?) with
    | some x => .ok x
    | none => .error .aborted

/-- What a circuit function of fixed structure issues. -/
inductive Instruction where
  | apply (spec : GateSpec ℝ) (params : List (Expression Quantity)) (wires : List ℕ)
  | measure (m : Measurement ℝ)

namespace Instruction

/-- No parameter forgets derivatives. -/
def Unfrozen : Instruction → Prop
  | apply _ params _ => ∀ e ∈ params, e.Unfrozen
  | measure _ => True

/-- Issue the instruction, its parameters computed from the arguments. -/
noncomputable def issue (args : List (TracedArgument ℝ)) (r : Recording ℝ) :
    Instruction → Except Error (Recording ℝ)
  | apply spec params wires => do
    r.apply spec (← params.mapM (·.eval (Quantity.jet args))) wires
  | measure m => r.measure m

end Instruction

/-- The function issues instructions that do not depend on the values of its arguments, and
    computes all parameters by expressions that keep derivatives. -/
def CircuitFunction.Structural (f : CircuitFunction ℝ) : Prop :=
  ∃ instructions : List (TracedArgument ℝ) → ℕ → Except Error (List Instruction),
    (∀ args register steps, instructions args register = .ok steps →
      ∀ step ∈ steps, step.Unfrozen) ∧
    ∀ args register, f args (.start register) = do
      let steps ← instructions (args.map (·.blank)) register
      steps.foldlM (Instruction.issue args) (.start register)

/-- The state of a binding after some requests for traces. -/
noncomputable def Binding.after {σ : Type} (b : Binding ℝ σ) (session : Session ℝ σ)
    (calls : List (List (Argument ℝ))) : BindingState ℝ σ :=
  calls.foldl (fun s args => ((b.construct args).run.run s).2) (Binding.start session)

namespace Proofs

variable {changes : List ℝ}

/-! ## Recordings that follow -/

/-- The arguments have the same shape, and entries that follow. -/
structure ArgumentFollows (changes : List ℝ) (a a' : TracedArgument ℝ) : Prop where
  blank   : a'.blank = a.blank
  entries : List.Forall₂ (Jet.Follows changes) a.entries a'.entries

/-- The same gate on the same wires, with parameters that follow. -/
structure OperationFollows (changes : List ℝ) (op op' : Operation ℝ) : Prop where
  spec   : op'.spec = op.spec
  params : List.Forall₂ (Jet.Follows changes) op.params op'.params
  wires  : op'.wires = op.wires

/-- The same recording but for parameters, which follow. -/
structure RecordingFollows (changes : List ℝ) (r r' : Recording ℝ) : Prop where
  register     : r'.register = r.register
  operations   : List.Forall₂ (OperationFollows changes) r.operations r'.operations
  measurements : r'.measurements = r.measurements

section Recordings

variable {args args' : List (TracedArgument ℝ)} {r r' s : Recording ℝ}

/-- Quantities follow when the arguments do. -/
theorem quantity_follows (hargs : List.Forall₂ (ArgumentFollows changes) args args')
    (q : Quantity) {x : Jet ℝ} (h : q.jet args = .ok x) :
    ∃ y, q.jet args' = .ok y ∧ x.Follows changes y := by
  cases q with
  | constant v =>
    obtain rfl := Except.ok.inj h
    exact ⟨_, rfl, .of_constant rfl⟩
  | trainable v =>
    obtain rfl := Except.ok.inj h
    exact ⟨_, rfl, .refl (drift_of_slopes fun _ => rfl)⟩
  | entry a i =>
    unfold Quantity.jet at h
    cases harg : args[a]? with
    | none => simp [harg] at h
    | some arg =>
      cases hentry : arg.entries[i]? with
      | none => simp [harg, hentry] at h
      | some x' =>
        simp only [harg, hentry, Option.bind_some] at h
        obtain rfl := Except.ok.inj h
        obtain ⟨arg', harg', hfollows⟩ := getElem?_of_forall₂ hargs harg
        obtain ⟨y, hy, hxy⟩ := getElem?_of_forall₂ hfollows.entries hentry
        refine ⟨y, ?_, hxy⟩
        unfold Quantity.jet
        simp only [harg', hy, Option.bind_some]

theorem params_follow (hargs : List.Forall₂ (ArgumentFollows changes) args args')
    {params : List (Expression Quantity)} (hparams : ∀ e ∈ params, e.Unfrozen)
    {xs : List (Jet ℝ)} (h : params.mapM (·.eval (Quantity.jet args)) = .ok xs) :
    ∃ ys, params.mapM (·.eval (Quantity.jet args')) = .ok ys ∧
      List.Forall₂ (Jet.Follows changes) xs ys :=
  exists_evals_of_follows (quantity_follows hargs) hparams h

/-- Whether a gate can be applied does not depend on its parameters' values. -/
theorem apply_follows {spec : GateSpec ℝ} {params params' : List (Jet ℝ)} {wires : List ℕ}
    (hr : RecordingFollows changes r r')
    (hparams : List.Forall₂ (Jet.Follows changes) params params')
    (h : r.apply spec params wires = .ok s) :
    ∃ s', r'.apply spec params' wires = .ok s' ∧ RecordingFollows changes s s' := by
  obtain ⟨_, hcheck, h⟩ := bind_eq_ok h
  obtain ⟨op, hop, h⟩ := bind_eq_ok h
  obtain rfl := Except.ok.inj h
  have hcheck' : r'.checkOperation wires = .ok () := by
    unfold Recording.checkOperation at hcheck ⊢
    rw [hr.measurements, hr.register]
    exact hcheck
  -- The gate checks how many parameters and which wires it is given.
  have hmake := make_of_length_eq hparams.length_eq.symm hop
  obtain rfl := make_eq_ok hop
  refine ⟨{ r' with operations := r'.operations ++ [⟨spec, params', wires⟩] }, ?_, ?_⟩
  · unfold Recording.apply
    rw [hcheck', hmake]
    rfl
  · exact ⟨hr.register, List.rel_append hr.operations (.cons ⟨rfl, hparams, rfl⟩ .nil),
      hr.measurements⟩

/-- One instruction keeps recordings together. -/
theorem issue_follows (hargs : List.Forall₂ (ArgumentFollows changes) args args')
    {step : Instruction} (hstep : step.Unfrozen) (hr : RecordingFollows changes r r')
    (h : Instruction.issue args r step = .ok s) :
    ∃ s', Instruction.issue args' r' step = .ok s' ∧ RecordingFollows changes s s' := by
  cases step with
  | apply spec params wires =>
    obtain ⟨xs, hxs, h⟩ := bind_eq_ok h
    obtain ⟨ys, hys, hfollow⟩ := params_follow hargs hstep hxs
    obtain ⟨s', hs', hrecording⟩ := apply_follows hr hfollow h
    refine ⟨s', ?_, hrecording⟩
    simp only [Instruction.issue, hys]
    exact hs'
  | measure m =>
    obtain ⟨_, hcheck, h⟩ := bind_eq_ok h
    obtain rfl := Except.ok.inj h
    refine ⟨{ r' with measurements := r'.measurements ++ [m] }, ?_, ?_⟩
    · simp only [Instruction.issue, Recording.measure, hr.register, hcheck]
      rfl
    · exact ⟨hr.register, hr.operations, congrArg (· ++ [m]) hr.measurements⟩

/-- All instructions do. -/
theorem foldlM_issue_follows (hargs : List.Forall₂ (ArgumentFollows changes) args args')
    {steps : List Instruction} (hsteps : ∀ step ∈ steps, step.Unfrozen)
    (hr : RecordingFollows changes r r') (h : steps.foldlM (Instruction.issue args) r = .ok s) :
    ∃ s', steps.foldlM (Instruction.issue args') r' = .ok s' ∧ RecordingFollows changes s s' := by
  induction steps generalizing r r' with
  | nil =>
    cases h
    exact ⟨r', rfl, hr⟩
  | cons step steps ih =>
    obtain ⟨hstep, hrest⟩ := List.forall_mem_cons.mp hsteps
    rw [List.foldlM_cons] at h
    obtain ⟨q, hq, h⟩ := bind_eq_ok h
    obtain ⟨q', hq', hfollows⟩ := issue_follows hargs hstep hr hq
    obtain ⟨s', hs', hrecording⟩ := ih hrest hfollows h
    refine ⟨s', ?_, hrecording⟩
    rw [List.foldlM_cons, hq']
    exact hs'

end Recordings

/-! ## Arguments that follow -/

section Arguments

variable {a a' : Argument ℝ} {own : List ℝ}

/-- Changes can be followed where shape and kind stay, and constants their values. -/
theorem changes_eq_some (h : a.changes? a' = some own) :
    (a'.shape = a.shape ∧ a'.differentiable = a.differentiable ∧ a'.batched = a.batched) ∧
      (a.differentiable = true ∧ own = List.zipWith (fun v w => w - v) a.values a'.values ∨
        a.differentiable = false ∧ own = [] ∧ a'.values = a.values) := by
  unfold Argument.changes? at h
  simp only [bne_iff_ne, ne_eq, Bool.or_eq_true, beq_iff_eq, Option.ite_none_left_eq_some,
    not_or, not_not] at h
  obtain ⟨⟨⟨hshape, hdifferentiable⟩, hbatched⟩, h⟩ := h
  refine ⟨⟨hshape.symm, hdifferentiable.symm, hbatched.symm⟩, ?_⟩
  cases hkind : a.differentiable with
  | true =>
    rw [if_pos hkind] at h
    exact .inl ⟨rfl, (Option.some.inj h).symm⟩
  | false =>
    rw [if_neg (by rw [hkind]; exact Bool.false_ne_true)] at h
    split at h
    · next hvalues => exact .inr ⟨rfl, (Option.some.inj h).symm, hvalues.symm⟩
    · cases h

/-- Seeds of consecutive inputs follow the changes of their values. -/
theorem seeds_follow {old new : List ℝ} (hlength : old.length = new.length)
    (offset start inputs : ℕ) (secondOrder : Bool) (hbound : offset + start + old.length ≤ inputs)
    (hchanges : ∀ j v w, old[j]? = some v → new[j]? = some w →
      v + changes.getD (offset + (start + j)) 0 = w) :
    List.Forall₂ (Jet.Follows changes)
      ((old.zipIdx start).map fun e => .seed e.1 (offset + e.2) inputs secondOrder)
      ((new.zipIdx start).map fun e => .seed e.1 (offset + e.2) inputs secondOrder) := by
  induction old generalizing new start with
  | nil =>
    obtain rfl := List.length_eq_zero_iff.mp hlength.symm
    exact .nil
  | cons v old ih =>
    obtain ⟨w, new, rfl⟩ := List.exists_cons_of_length_eq_add_one hlength.symm
    simp only [List.length_cons] at hlength hbound
    have hfirst : v + changes.getD (offset + start) 0 = w := hchanges 0 v w rfl rfl
    refine .cons ?_ (ih (by omega) (start + 1) (by omega) fun j v' w' hv hw => ?_)
    · have hseed : (Jet.seed v (offset + start) inputs secondOrder).Follows changes
          (.seed (v + changes.getD (offset + start) 0) (offset + start) inputs secondOrder) :=
        .seed (by omega) v secondOrder
      rwa [hfirst] at hseed
    · have hnext := hchanges (j + 1) v' w' hv hw
      rwa [show start + (j + 1) = start + 1 + j by omega] at hnext

/-- Values do not enter a blank argument. -/
theorem blank_traced (hshape : a'.shape = a.shape)
    (hkind : a'.differentiable = a.differentiable) (hlength : a'.values.length = a.values.length)
    (offset inputs : ℕ) (secondOrder : Bool) :
    (a'.traced offset inputs secondOrder).blank = (a.traced offset inputs secondOrder).blank := by
  have hentries : (a'.traced offset inputs secondOrder).blank.entries =
      (a.traced offset inputs secondOrder).blank.entries := by
    refine List.ext_getElem? fun j => ?_
    unfold Argument.traced TracedArgument.blank
    rw [hkind]
    by_cases hj : j < a.values.length
    · have hj' : j < a'.values.length := hlength ▸ hj
      cases a.differentiable <;> simp [hj, hj', Jet.seed, Jet.constant, Jet.withValue]
    · have hj' : ¬j < a'.values.length := hlength ▸ hj
      cases a.differentiable <;> simp [hj, hj', Jet.seed, Jet.withValue]
  have hshape' : (a'.traced offset inputs secondOrder).blank.shape =
      (a.traced offset inputs secondOrder).blank.shape := hshape
  exact congrArg₂ TracedArgument.mk hentries hshape'

/-- An argument that can be followed has as many inputs, and its jets follow. -/
theorem traced_follows (hfilled : a.Filled) (hfilled' : a'.Filled) (h : a.changes? a' = some own)
    (before after : List ℝ) {inputs : ℕ} (hbound : before.length + a.inputCount ≤ inputs)
    (secondOrder : Bool) :
    own.length = a.inputCount ∧ a'.inputCount = a.inputCount ∧
      ArgumentFollows (before ++ (own ++ after)) (a.traced before.length inputs secondOrder)
        (a'.traced before.length inputs secondOrder) := by
  obtain ⟨⟨hshape, hkind, -⟩, h⟩ := changes_eq_some h
  have hlength : a'.values.length = a.values.length := by
    rw [hfilled', hfilled, hshape]
  have hblank := blank_traced hshape hkind hlength before.length inputs secondOrder
  rcases h with ⟨hdifferentiable, rfl⟩ | ⟨hconstant, rfl, hvalues⟩
  · have hinputs : a.inputCount = a.values.length := if_pos hdifferentiable
    have hinputs' : a'.inputCount = a'.values.length := if_pos (hkind.trans hdifferentiable)
    refine ⟨?_, ?_, hblank, ?_⟩
    · rw [List.length_zipWith, hinputs, hlength, Nat.min_self]
    · rw [hinputs', hinputs, hlength]
    · unfold Argument.traced
      rw [hkind, hdifferentiable]
      refine seeds_follow hlength.symm before.length 0 inputs secondOrder (by omega) ?_
      intro j v w hv hw
      -- The changes of the argument itself stand after those of the arguments before it.
      have hown : (List.zipWith (fun v w => w - v) a.values a'.values)[j]? = some (w - v) := by
        rw [List.getElem?_zipWith, hv, hw]
      rw [List.getD_eq_getElem?_getD, Nat.zero_add, List.getElem?_append_right (by omega),
        Nat.add_sub_cancel_left,
        List.getElem?_append_left (List.getElem?_eq_some_iff.mp hown).1, hown, Option.getD_some]
      ring
  · have hinputs : a.inputCount = 0 := if_neg (by rw [hconstant]; exact Bool.false_ne_true)
    have hinputs' : a'.inputCount = 0 := by
      unfold Argument.inputCount
      rw [hkind, hconstant]
      rfl
    refine ⟨hinputs.symm, hinputs'.trans hinputs.symm, hblank, ?_⟩
    unfold Argument.traced
    rw [hkind, hconstant, hvalues]
    refine List.forall₂_same.mpr fun x hx => ?_
    obtain ⟨v, -, rfl⟩ := List.mem_map.mp hx
    exact .of_constant rfl

/-- The arguments with their first inputs, counted from `offset`. -/
def placedAt (offset : ℕ) (args : List (Argument ℝ)) : List (Argument ℝ × ℕ) :=
  args.zip (Argument.offsets offset args)

/-- The layout of a placed argument. -/
def slotOf (e : Argument ℝ × ℕ) : ArgumentSlot :=
  ⟨e.1.shape, if e.1.differentiable then some e.2 else none⟩

/-- Arguments that can be followed one by one are placed alike, and their jets follow. -/
theorem placed_follow {pairs : List (Argument ℝ × Argument ℝ)} {owns : List (List ℝ)}
    (h : List.Forall₂ (fun e own => e.1.changes? e.2 = some own) pairs owns)
    (hfilled : ∀ e ∈ pairs, e.1.Filled ∧ e.2.Filled) (before : List ℝ) {inputs : ℕ}
    (hbound : before.length + (pairs.map (·.1.inputCount)).sum ≤ inputs) (secondOrder : Bool) :
    (pairs.map (·.2.inputCount)).sum = (pairs.map (·.1.inputCount)).sum ∧
    (placedAt before.length (pairs.map (·.2))).map slotOf =
      (placedAt before.length (pairs.map (·.1))).map slotOf ∧
    List.Forall₂ (ArgumentFollows (before ++ owns.flatten))
      ((placedAt before.length (pairs.map (·.1))).map fun e => e.1.traced e.2 inputs secondOrder)
      ((placedAt before.length (pairs.map (·.2))).map fun e =>
        e.1.traced e.2 inputs secondOrder) := by
  induction h generalizing before with
  | nil => exact ⟨rfl, rfl, .nil⟩
  | @cons e own pairs owns hown _ ih =>
    obtain ⟨⟨hfirst, hfirst'⟩, hothers⟩ := List.forall_mem_cons.mp hfilled
    rw [List.map_cons, List.sum_cons] at hbound
    have hplace : before.length + e.1.inputCount ≤ inputs := by omega
    obtain ⟨hlength, hinputs, hfollows⟩ :=
      traced_follows hfirst hfirst' hown before owns.flatten hplace secondOrder
    obtain ⟨⟨hshape, hkind, -⟩, -⟩ := changes_eq_some hown
    have hnext : (before ++ own).length = before.length + e.1.inputCount := by
      rw [List.length_append, hlength]
    obtain ⟨hsum, hslots, hrest⟩ := ih hothers (before ++ own) (by omega)
    rw [hnext] at hslots hrest
    refine ⟨?_, ?_, ?_⟩
    · rw [List.map_cons, List.map_cons, List.sum_cons, List.sum_cons, hinputs, hsum]
    · have hslot : slotOf (e.2, before.length) = slotOf (e.1, before.length) := by
        unfold slotOf
        rw [hshape, hkind]
      unfold placedAt at hslots ⊢
      simp only [List.map_cons, Argument.offsets, List.zip_cons_cons, hinputs, hslot, hslots]
    · rw [List.append_assoc] at hrest
      unfold placedAt at hrest ⊢
      simp only [List.map_cons, Argument.offsets, List.zip_cons_cons, hinputs, List.flatten_cons]
      exact .cons hfollows hrest

/-- Arguments that can be followed are seeded alike. -/
theorem seed_follows {args args' : List (Argument ℝ)} {owns : List (List ℝ)} {order : ℕ}
    {traced : List (TracedArgument ℝ)} {layout : ArgumentLayout}
    (hlength : args.length = args'.length)
    (h : (args.zip args').mapM (fun e => e.1.changes? e.2) = some owns)
    (hfilled : ∀ a ∈ args, a.Filled) (hfilled' : ∀ a ∈ args', a.Filled)
    (hseed : Argument.seed args order = .ok (traced, layout)) :
    ∃ traced', Argument.seed args' order = .ok (traced', layout) ∧
      List.Forall₂ (ArgumentFollows owns.flatten) traced traced' := by
  have hpairs := forall₂_of_mapM_eq_some h
  have hfst : (args.zip args').map (·.1) = args := List.map_fst_zip hlength.le
  have hsnd : (args.zip args').map (·.2) = args' := List.map_snd_zip hlength.ge
  have hcounts : (args.zip args').map (·.1.inputCount) = args.map (·.inputCount) := by
    conv_rhs => rw [← hfst, List.map_map]
    rfl
  have hcounts' : (args.zip args').map (·.2.inputCount) = args'.map (·.inputCount) := by
    conv_rhs => rw [← hsnd, List.map_map]
    rfl
  have hbound : ([] : List ℝ).length + ((args.zip args').map (·.1.inputCount)).sum ≤
      (args.map (·.inputCount)).sum := by
    rw [hcounts]
    simp
  obtain ⟨hsum, hslots, hfollow⟩ := placed_follow hpairs
    (fun e he => ⟨hfilled _ (List.of_mem_zip he).1, hfilled' _ (List.of_mem_zip he).2⟩)
    [] hbound (decide (order ≥ 2))
  rw [hcounts, hcounts'] at hsum
  rw [hfst, hsnd] at hslots hfollow
  unfold Argument.seed at hseed
  cases hbatched : args.findIdx? (·.batched) with
  | some i =>
    rw [hbatched] at hseed
    cases hseed
  | none =>
    rw [hbatched] at hseed
    obtain ⟨rfl, rfl⟩ := Prod.mk.inj (Except.ok.inj hseed)
    -- No new argument is batched, as no old one is.
    have hbatched' : args'.findIdx? (·.batched) = none := by
      rw [List.findIdx?_eq_none_iff] at hbatched ⊢
      intro a' ha'
      rw [← hsnd] at ha'
      obtain ⟨e, he, rfl⟩ := List.mem_map.mp ha'
      obtain ⟨own, -, hown⟩ := exists_of_forall₂ hpairs he
      obtain ⟨⟨-, -, hsame⟩, -⟩ := changes_eq_some hown
      rw [hsame]
      exact hbatched _ (List.of_mem_zip he).1
    refine ⟨_, ?_, hfollow⟩
    unfold Argument.seed
    rw [hbatched', hsum]
    exact congrArg (fun slots => Except.ok (_, ArgumentLayout.mk slots)) hslots

end Arguments

/-! ## Traces -/

section Traces

variable {t : Trace ℝ} {ops : List (Operation ℝ)}

/-- Operations that follow stay in the register. -/
theorem inRegister_of_follows {n : ℕ} {ops ops' : List (Operation ℝ)}
    (h : List.Forall₂ (OperationFollows changes) ops ops')
    (hops : ∀ op ∈ ops, ∀ w ∈ op.wires, w < n) : ∀ op ∈ ops', ∀ w ∈ op.wires, w < n := by
  have hwires : ops'.map (·.wires) = ops.map (·.wires) :=
    map_of_forall₂ (fun _ _ hop => hop.wires) h
  intro op hop
  have hmem := List.mem_map_of_mem (f := (·.wires)) hop
  rw [hwires] at hmem
  obtain ⟨op', hop', heq⟩ := List.mem_map.mp hmem
  rw [← heq]
  exact hops op' hop'

/-- The trace of a recording, and of one that follows it. -/
theorem finish_follows {r r' : Recording ℝ} {shots : Shots} {layout : ArgumentLayout}
    (hr : RecordingFollows changes r r') (h : r.finish shots layout = .ok t) :
    r'.finish shots layout = .ok { t with operations := r'.operations } ∧
      t.operations = r.operations := by
  obtain ⟨made, hmake, h⟩ := bind_eq_ok h
  obtain rfl := Except.ok.inj h
  unfold Trace.make at hmake
  split_ifs at hmake with hregister
  obtain ⟨rfl, hvalid⟩ := check_eq_ok_iff.mp hmake
  have hmade : Trace.make r'.register r'.operations r'.measurements =
      .ok ⟨r'.operations, r.measurements, r.register, .analytic, .empty⟩ := by
    unfold Trace.make
    rw [hr.register, hr.measurements, if_neg hregister]
    exact check_eq_ok_iff.mpr ⟨rfl, hvalid.measured,
      inRegister_of_follows hr.operations hvalid.operations, hvalid.measurements⟩
  refine ⟨?_, rfl⟩
  unfold Recording.finish
  rw [hmade]
  rfl

/-- The trace of a circuit function of fixed structure at arguments that can be followed. -/
theorem record_follows {f : CircuitFunction ℝ} (hf : f.Structural)
    {args args' : List (Argument ℝ)} {owns : List (List ℝ)} {register order : ℕ} {shots : Shots}
    (hlength : args.length = args'.length)
    (hchanges : (args.zip args').mapM (fun e => e.1.changes? e.2) = some owns)
    (hfilled : ∀ a ∈ args, a.Filled) (hfilled' : ∀ a ∈ args', a.Filled)
    (h : Trace.record f args register shots order = .ok t) :
    ∃ ops, Trace.record f args' register shots order = .ok { t with operations := ops } ∧
      List.Forall₂ (OperationFollows owns.flatten) t.operations ops := by
  obtain ⟨⟨traced, layout⟩, hseed, h⟩ := bind_eq_ok h
  obtain ⟨r, hissued, h⟩ := bind_eq_ok h
  obtain ⟨traced', hseed', hfollow⟩ := seed_follows hlength hchanges hfilled hfilled' hseed
  obtain ⟨instructions, hunfrozen, hstructure⟩ := hf
  rw [hstructure] at hissued
  obtain ⟨steps, hsteps, hissued⟩ := bind_eq_ok hissued
  obtain ⟨r', hissued', hrecording⟩ := foldlM_issue_follows hfollow
    (hunfrozen _ _ _ hsteps) ⟨rfl, .nil, rfl⟩ hissued
  obtain ⟨hfinish, hoperations⟩ := finish_follows hrecording h
  have hblank : traced'.map (·.blank) = traced.map (·.blank) :=
    map_of_forall₂ (fun _ _ ha => ha.blank) hfollow
  have hrun : f traced' (.start register) = .ok r' := by
    rw [hstructure, hblank, hsteps]
    exact hissued'
  refine ⟨r'.operations, ?_, hoperations ▸ hrecording.operations⟩
  unfold Trace.record
  rw [hseed']
  simp only [ok_bind, hrun]
  exact hfinish

/-- Where a jet can be moved, what follows it is the moved jet. -/
theorem eq_of_moved {x y : Jet ℝ} {v : ℝ} (h : x.moved? changes = some v)
    (hxy : x.Follows changes y) : y = x.withValue v := by
  unfold Jet.moved? at h
  by_cases hconstant : x.isConstant = true
  · rw [if_pos hconstant] at h
    rw [← Option.some.inj h]
    exact hxy.eq_of_constant hconstant
  · rw [if_neg hconstant] at h
    cases haffine : x.isAffine with
    | false => simp [haffine] at h
    | true =>
      simp only [haffine, Bool.not_true, Bool.false_eq_true, if_false] at h
      rw [← Option.some.inj h]
      exact hxy.moved haffine

/-- The parameter can be moved. -/
abbrev Movable (changes : List ℝ) (x : Jet ℝ) : Prop := ∃ v, x.moved? changes = some v

/-- Bound to the same values, operations that follow are the same. -/
theorem assign_of_follows {op op' : Operation ℝ} (h : OperationFollows changes op op')
    (hmovable : ∀ x ∈ op.params, Movable changes x) (w : ℕ → ℝ) : op'.assign w = op.assign w := by
  obtain ⟨spec, params, wires⟩ := op
  obtain ⟨spec', params', wires'⟩ := op'
  obtain ⟨rfl, hparams, rfl⟩ := h
  unfold Operation.assign
  congr 1
  refine List.ext_getElem? fun i => ?_
  rw [List.getElem?_mapIdx, List.getElem?_mapIdx]
  cases hx : params[i]? with
  | none =>
    rw [List.getElem?_eq_none_iff] at hx
    rw [List.getElem?_eq_none (hparams.length_eq ▸ hx)]
  | some x =>
    obtain ⟨y, hy, hxy⟩ := getElem?_of_forall₂ hparams hx
    obtain ⟨v, hv⟩ := hmovable x (List.mem_of_getElem? hx)
    rw [hy, eq_of_moved hv hxy]
    rfl

theorem assignAll_of_follows {ops ops' : List (Operation ℝ)}
    (h : List.Forall₂ (OperationFollows changes) ops ops')
    (hmovable : ∀ x ∈ ops.flatMap (·.params), Movable changes x) (w : ℕ → ℝ) :
    Operation.assignAll ops' w = Operation.assignAll ops w := by
  induction h generalizing w with
  | nil => rfl
  | @cons op op' ops ops' hop _ ih =>
    rw [List.flatMap_cons] at hmovable
    obtain ⟨hfirst, hrest⟩ := List.forall_mem_append.mp hmovable
    rw [Operation.assignAll, Operation.assignAll, assign_of_follows hop hfirst, ih hrest,
      hop.params.length_eq]

theorem params_of_follows {ops ops' : List (Operation ℝ)}
    (h : List.Forall₂ (OperationFollows changes) ops ops') :
    List.Forall₂ (Jet.Follows changes) (ops.flatMap (·.params)) (ops'.flatMap (·.params)) := by
  induction h with
  | nil => exact .nil
  | cons hop _ ih =>
    rw [List.flatMap_cons, List.flatMap_cons]
    exact List.rel_append hop.params ih

/-- The moved values are those of what follows. -/
theorem values_of_moved {xs ys : List (Jet ℝ)} {values : List ℝ}
    (h : List.Forall₂ (Jet.Follows changes) xs ys)
    (hvalues : xs.mapM (·.moved? changes) = some values) : ys.map (·.value) = values := by
  have hmoved := forall₂_of_mapM_eq_some hvalues
  clear hvalues
  induction h generalizing values with
  | nil =>
    cases hmoved
    rfl
  | cons hxy _ ih =>
    obtain ⟨v, values, hv, hrest, rfl⟩ := List.forall₂_cons_left_iff.mp hmoved
    rw [List.map_cons, ih hrest, eq_of_moved hv hxy]
    rfl

/-- Binding the moved values gives the operations that follow. -/
theorem withValues_of_follows {values : List ℝ}
    (hops : List.Forall₂ (OperationFollows changes) t.operations ops)
    (hvalues : t.params.mapM (·.moved? changes) = some values) :
    t.withValues values = .ok { t with operations := ops } := by
  have hparams : List.Forall₂ (Jet.Follows changes) t.params (ops.flatMap (·.params)) :=
    params_of_follows hops
  have hmoved := forall₂_of_mapM_eq_some hvalues
  have hmovable : ∀ x ∈ t.params, Movable changes x := by
    intro x hx
    obtain ⟨v, -, hv⟩ := exists_of_forall₂ hmoved hx
    exact ⟨v, hv⟩
  have hcount : values.length = t.paramCount := by
    rw [← hmoved.length_eq]
    exact List.length_flatMap
  have hvalues' := values_of_moved hparams hvalues
  -- Both lists of operations are the same at the moved values, which the new one has already.
  rw [withValues_eq_assign t values hcount]
  unfold Trace.assign
  rw [← assignAll_of_follows hops hmovable, ← hvalues', assignAll_values]

/-- A recorded trace is moved to the trace that would be recorded. -/
theorem moved_eq_record {f : CircuitFunction ℝ} (hf : f.Structural) {r : RecordedTrace ℝ}
    {args : List (Argument ℝ)} {register order : ℕ} {shots : Shots}
    (hrecord : Trace.record f r.args register shots order = .ok r.trace)
    (hfilled : ∀ a ∈ r.args, a.Filled) (hfilled' : ∀ a ∈ args, a.Filled)
    (h : r.moved? args = some t) : Trace.record f args register shots order = .ok t := by
  unfold RecordedTrace.moved? at h
  obtain ⟨_, hlength, h⟩ := Option.bind_eq_some_iff.mp h
  obtain ⟨owns, howns, h⟩ := Option.bind_eq_some_iff.mp h
  obtain ⟨values, hvalues, h⟩ := Option.bind_eq_some_iff.mp h
  have hlength' : r.args.length = args.length := by
    by_contra hne
    simp [guard, hne] at hlength
  obtain ⟨ops, hrecord', hops⟩ :=
    record_follows hf hlength' howns hfilled hfilled' hrecord
  rw [withValues_of_follows hops hvalues] at h
  obtain rfl := Option.some.inj h
  exact hrecord'

end Traces

/-! ## Requests -/

section Requests

variable {σ : Type} {b : Binding ℝ σ} {args : List (Argument ℝ)} {s : BindingState ℝ σ}

/-- The trace that a new recording gives. -/
noncomputable def freshTrace (b : Binding ℝ σ) (args : List (Argument ℝ)) :
    Except Error (Trace ℝ) :=
  Trace.record b.circuit args b.register b.config.shots b.config.maxOrder

/-- What is recorded, if anything, is what a new recording at the same arguments gives. -/
def Faithful (b : Binding ℝ σ) (s : BindingState ℝ σ) : Prop :=
  ∀ r, s.recorded = some r → (∀ a ∈ r.args, a.Filled) ∧ freshTrace b r.args = .ok r.trace

/-- A trace is moved, and nothing changes, or it is recorded. -/
theorem construct_cases (hmutable : b.config.mutable = false) (args : List (Argument ℝ))
    (s : BindingState ℝ σ) :
    (∃ t, s.recorded.bind (·.moved? args) = some t ∧
      (b.construct args).run.run s = (.ok t, s)) ∨
    s.recorded.bind (·.moved? args) = none ∧
      ((∃ t, freshTrace b args = .ok t ∧ (b.construct args).run.run s =
        (.ok t, { s with recordings := s.recordings + 1, recorded := some ⟨args, t⟩ })) ∨
      ∃ e, freshTrace b args = .error e ∧ (b.construct args).run.run s =
        (.error e, { s with recordings := s.recordings + 1 })) := by
  unfold Binding.construct
  rw [hmutable, if_neg Bool.false_ne_true, bind_run, get_run]
  cases hmoved : s.recorded.bind (·.moved? args) with
  | some t =>
    refine .inl ⟨t, rfl, ?_⟩
    simp only [hmoved]
    rfl
  | none =>
    refine .inr ⟨rfl, ?_⟩
    have hrecord : (b.record args).run.run s =
        (freshTrace b args, { s with recordings := s.recordings + 1 }) := record_run args s
    simp only [hmoved, bind_run, hrecord]
    cases freshTrace b args with
    | ok t => exact .inl ⟨t, rfl, rfl⟩
    | error e => exact .inr ⟨e, rfl, rfl⟩

/-- Requests for traces keep it so: what is recorded stays, or is replaced by a new recording. -/
theorem faithful_construct (hs : Faithful b s) (hfilled : ∀ a ∈ args, a.Filled) :
    Faithful b ((b.construct args).run.run s).2 := by
  by_cases hmutable : b.config.mutable = true
  · unfold Binding.construct
    rw [if_pos hmutable, record_run]
    exact hs
  · rw [Bool.not_eq_true] at hmutable
    obtain ⟨t, -, hrun⟩ | ⟨-, ⟨t, hfresh, hrun⟩ | ⟨e, -, hrun⟩⟩ :=
      construct_cases hmutable args s
    · rw [hrun]
      exact hs
    · rw [hrun]
      intro r hr
      obtain rfl := Option.some.inj hr
      exact ⟨hfilled, hfresh⟩
    · rw [hrun]
      exact hs

/-- Whatever was asked for before, the recorded trace is that of a new recording. -/
theorem faithful_after (session : Session ℝ σ) {calls : List (List (Argument ℝ))}
    (hfilled : ∀ call ∈ calls, ∀ a ∈ call, a.Filled) : Faithful b (b.after session calls) := by
  unfold Binding.after
  have hstart : Faithful b (Binding.start session) := fun r hr => by cases hr
  generalize Binding.start session = s at hstart
  induction calls generalizing s with
  | nil => exact hstart
  | cons call calls ih =>
    obtain ⟨hcall, hrest⟩ := List.forall_mem_cons.mp hfilled
    exact ih hrest _ (faithful_construct hstart hcall)

/-- Every request for a trace gives the trace of a new recording, or fails as a new recording
    does and leaves what was recorded. -/
theorem construct_step (hmutable : b.config.mutable = false) (hf : b.circuit.Structural)
    (hs : Faithful b s) (hfilled : ∀ a ∈ args, a.Filled) :
    ((b.construct args).run.run s).1 = freshTrace b args ∧
    ∀ e, ((b.construct args).run.run s).1 = .error e →
      ((b.construct args).run.run s).2.recorded = s.recorded := by
  obtain ⟨t, hmoved, hrun⟩ | ⟨-, ⟨t, hfresh, hrun⟩ | ⟨e, hfresh, hrun⟩⟩ :=
    construct_cases hmutable args s
  -- The trace is moved from one that was recorded at arguments of its own.
  · obtain ⟨r, hr, hmoved⟩ := Option.bind_eq_some_iff.mp hmoved
    obtain ⟨hfilled', hrecorded⟩ := hs r hr
    rw [hrun]
    exact ⟨(moved_eq_record hf hrecorded hfilled' hfilled hmoved).symm, fun _ _ => rfl⟩
  -- A new recording takes the place of the old one.
  · rw [hrun]
    exact ⟨hfresh.symm, fun e he => by cases he⟩
  · rw [hrun]
    exact ⟨hfresh.symm, fun _ _ => rfl⟩

/-- After any requests for traces, on arguments of any number, shape and kind, a binding that
    is not mutable gives the trace that a new recording of its circuit function gives, and
    fails where that fails, with what is recorded left as it was. -/
theorem construct_eq_record (b : Binding ℝ σ) (hmutable : b.config.mutable = false)
    (hf : b.circuit.Structural) (session : Session ℝ σ) (calls : List (List (Argument ℝ)))
    (args : List (Argument ℝ)) (hfilled : ∀ call ∈ calls, ∀ a ∈ call, a.Filled)
    (hargs : ∀ a ∈ args, a.Filled) :
    ((b.construct args).run.run (b.after session calls)).1 =
      Trace.record b.circuit args b.register b.config.shots b.config.maxOrder ∧
    ∀ e, ((b.construct args).run.run (b.after session calls)).1 = .error e →
      ((b.construct args).run.run (b.after session calls)).2.recorded =
        (b.after session calls).recorded := by
  exact construct_step hmutable hf (faithful_after session hfilled) hargs

end Requests

/-- Twice the first entry of the first argument. -/
noncomputable def doubledEntry : Expression Quantity :=
  .binary .mul (.leaf (.constant 2)) (.leaf (.entry 0 0))

/-- A rotation by twice the argument. -/
noncomputable def doubledAngle : CircuitFunction ℝ := fun args r => do
  let angle ← doubledEntry.eval (Quantity.jet args)
  (← r.apply StandardGate.rx.spec [angle] [0]).measure (.probs [])

theorem structural_doubledAngle : doubledAngle.Structural := by
  refine ⟨fun _ _ => .ok [.apply StandardGate.rx.spec [doubledEntry] [0], .measure (.probs [])],
    ?_, ?_⟩
  · intro _ _ steps hsteps step hstep
    obtain rfl := Except.ok.inj hsteps
    simp only [List.mem_cons, List.not_mem_nil, or_false] at hstep
    rcases hstep with rfl | rfl
    · simp [Instruction.Unfrozen, doubledEntry, Expression.Unfrozen]
    · trivial
  · intro args register
    unfold doubledAngle
    rw [ok_bind]
    simp only [List.foldlM_cons, List.foldlM_nil, Instruction.issue, List.mapM_cons,
      List.mapM_nil, bind_assoc, pure_bind, bind_pure]

/-- A binding of it that records only when it must, to a backend that is never asked. -/
noncomputable def reusing : Binding ℝ Unit :=
  let backend : Backend ℝ Unit :=
    { name := "silent"
      capabilities := .simulator 1
      expansionDepth := Backend.defaultExpansionDepth
      gates := ⟨#[]⟩
      execute := fun _ s => (.ok [], s) }
  { circuit := doubledAngle
    backend
    register := 1
    config := { BindingConfig.standard with mutable := false }
    differentiator := none }

/-- The second of three requests fails for want of an argument, and the third is served
    without a recording. -/
theorem construct_eq_record_reused :
    let s := reusing.after ⟨(), none⟩ [[.scalar 1], []]
    let (outcome, s') := (reusing.construct [.scalar 3]).run.run s
    s.recordings = 2 ∧ s'.recordings = 2 ∧ ∃ t, outcome = .ok t ∧ t.values = [3 * 2] ∧
      Trace.record doubledAngle [.scalar 3] 1 .analytic 1 = .ok t := by
  have hfresh := (construct_eq_record reusing rfl structural_doubledAngle ⟨(), none⟩
    [[.scalar 1], []] [.scalar 3] (by simp [Argument.Filled, Argument.scalar, Tensor.volume])
    (by simp [Argument.Filled, Argument.scalar, Tensor.volume])).1
  obtain ⟨t, ht, hvalues⟩ : ∃ t, Trace.record doubledAngle [.scalar 3] 1 .analytic 1 = .ok t ∧
      t.values = [3 * 2] := ⟨_, rfl, rfl⟩
  exact ⟨rfl, rfl, t, hfresh.trans ht, hvalues, ht⟩

end Proofs

end CircuitGrad
