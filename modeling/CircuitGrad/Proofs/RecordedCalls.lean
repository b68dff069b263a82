import Mathlib
import CircuitGrad.Proofs.WellFormedTrace

/-! # Recorded calls

    A circuit function issues calls on a recording.  A call may fail, and the
    function may ignore this and go on, so what is recorded in the end depends
    on what a failing call has written.

    Each call makes its checks before it writes.  So it succeeds exactly if
    the recording admits it, and else leaves the recording as it was
    (`issue_cases`).  After any calls the recording holds what the successful
    ones have issued (`after_eq`), and on wires of the register
    (`within_after`): the checks of a finished trace repeat those of the
    calls, but for the size of the register and the number of measurements.
-/

namespace CircuitGrad

variable {α : Type}

/-- Changes of a recording in place: what is written before a failure stays. -/
abbrev Recorder (α : Type) := ExceptT Error (StateM (Recording α))

namespace Recorder

/-- Apply a gate. -/
def apply (spec : GateSpec α) (params : List (Jet α)) (wires : List ℕ) : Recorder α Unit := do
  (← get).checkOperation wires
  let op ← Operation.make spec params wires
  modify fun r => { r with operations := r.operations ++ [op] }

/-- Append an operation. -/
def push (op : Operation α) : Recorder α Unit := do
  (← get).checkOperation op.wires
  modify fun r => { r with operations := r.operations ++ [op] }

/-- Append a measurement. -/
def measure (m : Measurement α) : Recorder α Unit := do
  Trace.checkWires (← get).register m.wires
  modify fun r => { r with measurements := r.measurements ++ [m] }

end Recorder

/-- What a circuit function can call. -/
inductive RecordingCall (α : Type)
  | apply (spec : GateSpec α) (params : List (Jet α)) (wires : List ℕ)
  | push (op : Operation α)
  | expectation (o : Observable α)
  | variance (o : Observable α)
  | probs (wires : List ℕ)
  | state
  | sample (o : Observable α)

namespace RecordingCall

/-- The operation of a call that issues one. -/
def operation? : RecordingCall α → Option (Operation α)
  | .apply spec params wires => some ⟨spec, params, wires⟩
  | .push op => some op
  | _ => none

/-- The measurement of a call that issues one. -/
def measurement? : RecordingCall α → Option (Measurement α)
  | .apply .. | .push _ => none
  | .expectation o => some (.ofObservable .expectation o)
  | .variance o => some (.ofObservable .variance o)
  | .probs wires => some (.probs wires)
  | .state => some .state
  | .sample o => some (.ofObservable .sample o)

/-- The call on a recording that gives the extended recording. -/
def on (c : RecordingCall α) (r : Recording α) : Except Error (Recording α) :=
  match c with
  | .apply spec params wires => r.apply spec params wires
  | .push op => r.push op
  | .expectation o => r.measure (.ofObservable .expectation o)
  | .variance o => r.measure (.ofObservable .variance o)
  | .probs wires => r.measure (.probs wires)
  | .state => r.measure .state
  | .sample o => r.measure (.ofObservable .sample o)

/-- The call in place. -/
def issue : RecordingCall α → Recorder α Unit
  | .apply spec params wires => Recorder.apply spec params wires
  | .push op => Recorder.push op
  | .expectation o => Recorder.measure (.ofObservable .expectation o)
  | .variance o => Recorder.measure (.ofObservable .variance o)
  | .probs wires => Recorder.measure (.probs wires)
  | .state => Recorder.measure .state
  | .sample o => Recorder.measure (.ofObservable .sample o)

end RecordingCall

/-- Make calls one after another, whatever their outcomes. -/
def Recorder.session (calls : List (RecordingCall α)) :
    StateM (Recording α) (List (Except Error Unit)) :=
  calls.mapM fun c => c.issue.run

namespace Recording

/-- Outcomes of calls made one after another. -/
def outcomes (r : Recording α) (calls : List (RecordingCall α)) : List (Except Error Unit) :=
  ((Recorder.session calls).run r).1

/-- The recording after calls. -/
def after (r : Recording α) (calls : List (RecordingCall α)) : Recording α :=
  ((Recorder.session calls).run r).2

/-- The calls that succeed. -/
def accepted (r : Recording α) (calls : List (RecordingCall α)) : List (RecordingCall α) :=
  ((calls.zip (r.outcomes calls)).filter (·.2.isOk)).map (·.1)

/-- A call is possible: its wires lie in the register, and an operation comes before the
    measurements and has the parameters and wires that its gate asks for. -/
def Admits (r : Recording α) : RecordingCall α → Prop
  | .apply spec params wires => (⟨spec, params, wires⟩ : Operation α).WellFormed ∧
      r.measurements = [] ∧ ∀ w ∈ wires, w < r.register
  | .push op => r.measurements = [] ∧ ∀ w ∈ op.wires, w < r.register
  | c => ∀ m ∈ c.measurement?, ∀ w ∈ m.wires, w < r.register

/-- The recording with what a call issues. -/
def add (r : Recording α) (c : RecordingCall α) : Recording α :=
  { r with
    operations := r.operations ++ c.operation?.toList
    measurements := r.measurements ++ c.measurement?.toList }

/-- All wires lie in the register. -/
structure Within (r : Recording α) : Prop where
  operations   : ∀ op ∈ r.operations, ∀ w ∈ op.wires, w < r.register
  measurements : ∀ m ∈ r.measurements, ∀ w ∈ m.wires, w < r.register

end Recording

namespace Proofs

/-! ## One call -/

section Calls

variable {r : Recording α}

/-- The outcome of a change and the recording after it, for a change that fails as a whole. -/
def settle (r : Recording α) (x : Except Error (Recording α)) : Except Error Unit × Recording α :=
  match x with
  | .ok r' => (.ok (), r')
  | .error e => (.error e, r)

/-- A check that fails leaves the recording as it is. -/
theorem run_check {β γ : Type} (x : Except Error β) (f : β → Recorder α γ) :
    ((liftM x >>= f : Recorder α γ).run.run r) =
      match x with
      | .ok a => (f a).run.run r
      | .error e => (.error e, r) := by
  cases x <;> rfl

theorem run_apply (spec : GateSpec α) (params : List (Jet α)) (wires : List ℕ) :
    (Recorder.apply spec params wires).run.run r = settle r (r.apply spec params wires) := by
  refine (run_check (r.checkOperation wires) _).trans ?_
  unfold Recording.apply
  cases r.checkOperation wires with
  | error e => rfl
  | ok =>
    refine (run_check (Operation.make spec params wires) _).trans ?_
    cases Operation.make spec params wires <;> rfl

theorem run_push (op : Operation α) :
    (Recorder.push op).run.run r = settle r (r.push op) := by
  refine (run_check (r.checkOperation op.wires) _).trans ?_
  unfold Recording.push
  cases r.checkOperation op.wires <;> rfl

theorem run_measure (m : Measurement α) :
    (Recorder.measure m).run.run r = settle r (r.measure m) := by
  refine (run_check (Trace.checkWires r.register m.wires) _).trans ?_
  unfold Recording.measure
  cases Trace.checkWires r.register m.wires <;> rfl

/-- Calls in place agree with those that give the extended recording. -/
theorem run_issue (c : RecordingCall α) (r : Recording α) :
    c.issue.run.run r = settle r (c.on r) := by
  cases c with
  | apply spec params wires => exact run_apply spec params wires
  | push op => exact run_push op
  | expectation | variance | probs | state | sample => exact run_measure _

theorem checkOperation_eq_ok_iff {wires : List ℕ} :
    r.checkOperation wires = .ok () ↔ r.measurements = [] ∧ ∀ w ∈ wires, w < r.register := by
  unfold Recording.checkOperation
  split
  · next h => rw [checkWires_eq_ok_iff, and_iff_right (List.isEmpty_iff.mp h)]
  · next h => exact iff_of_false nofun fun hr => h (List.isEmpty_iff.mpr hr.1)

/-- A change after a check. -/
theorem check_bind_eq_ok_iff {β : Type} {x : Except Error Unit} {y : β} {z : β} :
    (x >>= fun _ => Except.ok y) = .ok z ↔ x = .ok () ∧ z = y := by
  cases x with
  | error e => exact iff_of_false nofun nofun
  | ok => exact ⟨fun h => ⟨rfl, (Except.ok.inj h).symm⟩, fun h => congrArg Except.ok h.2.symm⟩

theorem push_eq_ok_iff {op : Operation α} {r' : Recording α} : r.push op = .ok r' ↔
    (r.measurements = [] ∧ ∀ w ∈ op.wires, w < r.register) ∧
      r' = { r with operations := r.operations ++ [op] } := by
  rw [← checkOperation_eq_ok_iff]
  exact check_bind_eq_ok_iff

theorem measure_eq_ok_iff {m : Measurement α} {r' : Recording α} : r.measure m = .ok r' ↔
    (∀ w ∈ m.wires, w < r.register) ∧ r' = { r with measurements := r.measurements ++ [m] } := by
  rw [← checkWires_eq_ok_iff]
  exact check_bind_eq_ok_iff

/-- Applying a gate is making the operation and pushing it. -/
theorem apply_eq_ok_iff {spec : GateSpec α} {params : List (Jet α)} {wires : List ℕ}
    {r' : Recording α} : r.apply spec params wires = .ok r' ↔
      (⟨spec, params, wires⟩ : Operation α).WellFormed ∧
        r.push ⟨spec, params, wires⟩ = .ok r' := by
  rw [push_eq_ok_iff, ← checkOperation_eq_ok_iff]
  constructor
  · intro h
    obtain ⟨_, hcheck, h⟩ := bind_eq_ok h
    obtain ⟨op, hmake, h⟩ := bind_eq_ok h
    obtain ⟨rfl, hop⟩ := make_eq_ok_iff_wellFormed.mp hmake
    exact ⟨hop, hcheck, (Except.ok.inj h).symm⟩
  · rintro ⟨hop, hcheck, rfl⟩
    unfold Recording.apply
    rw [hcheck, make_eq_ok_iff_wellFormed.mpr ⟨rfl, hop⟩]
    rfl

/-- A call succeeds exactly if the recording admits it, and then appends what it issues. -/
theorem on_eq_ok_iff {c : RecordingCall α} {r' : Recording α} :
    c.on r = .ok r' ↔ r.Admits c ∧ r' = r.add c := by
  have hpushed {op : Operation α} : r.push op = .ok r' ↔
      (r.measurements = [] ∧ ∀ w ∈ op.wires, w < r.register) ∧
        r' = ⟨r.register, r.operations ++ [op], r.measurements ++ []⟩ := by
    rw [push_eq_ok_iff, List.append_nil]
  have hmeasured {m : Measurement α} : r.measure m = .ok r' ↔
      (∀ m' ∈ some m, ∀ w ∈ m'.wires, w < r.register) ∧
        r' = ⟨r.register, r.operations ++ [], r.measurements ++ [m]⟩ := by
    rw [measure_eq_ok_iff, List.append_nil]
    simp
  cases c with
  | apply spec params wires =>
    exact apply_eq_ok_iff.trans ((and_congr_right fun _ => hpushed).trans and_assoc.symm)
  | push op => exact hpushed
  | expectation | variance | probs | state | sample => exact hmeasured

/-- A call succeeds and appends what it issues, or fails and changes nothing. -/
theorem issue_cases (c : RecordingCall α) (r : Recording α) :
    (r.Admits c ∧ c.issue.run.run r = (.ok (), r.add c)) ∨
      (¬r.Admits c ∧ ∃ e, c.issue.run.run r = (.error e, r)) := by
  rw [run_issue]
  cases h : c.on r with
  | ok r' =>
    obtain ⟨hadmits, rfl⟩ := on_eq_ok_iff.mp h
    exact .inl ⟨hadmits, rfl⟩
  | error e =>
    refine .inr ⟨fun hadmits => ?_, e, rfl⟩
    rw [on_eq_ok_iff.mpr ⟨hadmits, rfl⟩] at h
    cases h

/-- After a measurement, operations are refused. -/
theorem issue_late {c : RecordingCall α} (hr : r.measurements ≠ []) (hc : c.operation? ≠ none) :
    c.issue.run.run r = (.error (.invalidTrace .lateOperation), r) := by
  have hlate (wires : List ℕ) : r.checkOperation wires = .error (.invalidTrace .lateOperation) :=
    if_neg (mt List.isEmpty_iff.mp hr)
  rw [run_issue]
  cases c with
  | apply spec params wires =>
    show settle r (r.apply spec params wires) = _
    unfold Recording.apply
    rw [hlate]
    rfl
  | push op =>
    show settle r (r.push op) = _
    unfold Recording.push
    rw [hlate]
    rfl
  | expectation | variance | probs | state | sample => exact absurd rfl hc

end Calls

/-! ## Calls one after another -/

section Sessions

variable {r : Recording α} {calls : List (RecordingCall α)}

theorem outcomes_cons (r : Recording α) (c : RecordingCall α) (calls : List (RecordingCall α)) :
    r.outcomes (c :: calls) =
      (c.issue.run.run r).1 :: (c.issue.run.run r).2.outcomes calls := by
  unfold Recording.outcomes Recorder.session
  rw [List.mapM_cons]
  rfl

theorem after_cons (r : Recording α) (c : RecordingCall α) (calls : List (RecordingCall α)) :
    r.after (c :: calls) = (c.issue.run.run r).2.after calls := by
  unfold Recording.after Recorder.session
  rw [List.mapM_cons]
  rfl

theorem length_outcomes (r : Recording α) (calls : List (RecordingCall α)) :
    (r.outcomes calls).length = calls.length := by
  induction calls generalizing r with
  | nil => rfl
  | cons c calls ih => rw [outcomes_cons, List.length_cons, ih, List.length_cons]

/-- What the first of several calls does. -/
theorem accepted_cases (r : Recording α) (c : RecordingCall α) (calls : List (RecordingCall α)) :
    (r.Admits c ∧ r.accepted (c :: calls) = c :: (r.add c).accepted calls ∧
      r.after (c :: calls) = (r.add c).after calls) ∨
    (r.accepted (c :: calls) = r.accepted calls ∧ r.after (c :: calls) = r.after calls) := by
  rw [after_cons]
  unfold Recording.accepted
  rw [outcomes_cons]
  obtain ⟨hadmits, hrun⟩ | ⟨-, e, hrun⟩ := issue_cases c r
  · rw [hrun]
    exact .inl ⟨hadmits, rfl, rfl⟩
  · rw [hrun]
    exact .inr ⟨rfl, rfl⟩

/-- The recording holds what the successful calls have issued, in order. -/
theorem after_eq (r : Recording α) (calls : List (RecordingCall α)) : r.after calls =
    ⟨r.register, r.operations ++ (r.accepted calls).filterMap (·.operation?),
      r.measurements ++ (r.accepted calls).filterMap (·.measurement?)⟩ := by
  induction calls generalizing r with
  | nil =>
    show r = ⟨r.register, r.operations ++ [], r.measurements ++ []⟩
    rw [List.append_nil, List.append_nil]
  | cons c calls ih =>
    obtain ⟨-, haccepted, hafter⟩ | ⟨haccepted, hafter⟩ := accepted_cases r c calls
    · rw [hafter, haccepted, ih]
      unfold Recording.add
      cases c <;> simp [RecordingCall.operation?, RecordingCall.measurement?]
    · rw [hafter, haccepted, ih]

/-- What is admitted lies on wires of the register. -/
theorem within_of_admits {c : RecordingCall α} (hc : r.Admits c) :
    (∀ op ∈ c.operation?, ∀ w ∈ op.wires, w < r.register) ∧
      ∀ m ∈ c.measurement?, ∀ w ∈ m.wires, w < r.register := by
  cases c with
  | apply spec params wires =>
    refine ⟨fun op hop => ?_, nofun⟩
    obtain rfl := Option.some.inj hop
    exact hc.2.2
  | push op =>
    refine ⟨fun op' hop => ?_, nofun⟩
    obtain rfl := Option.some.inj hop
    exact hc.2
  | expectation | variance | probs | state | sample => exact ⟨nofun, hc⟩

theorem within_add {c : RecordingCall α} (hr : r.Within) (hc : r.Admits c) : (r.add c).Within := by
  obtain ⟨hop, hm⟩ := within_of_admits hc
  constructor
  · intro op hmem
    rcases List.mem_append.mp hmem with hmem | hmem
    · exact hr.operations op hmem
    · exact hop op (Option.mem_toList.mp hmem)
  · intro m hmem
    rcases List.mem_append.mp hmem with hmem | hmem
    · exact hr.measurements m hmem
    · exact hm m (Option.mem_toList.mp hmem)

theorem within_after (hr : r.Within) (calls : List (RecordingCall α)) : (r.after calls).Within := by
  induction calls generalizing r with
  | nil => exact hr
  | cons c calls ih =>
    obtain ⟨hadmits, -, hafter⟩ | ⟨-, hafter⟩ := accepted_cases r c calls
    · rw [hafter]
      exact ih (within_add hr hadmits)
    · rw [hafter]
      exact ih hr

theorem outcomes_late (hr : r.measurements ≠ []) {j : ℕ} {c : RecordingCall α}
    (hj : calls[j]? = some c) (hc : c.operation? ≠ none) :
    (r.outcomes calls)[j]? = some (.error (.invalidTrace .lateOperation)) := by
  induction calls generalizing r j with
  | nil => cases hj
  | cons first calls ih =>
    rw [outcomes_cons]
    cases j with
    | zero =>
      obtain rfl := Option.some.inj hj
      rw [issue_late hr hc]
      rfl
    | succ j =>
      -- No call takes a measurement away.
      refine ih ?_ hj
      obtain ⟨-, hrun⟩ | ⟨-, e, hrun⟩ := issue_cases first r
      · rw [hrun]
        exact List.append_ne_nil_of_left_ne_nil hr _
      · rw [hrun]
        exact hr

/-- Once a measurement is recorded, operations are refused. -/
theorem outcomes_after_measurement {i j : ℕ} (hij : i < j) {c c' : RecordingCall α}
    (hi : calls[i]? = some c) (hm : c.measurement? ≠ none)
    (hok : (r.outcomes calls)[i]? = some (.ok ())) (hj : calls[j]? = some c')
    (hc : c'.operation? ≠ none) :
    (r.outcomes calls)[j]? = some (.error (.invalidTrace .lateOperation)) := by
  induction calls generalizing r i j with
  | nil => cases hi
  | cons first calls ih =>
    obtain ⟨j, rfl⟩ := Nat.exists_eq_add_one_of_ne_zero (Nat.ne_zero_of_lt hij)
    rw [outcomes_cons] at hok ⊢
    cases i with
    | zero =>
      -- The measurement is the first call, and has been recorded when the others are made.
      obtain rfl := Option.some.inj hi
      refine outcomes_late ?_ hj hc
      obtain ⟨-, hrun⟩ | ⟨-, e, hrun⟩ := issue_cases first r
      · rw [hrun]
        exact List.append_ne_nil_of_right_ne_nil _ (mt Option.toList_eq_nil_iff.mp hm)
      · rw [hrun] at hok
        cases hok
    | succ i => exact ih (Nat.lt_of_succ_lt_succ hij) hi hok hj

/-- The checks of a finished trace repeat those of the calls, but for two. -/
theorem finish_eq_ok_iff (hr : r.Within) {shots : Shots} {layout : ArgumentLayout} {t : Trace α} :
    r.finish shots layout = .ok t ↔ r.register ≠ 0 ∧ r.measurements ≠ [] ∧
      t = ⟨r.operations, r.measurements, r.register, shots, layout⟩ := by
  constructor
  · intro h
    obtain ⟨u, hu, h⟩ := bind_eq_ok h
    obtain ⟨hregister, rfl, hvalid⟩ := make_eq_ok_iff.mp hu
    exact ⟨hregister, hvalid.measured, (Except.ok.inj h).symm⟩
  · rintro ⟨hregister, hmeasured, rfl⟩
    unfold Recording.finish
    rw [make_eq_ok_iff.mpr ⟨hregister, rfl, hmeasured, hr.operations, hr.measurements⟩]
    rfl

/-- **Recorded calls.**  Calls in place agree with those that give the extended recording.  A call
    succeeds exactly if the recording admits it, and leaves the recording as it was if it fails.
    When calls are made one after another and failures are ignored, each has an outcome, and after
    a measurement has been recorded every operation is refused.  In the end there is a trace
    exactly if the register has a wire and some measurement succeeded, and it holds the operations
    and measurements of the successful calls, in order. -/
theorem recorded_calls (register : ℕ) (calls : List (RecordingCall α)) :
    (∀ (c : RecordingCall α) (r : Recording α),
      c.issue.run.run r = settle r (c.on r) ∧
      ((c.issue.run.run r).1 = .ok () ↔ r.Admits c) ∧
      ∀ e r', c.issue.run.run r = (.error e, r') → r' = r) ∧
    ((Recording.start register).outcomes calls).length = calls.length ∧
    (∀ (i j : ℕ) c c', i < j → calls[i]? = some c → c.measurement? ≠ none →
      ((Recording.start register).outcomes calls)[i]? = some (.ok ()) →
      calls[j]? = some c' → c'.operation? ≠ none →
      ((Recording.start register).outcomes calls)[j]? =
        some (.error (.invalidTrace .lateOperation))) ∧
    ∀ shots layout t, ((Recording.start register).after calls).finish shots layout = .ok t ↔
      register ≠ 0 ∧
      (∃ c ∈ (Recording.start register).accepted calls, c.measurement? ≠ none) ∧
      t = ⟨((Recording.start register).accepted calls).filterMap (·.operation?),
        ((Recording.start register).accepted calls).filterMap (·.measurement?),
        register, shots, layout⟩ := by
  refine ⟨fun c r => ⟨run_issue c r, ?_, fun e r' h => ?_⟩, length_outcomes _ _,
    fun i j c c' hij hi hm hok hj hc => outcomes_after_measurement hij hi hm hok hj hc,
    fun shots layout t => ?_⟩
  · obtain ⟨hadmits, hrun⟩ | ⟨hadmits, e, hrun⟩ := issue_cases c r
    · rw [hrun]
      exact iff_of_true rfl hadmits
    · rw [hrun]
      exact iff_of_false nofun hadmits
  · obtain ⟨-, hrun⟩ | ⟨-, e', hrun⟩ := issue_cases c r
    · rw [hrun] at h
      cases h
    · rw [hrun] at h
      exact (Prod.mk.inj h).2.symm
  · -- What the calls have checked one by one is what the finished trace is checked for.
    have hwithin : (Recording.start register : Recording α).Within := ⟨nofun, nofun⟩
    have hmeasured (accepted : List (RecordingCall α)) :
        accepted.filterMap (·.measurement?) ≠ [] ↔ ∃ c ∈ accepted, c.measurement? ≠ none := by
      simp
    rw [finish_eq_ok_iff (within_after hwithin calls), after_eq]
    exact and_congr_right fun _ => and_congr_left fun _ => hmeasured _

/-- Calls of which some fail: a mean outside the register, a gate on too many wires, and a gate
    behind a measurement. -/
noncomputable def careless : List (RecordingCall ℝ) :=
  [.expectation (.word (.single 5 .Z)), .apply StandardGate.hadamard.spec [] [0],
    .apply StandardGate.hadamard.spec [] [0, 1], .probs [1],
    .push ⟨StandardGate.hadamard.spec, [], [1]⟩, .state]

/-- The failed mean does not end the operations, and the failed gates are not in the trace. -/
theorem recorded_calls_careless :
    ((Recording.start 2).after careless).finish (.finite 5) .empty =
      .ok ⟨[⟨StandardGate.hadamard.spec, [], [0]⟩], [.probs [1], .state], 2, .finite 5, .empty⟩ ∧
    ((Recording.start 2).outcomes careless)[4]? = some (.error (.invalidTrace .lateOperation)) := by
  obtain ⟨-, -, hlate, hfinish⟩ := recorded_calls 2 careless
  have haccepted : (Recording.start 2).accepted careless =
      [.apply StandardGate.hadamard.spec [] [0], .probs [1], .state] := rfl
  rw [haccepted] at hfinish
  refine ⟨(hfinish _ _ _).mpr ⟨two_ne_zero, ⟨.state, by simp, nofun⟩, rfl⟩, ?_⟩
  exact hlate 3 4 _ _ (by decide) rfl nofun rfl rfl nofun

end Sessions

end Proofs

end CircuitGrad
