import Mathlib
import CircuitGrad.Batch
import CircuitGrad.Proofs.FirstOrderShape
import CircuitGrad.Proofs.Shares
import CircuitGrad.Recording

/-! # Well-formed traces

    A trace is built from operations and measurements that their own
    constructors have accepted, and it is rebuilt in about a dozen places:
    operations are expanded, measurements distributed, parameters bound.
    Some of these check the new trace and others copy it.

    All of them keep a trace well-formed (`wellFormed_of_alters`), and the
    stages of a pipeline keep its settings as well: register, shots and layout
    (`keeps_of_emits`).  Either what is put into the trace has been made by a
    constructor again and the trace is checked (`Keeps.of_check`), or its
    operations are the same but for the values of their parameters
    (`Keeps.of_reparametrized`).
-/

namespace CircuitGrad

variable {α : Type}

/-! ## What is well-formed -/

/-- An operation has the parameters and the wires that its gate asks for, and no wire twice. -/
structure Operation.WellFormed (op : Operation α) : Prop where
  params   : op.params.length = op.spec.paramCount
  wired    : op.wires ≠ []
  wires    : op.spec.wireCount ≠ 0 → op.wires.length = op.spec.wireCount
  distinct : op.wires.Nodup

/-- The measurements that can be made. -/
inductive Measurement.Made : Measurement α → Prop
  | ofObservable (readout : Readout) (o : Observable α) : Made (.ofObservable readout o)
  | probs (wires : List ℕ) : Made (.probs wires)
  | state : Made .state
  | withReadout {m : Measurement α} (readout : Readout) : Made m → Made (m.withReadout readout)

/-- A trace has a wire, is valid, and holds well-formed operations and measurements. -/
structure Trace.WellFormed (t : Trace α) : Prop extends t.Valid where
  register_pos      : 0 < t.register
  operations_made   : ∀ op ∈ t.operations, op.WellFormed
  measurements_made : ∀ m ∈ t.measurements, m.Made

/-- Two traces have register, shots and layout in common. -/
structure Trace.SameSettings (t u : Trace α) : Prop where
  register : u.register = t.register
  shots    : u.shots = t.shots
  layout   : u.layout = t.layout

/-- The same gate on the same wires, with as many parameters. -/
structure Operation.Reparametrized (op op' : Operation α) : Prop where
  spec   : op'.spec = op.spec
  wires  : op'.wires = op.wires
  params : op'.params.length = op.params.length

/-! ## Steps -/

/-- Operations that the constructor of operations has given. -/
def Operation.Made (op : Operation α) : Prop :=
  ∃ spec params wires, Operation.make spec params wires = .ok op

/-- A trace in which something is replaced. -/
inductive Trace.Alters [Scalar α] (t : Trace α) : Trace α → Prop
  | operations {ops : List (Operation α)} {u : Trace α} :
      (∀ op ∈ ops, op.Made) → t.withOperations ops = .ok u → Alters t u
  | measurements {ms : List (Measurement α)} {u : Trace α} :
      (∀ m ∈ ms, m.Made) → t.withMeasurements ms = .ok u → Alters t u
  | shots (shots : Shots) : Alters t (t.withShots shots)
  | layout (layout : ArgumentLayout) : Alters t (t.withLayout layout)
  | values {values : List α} {u : Trace α} : t.withValues values = .ok u → Alters t u
  | param {index : ℕ} {value : α} {u : Trace α} : t.withParam index value = .ok u → Alters t u
  | trainable {indices : List ℕ} {u : Trace α} : t.withTrainable indices = .ok u → Alters t u

/-- A trace that a stage of a pipeline makes of another one. -/
inductive Trace.Emits [Scalar α] (t : Trace α) : Trace α → Prop
  | expand {table : GateTable α} {depth : ℕ} {stop : Criterion α} {u : Trace α} :
      t.expand table depth stop = .ok u → Emits t u
  | decompose {σ : Type} {b : Backend α σ} {u : Trace α} : b.decompose t = .ok u → Emits t u
  | differentiable {table : GateTable α} {depth : ℕ} {cost : DecompositionCost α} {u : Trace α} :
      t.expandDifferentiable table depth cost = .ok u → Emits t u
  | terms {grouped : Bool} {p : Plan α} {u : Trace α} :
      t.splitTerms grouped = .ok p → u ∈ p.traces → Emits t u
  | nonCommuting {p : Plan α} {u : Trace α} :
      t.splitNonCommuting = .ok p → u ∈ p.traces → Emits t u
  | capabilities {c : Capabilities} {p : Plan α} {u : Trace α} :
      t.splitFor c = .ok p → u ∈ p.traces → Emits t u
  | shift {c : ShiftConfig α} {p : Plan α} {u : Trace α} :
      ParameterShift.plan t c = .ok p → u ∈ p.traces → Emits t u
  | difference {c : DifferenceConfig α} {p : Plan α} {u : Trace α} :
      FiniteDifference.plan t c = .ok p → u ∈ p.traces → Emits t u
  | batch {bindings : List (Argument α)} {p : Plan α} {u : Trace α} :
      t.bindBatch bindings = .ok p → u ∈ p.traces → Emits t u

namespace Proofs

/-! ## Operations -/

section Operations

/-- An operation can be made exactly when it is well-formed. -/
theorem make_eq_ok_iff_wellFormed {spec : GateSpec α} {params : List (Jet α)} {wires : List ℕ}
    {op : Operation α} : Operation.make spec params wires = .ok op ↔
      op = ⟨spec, params, wires⟩ ∧ op.WellFormed := by
  constructor
  · intro h
    obtain rfl := make_eq_ok h
    refine ⟨rfl, ?_⟩
    unfold Operation.make at h
    split at h
    · cases h
    · next hparams =>
      split at h
      · cases h
      · next hwires =>
        rw [Bool.or_eq_true, not_or] at hwires
        obtain ⟨hne, hcount⟩ := hwires
        have hdistinct : Operation.duplicateWire? wires = none := by
          cases hduplicate : Operation.duplicateWire? wires with
          | none => rfl
          | some w =>
            rw [hduplicate] at h
            cases h
        exact ⟨not_not.mp hparams, by simpa using hne, by simpa using hcount,
          (duplicateWire_eq_none_iff wires).mp hdistinct⟩
  · rintro ⟨rfl, hparams, hne, hcount, hdistinct⟩
    have hwires : ¬(wires.isEmpty || (spec.wireCount ≠ 0 && wires.length ≠ spec.wireCount)) := by
      simpa [not_or] using ⟨hne, hcount⟩
    unfold Operation.make
    rw [if_neg (not_not.mpr hparams), if_neg hwires,
      (duplicateWire_eq_none_iff wires).mpr hdistinct]

theorem made_iff_wellFormed {op : Operation α} : op.Made ↔ op.WellFormed := by
  constructor
  · rintro ⟨spec, params, wires, h⟩
    exact (make_eq_ok_iff_wellFormed.mp h).2
  · intro h
    exact ⟨op.spec, op.params, op.wires, make_eq_ok_iff_wellFormed.mpr ⟨rfl, h⟩⟩

/-- What a well-formed operation is does not depend on the values of its parameters. -/
theorem wellFormed_of_reparametrized {op op' : Operation α} (h : op.Reparametrized op')
    (hop : op.WellFormed) : op'.WellFormed where
  params := by rw [h.params, h.spec, hop.params]
  wired := by rw [h.wires]; exact hop.wired
  wires := by rw [h.wires, h.spec]; exact hop.wires
  distinct := by rw [h.wires]; exact hop.distinct

theorem reparametrized_refl (op : Operation α) : op.Reparametrized op := ⟨rfl, rfl, rfl⟩

theorem reparametrized_withParam (op : Operation α) (index : ℕ) (value : α) :
    op.Reparametrized (op.withParam index value) :=
  ⟨rfl, rfl, List.length_modify _ _ _⟩

theorem reparametrized_withValues {op op' : Operation α} {values : List α}
    (h : op.withValues values = .ok op') : op.Reparametrized op' := by
  unfold Operation.withValues at h
  split at h
  · cases h
  · next hlength =>
    obtain rfl := Except.ok.inj h
    refine ⟨rfl, rfl, ?_⟩
    rw [List.length_zipWith, not_not.mp hlength, min_self]

theorem reparametrized_withTrainability [Scalar α] (op : Operation α) {flags : List Bool}
    (hlength : flags.length = op.params.length) :
    op.Reparametrized (op.withTrainability flags) := by
  refine ⟨rfl, rfl, ?_⟩
  show (List.zipWith _ op.params flags).length = _
  rw [List.length_zipWith, hlength, min_self]

/-! ### Decompositions -/

variable [Scalar α] {table : GateTable α} {op : Operation α} {parts : List (Operation α)}

/-- Whatever a decomposition names is made into operations by their constructor. -/
theorem wellFormed_of_decompose {choice : ℕ}
    (h : table.decompose? op choice = some (.ok parts)) : ∀ part ∈ parts, part.WellFormed := by
  intro part hpart
  obtain ⟨rule, calls, -, -, hcalls⟩ := decompose_eq_ok h
  obtain ⟨call, -, hcall⟩ := mem_of_mapM hcalls hpart
  exact (make_eq_ok_iff_wellFormed.mp hcall).2

omit [Scalar α] in
/-- Replacing each operation by well-formed ones gives well-formed ones. -/
theorem wellFormed_flatten {f : Operation α → Except Error (List (Operation α))}
    {ops : List (Operation α)} {results : List (List (Operation α))}
    (hf : ∀ op ∈ ops, ∀ parts, f op = .ok parts → ∀ part ∈ parts, part.WellFormed)
    (h : ops.mapM f = .ok results) : ∀ part ∈ results.flatten, part.WellFormed := by
  intro part hpart
  obtain ⟨parts, hparts, hpart⟩ := List.mem_flatten.mp hpart
  obtain ⟨op, hop, hown⟩ := mem_of_mapM h hparts
  exact hf op hop parts hown part hpart

theorem wellFormed_of_expandOperation {stop : Criterion α} {depth : ℕ} (hop : op.WellFormed)
    (h : table.expandOperation stop depth op = .ok parts) : ∀ part ∈ parts, part.WellFormed := by
  induction depth using Nat.strong_induction_on generalizing op parts with
  | _ depth ih =>
    obtain rfl | ⟨depth', direct, results, rfl, hdirect, hresults, rfl⟩ := expandOperation_eq_ok h
    · exact List.forall_mem_singleton.mpr hop
    · exact wellFormed_flatten (fun part hpart _ hown =>
        ih depth' (Nat.lt_succ_self _) (wellFormed_of_decompose hdirect part hpart) hown) hresults

theorem wellFormed_of_differentiable {cost : DecompositionCost α} {depth : ℕ} (hop : op.WellFormed)
    (h : table.differentiable cost depth op = .ok parts) : ∀ part ∈ parts, part.WellFormed := by
  induction depth using Nat.strong_induction_on generalizing op parts with
  | _ depth ih =>
    obtain ⟨-, rfl⟩ | ⟨depth', direct, results, rfl, -, hdirect, hresults, rfl⟩ :=
      differentiable_eq_ok h
    · exact List.forall_mem_singleton.mpr hop
    · obtain ⟨choice, hchoice⟩ := cheapestDecomposition_eq_ok hdirect
      exact wellFormed_flatten (fun part hpart _ hown =>
        ih depth' (Nat.lt_succ_self _) (wellFormed_of_decompose hchoice part hpart) hown) hresults

end Operations

/-! ## Measurements -/

section Measurements

/-- A measurement of an observable names its wires. -/
theorem wires_of_made {m : Measurement α} (hm : m.Made) {o : Observable α}
    (ho : m.observable = some o) : m.wires = o.wires := by
  induction hm with
  | ofObservable readout o' =>
    obtain rfl := Option.some.inj ho
    rfl
  | probs | state => cases ho
  | withReadout readout _ ih => exact ih ho

/-- The shares of a measurement are measurements that can be made. -/
theorem made_of_termShares [One α] {m : Measurement α} (hm : m.Made) {parent : ℕ}
    {shares : List (Share α)} (h : m.termShares parent = .ok shares) :
    ∀ share ∈ shares, share.measurement.Made := by
  intro share hshare
  unfold Measurement.termShares at h
  split at h
  · split at h
    · obtain rfl := Except.ok.inj h
      obtain ⟨term, -, rfl⟩ := List.mem_map.mp hshare
      exact .ofObservable _ _
    · cases h
  · obtain rfl := Except.ok.inj h
    obtain rfl := List.mem_singleton.mp hshare
    exact hm

end Measurements

/-! ## Traces -/

section Traces

variable {t u v : Trace α}

theorem sameSettings_refl (t : Trace α) : t.SameSettings t := ⟨rfl, rfl, rfl⟩

theorem sameSettings_trans (h : t.SameSettings u) (h' : u.SameSettings v) : t.SameSettings v :=
  ⟨h'.register.trans h.register, h'.shots.trans h.shots, h'.layout.trans h.layout⟩

/-- The settings of a trace are kept, and it is well-formed again. -/
structure Keeps (t u : Trace α) : Prop where
  settings   : t.SameSettings u
  wellFormed : t.WellFormed → u.WellFormed

theorem Keeps.refl (t : Trace α) : Keeps t t := ⟨sameSettings_refl t, id⟩

theorem Keeps.trans (h : Keeps t u) (h' : Keeps u v) : Keeps t v :=
  ⟨sameSettings_trans h.settings h'.settings, h'.wellFormed ∘ h.wellFormed⟩

/-- New operations and measurements are checked. -/
theorem Keeps.of_check {ops : List (Operation α)} {ms : List (Measurement α)}
    (h : ({ t with operations := ops, measurements := ms } : Trace α).check = .ok u)
    (hops : t.WellFormed → ∀ op ∈ ops, op.WellFormed)
    (hms : t.WellFormed → ∀ m ∈ ms, m.Made) : Keeps t u := by
  obtain ⟨rfl, hvalid⟩ := check_eq_ok_iff.mp h
  refine ⟨⟨rfl, rfl, rfl⟩, fun ht => ?_⟩
  exact { hvalid with
    register_pos := ht.register_pos
    operations_made := hops ht
    measurements_made := hms ht }

/-- Binding parameters is not checked, and does not have to be. -/
theorem Keeps.of_reparametrized {ops : List (Operation α)}
    (h : List.Forall₂ Operation.Reparametrized t.operations ops) :
    Keeps t { t with operations := ops } := by
  refine ⟨⟨rfl, rfl, rfl⟩, fun ht => ?_⟩
  have hback : ∀ op' ∈ ops, ∃ op ∈ t.operations, op.Reparametrized op' := fun op' hop' =>
    exists_of_forall₂ h.flip hop'
  refine ⟨⟨ht.measured, ?_, ht.measurements⟩, ht.register_pos, ?_, ht.measurements_made⟩
  · intro op' hop' w hw
    obtain ⟨op, hop, hsame⟩ := hback op' hop'
    exact ht.operations op hop w (hsame.wires ▸ hw)
  · intro op' hop'
    obtain ⟨op, hop, hsame⟩ := hback op' hop'
    exact wellFormed_of_reparametrized hsame (ht.operations_made op hop)

theorem keeps_withOperations {ops : List (Operation α)} (h : t.withOperations ops = .ok u)
    (hops : t.WellFormed → ∀ op ∈ ops, op.WellFormed) : Keeps t u :=
  .of_check h hops Trace.WellFormed.measurements_made

theorem keeps_withMeasurements {ms : List (Measurement α)} (h : t.withMeasurements ms = .ok u)
    (hms : t.WellFormed → ∀ m ∈ ms, m.Made) : Keeps t u :=
  .of_check h Trace.WellFormed.operations_made hms

/-! ### Parameters -/

theorem reparametrized_modify (ops : List (Operation α)) (o p : ℕ) (x : α) :
    List.Forall₂ Operation.Reparametrized ops (ops.modify o (·.withParam p x)) := by
  induction ops generalizing o with
  | nil => cases o <;> exact .nil
  | cons op rest ih =>
    cases o with
    | zero =>
      exact .cons (reparametrized_withParam op p x) (List.forall₂_same.mpr fun _ _ =>
        reparametrized_refl _)
    | succ o => exact .cons (reparametrized_refl op) (ih o)

theorem keeps_withParam {index : ℕ} {value : α} (h : t.withParam index value = .ok u) :
    Keeps t u := by
  unfold Trace.withParam at h
  split at h
  · cases h
  · obtain rfl := Except.ok.inj h
    exact .of_reparametrized (reparametrized_modify _ _ _ _)

theorem reparametrized_deal_values {ops ops' : List (Operation α)} {values : List α}
    (h : (Trace.deal Operation.withValues ops values).mapM id = .ok ops') :
    List.Forall₂ Operation.Reparametrized ops ops' := by
  induction ops generalizing values ops' with
  | nil =>
    cases h
    exact .nil
  | cons op rest ih =>
    obtain ⟨first, others, hfirst, hothers, rfl⟩ := mapM_cons_eq_ok h
    exact .cons (reparametrized_withValues hfirst) (ih hothers)

theorem keeps_withValues {values : List α} (h : t.withValues values = .ok u) : Keeps t u := by
  unfold Trace.withValues at h
  split at h
  · cases h
  · obtain ⟨ops, hops, h⟩ := bind_eq_ok h
    obtain rfl := Except.ok.inj h
    exact .of_reparametrized (reparametrized_deal_values hops)

/-- There is one flag for each parameter, so no parameter is lost. -/
theorem reparametrized_deal_flags [Scalar α] {ops : List (Operation α)} {flags : List Bool}
    (h : flags.length = (ops.map (·.params.length)).sum) :
    List.Forall₂ Operation.Reparametrized ops
      (Trace.deal Operation.withTrainability ops flags) := by
  induction ops generalizing flags with
  | nil => exact .nil
  | cons op rest ih =>
    rw [List.map_cons, List.sum_cons] at h
    refine .cons (reparametrized_withTrainability op ?_) (ih ?_)
    · rw [List.length_take]
      omega
    · rw [List.length_drop]
      omega

theorem keeps_withTrainable [Scalar α] {indices : List ℕ} (h : t.withTrainable indices = .ok u) :
    Keeps t u := by
  unfold Trace.withTrainable at h
  dsimp only at h
  split at h
  · cases h
  · obtain rfl := Except.ok.inj h
    refine .of_reparametrized (reparametrized_deal_flags ?_)
    rw [List.length_map, List.length_range]
    rfl

/-! ### Stages -/

section Stages

variable [Scalar α] {p : Plan α}

theorem keeps_expand {table : GateTable α} {depth : ℕ} {stop : Criterion α}
    (h : t.expand table depth stop = .ok u) : Keeps t u := by
  obtain ⟨-, rfl⟩ | ⟨results, hresults, rfl, hvalid⟩ := expand_cases h
  · exact .refl u
  · exact keeps_withOperations (check_eq_ok_iff.mpr ⟨rfl, hvalid⟩) fun ht => wellFormed_flatten
      (fun op hop _ hown => wellFormed_of_expandOperation (ht.operations_made op hop) hown) hresults

theorem keeps_decompose {σ : Type} {b : Backend α σ} (h : b.decompose t = .ok u) : Keeps t u := by
  exact keeps_expand (expand_of_decompose h)

theorem keeps_expandDifferentiable {table : GateTable α} {depth : ℕ} {cost : DecompositionCost α}
    (h : t.expandDifferentiable table depth cost = .ok u) : Keeps t u := by
  obtain ⟨-, rfl⟩ | ⟨results, hresults, rfl, hvalid⟩ := expandDifferentiable_cases h
  · exact .refl u
  · exact keeps_withOperations (check_eq_ok_iff.mpr ⟨rfl, hvalid⟩) fun ht => wellFormed_flatten
      (fun op hop _ hown => wellFormed_of_differentiable (ht.operations_made op hop) hown) hresults

/-- Every part of a splitting measures some of the shares. -/
theorem keeps_splittingPlan {shares : List (Share α)} {groups : List (List ℕ)}
    (hshares : t.WellFormed → ∀ share ∈ shares, share.measurement.Made)
    (h : Splitting.plan t shares groups = .ok p) (hu : u ∈ p.traces) : Keeps t u := by
  obtain ⟨parts, hparts, h⟩ := bind_eq_ok h
  obtain rfl := Except.ok.inj h
  obtain ⟨part, hpart, rfl⟩ := List.mem_map.mp hu
  obtain ⟨group, -, hpart⟩ := mem_of_mapM hparts hpart
  obtain ⟨v, hv, hpart⟩ := bind_eq_ok hpart
  obtain rfl := Except.ok.inj hpart
  refine keeps_withMeasurements hv fun ht m hm => ?_
  obtain ⟨share, hshare, rfl⟩ := List.mem_map.mp hm
  obtain ⟨i, -, hi⟩ := List.mem_filterMap.mp hshare
  exact hshares ht share (List.mem_of_getElem? hi)

theorem keeps_splitTerms {grouped : Bool} (h : t.splitTerms grouped = .ok p) (hu : u ∈ p.traces) :
    Keeps t u := by
  obtain ⟨shares, hshares, h⟩ := bind_eq_ok h
  have hmade : t.WellFormed → ∀ share ∈ shares, share.measurement.Made := by
    intro ht share hshare
    obtain ⟨owns, howns, hshares⟩ := bind_eq_ok hshares
    obtain rfl := Except.ok.inj hshares
    obtain ⟨own, hown, hshare⟩ := List.mem_flatten.mp hshare
    obtain ⟨⟨m, parent⟩, hm, hown⟩ := mem_of_mapM howns hown
    exact made_of_termShares (ht.measurements_made m (List.fst_mem_of_mem_zipIdx hm)) hown
      share hshare
  dsimp only at h
  split at h
  · obtain ⟨groups, -, h⟩ := bind_eq_ok h
    exact keeps_splittingPlan hmade h hu
  · exact keeps_splittingPlan hmade h hu

omit [Scalar α] in
theorem keeps_of_mem_identity (hu : u ∈ (Plan.identity t).traces) : Keeps t u := by
  obtain rfl := List.mem_singleton.mp hu
  exact .refl u

theorem keeps_splitNonCommuting (h : t.splitNonCommuting = .ok p) (hu : u ∈ p.traces) :
    Keeps t u := by
  obtain ⟨groups, -, h⟩ := bind_eq_ok h
  split at h
  · obtain rfl := Except.ok.inj h
    exact keeps_of_mem_identity hu
  · refine keeps_splittingPlan (fun ht share hshare => ?_) h hu
    obtain ⟨⟨m, parent⟩, hm, rfl⟩ := List.mem_map.mp hshare
    exact ht.measurements_made m (List.fst_mem_of_mem_zipIdx hm)

theorem keeps_splitFor {c : Capabilities} (h : t.splitFor c = .ok p) (hu : u ∈ p.traces) :
    Keeps t u := by
  unfold Trace.splitFor at h
  split at h
  · exact keeps_splitTerms h hu
  · split at h
    · exact keeps_splitNonCommuting h hu
    · obtain rfl := Except.ok.inj h
      exact keeps_of_mem_identity hu

omit [Scalar α] in
theorem keeps_withMeans (h : t.withMeans = .ok u) : Keeps t u := by
  refine keeps_withMeasurements h fun ht m hm => ?_
  obtain ⟨m', hm', rfl⟩ := List.mem_map.mp hm
  split
  · exact .withReadout _ (ht.measurements_made m' hm')
  · exact ht.measurements_made m' hm'

theorem keeps_shifts {c : ShiftConfig α} (h : ParameterShift.plan t c = .ok p)
    (hu : u ∈ p.traces) : Keeps t u := by
  obtain ⟨selected, vs, base, rules, shifted, shape, -, -, hbase, -, -, hshifted, htraces, -⟩ :=
    plan_eq_ok h
  have hkeeps : Keeps t base := by
    split at hbase
    · obtain rfl := Except.ok.inj hbase
      exact .refl t
    · exact keeps_withMeans hbase
  rw [htraces] at hu
  rcases List.mem_append.mp hu with hu | hu
  · obtain ⟨us, hus, hu⟩ := List.mem_flatten.mp hu
    obtain ⟨e, -, he⟩ := mem_of_mapM hshifted hus
    obtain ⟨term, -, hterm⟩ := mem_of_mapM he hu
    exact hkeeps.trans (keeps_withParam hterm)
  · split at hu
    · obtain rfl := List.mem_singleton.mp hu
      exact hkeeps
    · cases hu

theorem keeps_differences {c : DifferenceConfig α} (h : FiniteDifference.plan t c = .ok p)
    (hu : u ∈ p.traces) : Keeps t u := by
  unfold FiniteDifference.plan at h
  obtain ⟨_, -, h⟩ := bind_eq_ok h
  split at h
  · cases h
  · obtain ⟨selected, -, h⟩ := bind_eq_ok h
    obtain ⟨shape, -, h⟩ := bind_eq_ok h
    split at h
    · obtain rfl := Except.ok.inj h
      cases hu
    · obtain ⟨traces, htraces, h⟩ := bind_eq_ok h
      obtain rfl := Except.ok.inj h
      obtain ⟨moved, hmoved, htraces⟩ := bind_eq_ok htraces
      obtain rfl := Except.ok.inj htraces
      rcases List.mem_append.mp hu with hu | hu
      · split at hu
        · cases hu
        · obtain rfl := List.mem_singleton.mp hu
          exact .refl u
      · obtain ⟨us, hus, hu⟩ := List.mem_flatten.mp hu
        obtain ⟨i, -, hi⟩ := mem_of_mapM hmoved hus
        obtain ⟨x, -, hx⟩ := mem_of_mapM hi hu
        exact keeps_withParam hx

theorem keeps_bindBatch {bindings : List (Argument α)} (h : t.bindBatch bindings = .ok p)
    (hu : u ∈ p.traces) : Keeps t u := by
  unfold Trace.bindBatch at h
  dsimp only at h
  split at h
  · cases h
  · obtain ⟨size?, -, h⟩ := bind_eq_ok h
    split at h
    · cases h
    · split at h
      · cases h
      · obtain ⟨traces, htraces, h⟩ := bind_eq_ok h
        obtain ⟨shape, -, h⟩ := bind_eq_ok h
        obtain rfl := Except.ok.inj h
        obtain ⟨i, -, hi⟩ := mem_of_mapM htraces hu
        exact keeps_withValues hi

/-- Every stage emits traces with the settings of the trace that it is given, and well-formed
    ones for a well-formed one. -/
theorem keeps_of_emits (h : t.Emits u) : Keeps t u := by
  cases h with
  | expand h => exact keeps_expand h
  | decompose h => exact keeps_decompose h
  | differentiable h => exact keeps_expandDifferentiable h
  | terms h hu => exact keeps_splitTerms h hu
  | nonCommuting h hu => exact keeps_splitNonCommuting h hu
  | capabilities h hu => exact keeps_splitFor h hu
  | shift h hu => exact keeps_shifts h hu
  | difference h hu => exact keeps_differences h hu
  | batch h hu => exact keeps_bindBatch h hu

/-- Whatever is replaced in a well-formed trace, it stays well-formed. -/
theorem wellFormed_of_alters (h : t.Alters u) (ht : t.WellFormed) : u.WellFormed := by
  cases h with
  | operations hops h =>
    exact (keeps_withOperations h fun _ op hop =>
      made_iff_wellFormed.mp (hops op hop)).wellFormed ht
  | measurements hms h => exact (keeps_withMeasurements h fun _ => hms).wellFormed ht
  | shots shots =>
    exact ⟨⟨ht.measured, ht.operations, ht.measurements⟩, ht.register_pos, ht.operations_made,
      ht.measurements_made⟩
  | layout layout =>
    exact ⟨⟨ht.measured, ht.operations, ht.measurements⟩, ht.register_pos, ht.operations_made,
      ht.measurements_made⟩
  | values h => exact (keeps_withValues h).wellFormed ht
  | param h => exact (keeps_withParam h).wellFormed ht
  | trainable h => exact (keeps_withTrainable h).wellFormed ht

end Stages

end Traces

end Proofs

end CircuitGrad
