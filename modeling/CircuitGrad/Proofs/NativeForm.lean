import Mathlib
import CircuitGrad.Backend.Basic
import CircuitGrad.Proofs.RealScalar
import CircuitGrad.Proofs.Replacement

/-! # Native forms

    A backend expands the operations of a trace until all are native.  The
    rules that it follows come from anybody: they may lead in circles, so a
    depth bounds the expansion, and what is left when the expansion ends may
    still be foreign.

    The operations that the rules lead to form a tree below each operation
    of the trace (`Reaches`).  The expansion gives its leaves
    (`mem_expandOperation_iff`): where an operation is native, has no
    decomposition, or stands at the depth.  The trace has a native form
    exactly when all leaves are native (`decompose_eq_ok_iff_not_stuck`), and then
    more depth, or another round, changes nothing.
-/

namespace CircuitGrad

variable {α σ : Type} [Scalar α]

/-- `reached` stands in the tree of preferred decompositions of an operation, below `level`
    decompositions of operations that do not meet the criterion. -/
inductive GateTable.Reaches (table : GateTable α) (stop : Criterion α) :
    Operation α → ℕ → Operation α → Prop
  | root {op : Operation α} : Reaches table stop op 0 op
  | part {op part reached : Operation α} {parts : List (Operation α)} {level : ℕ} :
      ¬stop.check op → table.decompose? op 0 = some (.ok parts) → part ∈ parts →
      Reaches table stop part level reached → Reaches table stop op (level + 1) reached

/-- An operation of the tree where the expansion to a depth ends: it meets the criterion, it
    has no decomposition, or it stands at the depth. -/
def GateTable.Ends (table : GateTable α) (stop : Criterion α) (depth : ℕ)
    (op reached : Operation α) : Prop :=
  ∃ level ≤ depth, table.Reaches stop op level reached ∧
    (stop.check reached ∨ table.decompose? reached 0 = none ∨ level = depth)

/-- Whatever has a preferred decomposition above the depth can be decomposed. -/
def GateTable.RulesSucceed (table : GateTable α) (stop : Criterion α) (depth : ℕ)
    (op : Operation α) : Prop :=
  ∀ level < depth, ∀ reached, table.Reaches stop op level reached → ¬stop.check reached →
    ∀ answer, table.decompose? reached 0 = some answer → ∃ parts, answer = .ok parts

namespace Backend

/-- Where the expansion of a trace stops. -/
def nativeCriterion (b : Backend α σ) : Criterion α := .oneOf b.capabilities.native

/-- The preferred decompositions of the operations of a trace succeed, down to the depth. -/
def RulesSucceed (b : Backend α σ) (t : Trace α) : Prop :=
  ∀ op ∈ t.operations, b.gates.RulesSucceed b.nativeCriterion b.expansionDepth op

/-- The expansion of a trace ends in its register. -/
def EndsInRegister (b : Backend α σ) (t : Trace α) : Prop :=
  ∀ op ∈ t.operations, ∀ reached,
    b.gates.Ends b.nativeCriterion b.expansionDepth op reached →
      ∀ w ∈ reached.wires, w < t.register

/-- Some branch leads to an operation that is not native and has no decomposition, or stands
    at the depth. -/
def Stuck (b : Backend α σ) (t : Trace α) : Prop :=
  ∃ op ∈ t.operations, ∃ level reached, b.gates.Reaches b.nativeCriterion op level reached ∧
    ¬b.capabilities.isNative reached.name ∧
    (b.gates.decompose? reached 0 = none ∨ level = b.expansionDepth)

end Backend

namespace Proofs

/-! ## The tree of an operation -/

section Tree

variable {table : GateTable α} {stop : Criterion α} {op reached : Operation α}
  {parts : List (Operation α)} {level depth : ℕ}

theorem reaches_zero_iff : table.Reaches stop op 0 reached ↔ reached = op := by
  constructor
  · intro h
    cases h
    rfl
  · rintro rfl
    exact .root

theorem reaches_succ_iff : table.Reaches stop op (level + 1) reached ↔
    ¬stop.check op ∧ ∃ parts, table.decompose? op 0 = some (.ok parts) ∧
      ∃ part ∈ parts, table.Reaches stop part level reached := by
  constructor
  · intro h
    cases h with
    | part hop hparts hpart h => exact ⟨hop, _, hparts, _, hpart, h⟩
  · rintro ⟨hop, parts, hparts, part, hpart, h⟩
    exact .part hop hparts hpart h

/-- A branch leads through an operation on every level above its end, and that operation
    does not meet the criterion. -/
theorem exists_reached_above (h : table.Reaches stop op level reached) (hlt : depth < level) :
    ∃ above, table.Reaches stop op depth above ∧ ¬stop.check above := by
  induction h generalizing depth with
  | root => omega
  | part hop hparts hpart _ ih =>
    cases depth with
    | zero => exact ⟨_, .root, hop⟩
    | succ depth =>
      obtain ⟨above, habove, hcheck⟩ := ih (Nat.lt_of_succ_lt_succ hlt)
      exact ⟨above, .part hop hparts hpart habove, hcheck⟩

/-- What a set of operations that is closed under decomposition contains. -/
theorem reached_of_closed {P : Operation α → Prop} (hP : ∀ op, P op → ∀ parts,
    table.decompose? op 0 = some (.ok parts) → ∀ part ∈ parts, P part)
    (h : table.Reaches stop op level reached) (hop : P op) : P reached := by
  induction h with
  | root => exact hop
  | part _ hparts hpart _ ih => exact ih (hP _ hop _ hparts _ hpart)

/-! ### Leaves -/

theorem ends_zero_iff : table.Ends stop 0 op reached ↔ reached = op := by
  constructor
  · rintro ⟨level, hlevel, h, -⟩
    obtain rfl : level = 0 := by omega
    exact reaches_zero_iff.mp h
  · rintro rfl
    exact ⟨0, le_rfl, .root, .inr (.inr rfl)⟩

/-- An operation that is kept is the only leaf of its tree. -/
theorem ends_of_kept (hkept : stop.check op ∨ table.decompose? op 0 = none) :
    table.Ends stop depth op reached ↔ reached = op := by
  constructor
  · rintro ⟨level, -, h, -⟩
    cases level with
    | zero => exact reaches_zero_iff.mp h
    | succ level =>
      obtain ⟨hop, parts, hparts, -⟩ := reaches_succ_iff.mp h
      rcases hkept with hcheck | hnone
      · exact absurd hcheck hop
      · rw [hnone] at hparts
        cases hparts
  · rintro rfl
    exact ⟨0, Nat.zero_le _, .root, hkept.imp id .inl⟩

/-- The leaves below an operation that is decomposed are those of its parts. -/
theorem ends_succ_iff (hop : ¬stop.check op) (hparts : table.decompose? op 0 = some (.ok parts)) :
    table.Ends stop (depth + 1) op reached ↔
      ∃ part ∈ parts, table.Ends stop depth part reached := by
  constructor
  · rintro ⟨level, hlevel, h, hend⟩
    cases level with
    | zero =>
      obtain rfl := reaches_zero_iff.mp h
      rcases hend with hcheck | hnone | hdepth
      · exact absurd hcheck hop
      · rw [hnone] at hparts
        cases hparts
      · omega
    | succ level =>
      obtain ⟨-, parts', hparts', part, hpart, h⟩ := reaches_succ_iff.mp h
      obtain rfl : parts' = parts := Except.ok.inj (Option.some.inj (hparts'.symm.trans hparts))
      refine ⟨part, hpart, level, by omega, h, ?_⟩
      exact hend.imp id (Or.imp id (by omega))
  · rintro ⟨part, hpart, level, hlevel, h, hend⟩
    refine ⟨level + 1, by omega, .part hop hparts hpart h, ?_⟩
    exact hend.imp id (Or.imp id (by omega))

/-- The rules succeed for the parts of an operation if they succeed for the operation. -/
theorem rulesSucceed_part (h : table.RulesSucceed stop (depth + 1) op) (hop : ¬stop.check op)
    (hparts : table.decompose? op 0 = some (.ok parts)) :
    ∀ part ∈ parts, table.RulesSucceed stop depth part := by
  intro part hpart level hlevel reached hreached
  exact h (level + 1) (by omega) reached (.part hop hparts hpart hreached)

end Tree

/-! ## Expansion of operations -/

section Operations

variable {table : GateTable α} {stop : Criterion α} {op reached : Operation α}
  {ops expanded : List (Operation α)} {depth depth' : ℕ}

theorem expandOperation_kept (hkept : stop.check op ∨ table.decompose? op 0 = none) :
    table.expandOperation stop depth op = .ok [op] := by
  cases depth with
  | zero => rfl
  | succ depth =>
    unfold GateTable.expandOperation
    split
    · rfl
    · next hop =>
      rw [hkept.resolve_left hop]

theorem expandOperation_decomposed {answer : Except Error (List (Operation α))}
    (hop : ¬stop.check op) (hanswer : table.decompose? op 0 = some answer) :
    table.expandOperation stop (depth + 1) op =
      answer >>= table.expandOperations stop depth := by
  rw [GateTable.expandOperation, if_neg hop, hanswer]
  rfl

/-- The expansion of operations succeeds when it does for each of them. -/
theorem expandOperations_eq_ok_iff : table.expandOperations stop depth ops = .ok expanded ↔
    ∃ results, ops.mapM (table.expandOperation stop depth) = .ok results ∧
      results.flatten = expanded := by
  unfold GateTable.expandOperations
  constructor
  · intro h
    obtain ⟨results, hresults, h⟩ := bind_eq_ok h
    exact ⟨results, hresults, Except.ok.inj h⟩
  · rintro ⟨results, hresults, rfl⟩
    rw [hresults]
    rfl

/-- The expansion of operations lists what each of them expands to. -/
theorem mem_expandOperations_iff
    (hmem : ∀ op ∈ ops, ∀ parts, table.expandOperation stop depth op = .ok parts →
      (reached ∈ parts ↔ table.Ends stop depth op reached))
    (h : table.expandOperations stop depth ops = .ok expanded) :
    reached ∈ expanded ↔ ∃ op ∈ ops, table.Ends stop depth op reached := by
  obtain ⟨results, hresults, rfl⟩ := expandOperations_eq_ok_iff.mp h
  rw [List.mem_flatten]
  constructor
  · rintro ⟨parts, hparts, hreached⟩
    obtain ⟨op, hop, hown⟩ := mem_of_mapM hresults hparts
    exact ⟨op, hop, (hmem op hop parts hown).mp hreached⟩
  · rintro ⟨op, hop, hends⟩
    obtain ⟨parts, hown⟩ := ok_of_mapM hresults hop
    exact ⟨parts, mem_results_of_mapM hresults hop hown, (hmem op hop parts hown).mpr hends⟩

/-- An operation expands to the leaves of its tree. -/
theorem mem_expandOperation_iff (h : table.expandOperation stop depth op = .ok expanded) :
    reached ∈ expanded ↔ table.Ends stop depth op reached := by
  induction depth generalizing op expanded with
  | zero =>
    obtain rfl := Except.ok.inj h
    rw [List.mem_singleton, ends_zero_iff]
  | succ depth ih =>
    by_cases hkept : stop.check op ∨ table.decompose? op 0 = none
    · rw [expandOperation_kept hkept] at h
      obtain rfl := Except.ok.inj h
      rw [List.mem_singleton, ends_of_kept hkept]
    · obtain ⟨hop, hsome⟩ := not_or.mp hkept
      obtain ⟨answer, hanswer⟩ := Option.ne_none_iff_exists'.mp hsome
      rw [expandOperation_decomposed hop hanswer] at h
      obtain ⟨parts, rfl, h⟩ := bind_eq_ok h
      rw [ends_succ_iff hop hanswer]
      exact mem_expandOperations_iff (fun _ _ _ hown => ih hown) h

theorem exists_expandOperations
    (h : ∀ op ∈ ops, ∃ parts, table.expandOperation stop depth op = .ok parts) :
    ∃ expanded, table.expandOperations stop depth ops = .ok expanded := by
  obtain ⟨results, hresults⟩ := exists_mapM_eq_ok h
  exact ⟨results.flatten, expandOperations_eq_ok_iff.mpr ⟨results, hresults, rfl⟩⟩

/-- Where the rules succeed, so does the expansion. -/
theorem exists_expandOperation (h : table.RulesSucceed stop depth op) :
    ∃ expanded, table.expandOperation stop depth op = .ok expanded := by
  induction depth generalizing op with
  | zero => exact ⟨[op], rfl⟩
  | succ depth ih =>
    by_cases hkept : stop.check op ∨ table.decompose? op 0 = none
    · exact ⟨[op], expandOperation_kept hkept⟩
    · obtain ⟨hop, hsome⟩ := not_or.mp hkept
      obtain ⟨answer, hanswer⟩ := Option.ne_none_iff_exists'.mp hsome
      obtain ⟨parts, rfl⟩ := h 0 (Nat.succ_pos _) op .root hop answer hanswer
      rw [expandOperation_decomposed hop hanswer, ok_bind]
      exact exists_expandOperations fun part hpart =>
        ih (rulesSucceed_part h hop hanswer part hpart)

/-- Operations that are kept one by one are kept together. -/
theorem expandOperations_kept (h : ∀ op ∈ ops, table.expandOperation stop depth op = .ok [op]) :
    table.expandOperations stop depth ops = .ok ops := by
  refine expandOperations_eq_ok_iff.mpr ⟨ops.map fun op => [op], mapM_ok h, ?_⟩
  rw [← List.flatMap_def, List.flatMap_singleton']

theorem expandOperations_mono
    (hmono : ∀ op ∈ ops, ∀ parts, table.expandOperation stop depth op = .ok parts →
      (∀ part ∈ parts, stop.check part) → table.expandOperation stop depth' op = .ok parts)
    (h : table.expandOperations stop depth ops = .ok expanded)
    (hcheck : ∀ op ∈ expanded, stop.check op) :
    table.expandOperations stop depth' ops = .ok expanded := by
  obtain ⟨results, hresults, rfl⟩ := expandOperations_eq_ok_iff.mp h
  refine expandOperations_eq_ok_iff.mpr ⟨results, ?_, rfl⟩
  have heach : ∀ op ∈ ops, ∀ parts, table.expandOperation stop depth op = .ok parts →
      parts ∈ results := fun op hop parts hown => mem_results_of_mapM hresults hop hown
  refine (mapM_congr fun op hop => ?_).trans hresults
  obtain ⟨parts, hown⟩ := ok_of_mapM hresults hop
  have hparts : ∀ part ∈ parts, stop.check part := fun part hpart =>
    hcheck part (List.mem_flatten.mpr ⟨parts, heach op hop parts hown, hpart⟩)
  rw [hown, hmono op hop parts hown hparts]

/-- Once all leaves meet the criterion, more depth changes nothing. -/
theorem expandOperation_mono (h : table.expandOperation stop depth op = .ok expanded)
    (hcheck : ∀ reached ∈ expanded, stop.check reached) (hle : depth ≤ depth') :
    table.expandOperation stop depth' op = .ok expanded := by
  induction depth generalizing op expanded depth' with
  | zero =>
    obtain rfl := Except.ok.inj h
    exact expandOperation_kept (.inl (hcheck op (List.mem_singleton_self _)))
  | succ depth ih =>
    obtain ⟨depth', rfl⟩ : ∃ k, depth' = k + 1 := ⟨depth' - 1, by omega⟩
    by_cases hkept : stop.check op ∨ table.decompose? op 0 = none
    · rw [expandOperation_kept hkept] at h ⊢
      exact h
    · obtain ⟨hop, hsome⟩ := not_or.mp hkept
      obtain ⟨answer, hanswer⟩ := Option.ne_none_iff_exists'.mp hsome
      rw [expandOperation_decomposed hop hanswer] at h ⊢
      obtain ⟨parts, rfl, h⟩ := bind_eq_ok h
      rw [ok_bind]
      exact expandOperations_mono (fun _ _ _ hown hown' => ih hown hown' (by omega)) h hcheck

end Operations

/-! ## Expansion of traces -/

section Traces

variable {table : GateTable α} {stop : Criterion α} {depth : ℕ} {t u : Trace α}

/-- The operations of a valid trace are expanded, and what comes out lies in the register
    again.  Depth zero checks nothing, but then nothing has changed. -/
theorem expand_eq_ok_iff (hvalid : t.Valid) : t.expand table depth stop = .ok u ↔
    ∃ ops, table.expandOperations stop depth t.operations = .ok ops ∧
      (∀ op ∈ ops, ∀ w ∈ op.wires, w < t.register) ∧ u = { t with operations := ops } := by
  constructor
  · intro h
    obtain ⟨rfl, rfl⟩ | ⟨results, hresults, rfl, hvalid'⟩ := expand_cases h
    · exact ⟨_, expandOperations_kept fun _ _ => rfl, hvalid.operations, rfl⟩
    · refine ⟨_, ?_, hvalid'.operations, rfl⟩
      unfold GateTable.expandOperations
      rw [hresults]
      rfl
  · rintro ⟨ops, hops, hwires, rfl⟩
    unfold Trace.expand
    rw [hops, ok_bind]
    split
    · next hdepth =>
      subst hdepth
      obtain rfl := Except.ok.inj ((expandOperations_kept fun _ _ => rfl).symm.trans hops)
      rfl
    · exact check_eq_ok_iff.mpr ⟨rfl, hvalid.measured, hwires, hvalid.measurements⟩

end Traces

section Backends

variable {b : Backend α σ} {t u : Trace α}

omit [Scalar α] in
/-- Nothing is foreign in a trace of native operations. -/
theorem foreign?_eq_none_iff :
    b.foreign? t = none ↔ ∀ op ∈ t.operations, b.capabilities.isNative op.name := by
  unfold Backend.foreign?
  rw [List.find?_eq_none]
  simp

/-- A native form is an expansion that leaves nothing foreign. -/
theorem decompose_eq_ok_iff : b.decompose t = .ok u ↔
    t.expand b.gates b.expansionDepth b.nativeCriterion = .ok u ∧
      ∀ op ∈ u.operations, b.capabilities.isNative op.name := by
  rw [← foreign?_eq_none_iff]
  unfold Backend.decompose Backend.nativeCriterion
  constructor
  · intro h
    obtain ⟨expanded, hexpanded, h⟩ := bind_eq_ok h
    cases hforeign : b.foreign? expanded with
    | some op =>
      rw [hforeign] at h
      cases h
    | none =>
      rw [hforeign] at h
      obtain rfl := Except.ok.inj h
      exact ⟨hexpanded, hforeign⟩
  · rintro ⟨hexpand, hforeign⟩
    rw [hexpand, ok_bind, hforeign]

/-- An expansion that leaves something foreign is refused, with the name of the first of it. -/
theorem decompose_eq_unsupported (hexpand : t.expand b.gates b.expansionDepth b.nativeCriterion =
    .ok u) (hforeign : ¬∀ op ∈ u.operations, b.capabilities.isNative op.name) :
    ∃ op ∈ u.operations, ¬b.capabilities.isNative op.name ∧ b.decompose t =
      .error (.unsupported op.name (.noNativeForm b.name b.expansionDepth)) := by
  obtain ⟨op, hop⟩ := Option.ne_none_iff_exists'.mp (mt foreign?_eq_none_iff.mp hforeign)
  have hmem : op ∈ u.operations := List.mem_of_find?_eq_some hop
  have hname : ¬b.capabilities.isNative op.name := by simpa using List.find?_some hop
  refine ⟨op, hmem, hname, ?_⟩
  unfold Backend.nativeCriterion at hexpand
  unfold Backend.decompose
  rw [hexpand, ok_bind, hop]

/-- A trace is stuck when one of the leaves is foreign: a branch that leads below the depth
    has met a foreign operation at the depth. -/
theorem stuck_iff : b.Stuck t ↔ ∃ op ∈ t.operations, ∃ reached,
    b.gates.Ends b.nativeCriterion b.expansionDepth op reached ∧
      ¬b.capabilities.isNative reached.name := by
  constructor
  · rintro ⟨op, hop, level, reached, hreached, hforeign, hend⟩
    by_cases hlevel : level ≤ b.expansionDepth
    · exact ⟨op, hop, reached, ⟨level, hlevel, hreached, .inr hend⟩, hforeign⟩
    · obtain ⟨above, habove, hcheck⟩ := exists_reached_above hreached (not_le.mp hlevel)
      exact ⟨op, hop, above, ⟨b.expansionDepth, le_rfl, habove, .inr (.inr rfl)⟩, hcheck⟩
  · rintro ⟨op, hop, reached, ⟨level, -, hreached, hend⟩, hforeign⟩
    exact ⟨op, hop, level, reached, hreached, hforeign, hend.resolve_left hforeign⟩

/-- Where the rules succeed and end in the register, so does the expansion, and it gives the
    leaves. -/
theorem exists_expand (hvalid : t.Valid) (hrules : b.RulesSucceed t)
    (hregister : b.EndsInRegister t) :
    ∃ u, t.expand b.gates b.expansionDepth b.nativeCriterion = .ok u ∧
      ∀ reached, reached ∈ u.operations ↔ ∃ op ∈ t.operations,
        b.gates.Ends b.nativeCriterion b.expansionDepth op reached := by
  obtain ⟨ops, hops⟩ := exists_expandOperations fun op hop =>
    exists_expandOperation (hrules op hop)
  have hmem : ∀ reached, reached ∈ ops ↔ ∃ op ∈ t.operations,
      b.gates.Ends b.nativeCriterion b.expansionDepth op reached := fun reached =>
    mem_expandOperations_iff (fun _ _ _ hown => mem_expandOperation_iff hown) hops
  refine ⟨_, (expand_eq_ok_iff hvalid).mpr ⟨ops, hops, fun reached hreached => ?_, rfl⟩, hmem⟩
  obtain ⟨op, hop, hends⟩ := (hmem reached).mp hreached
  exact hregister op hop reached hends

/-- Where the rules succeed and end in the register, a trace has a native form exactly when it
    is not stuck. -/
theorem decompose_eq_ok_iff_not_stuck (hvalid : t.Valid) (hrules : b.RulesSucceed t)
    (hregister : b.EndsInRegister t) : (∃ u, b.decompose t = .ok u) ↔ ¬b.Stuck t := by
  obtain ⟨u, hu, hmem⟩ := exists_expand hvalid hrules hregister
  rw [stuck_iff]
  constructor
  · rintro ⟨u', hu'⟩ ⟨op, hop, reached, hends, hforeign⟩
    obtain ⟨hexpand, hnative⟩ := decompose_eq_ok_iff.mp hu'
    obtain rfl : u = u' := Except.ok.inj (hu.symm.trans hexpand)
    exact hforeign (hnative reached ((hmem reached).mpr ⟨op, hop, hends⟩))
  · intro hstuck
    refine ⟨u, decompose_eq_ok_iff.mpr ⟨hu, fun reached hreached => ?_⟩⟩
    by_contra hforeign
    obtain ⟨op, hop, hends⟩ := (hmem reached).mp hreached
    exact hstuck ⟨op, hop, reached, hends, hforeign⟩

/-- A trace without a native form, although the rules succeed, is refused as unsupported. -/
theorem decompose_unsupported_or_ok (hvalid : t.Valid) (hrules : b.RulesSucceed t)
    (hregister : b.EndsInRegister t) : (∃ u, b.decompose t = .ok u) ∨
      ∃ name reason, b.decompose t = .error (.unsupported name reason) := by
  obtain ⟨u, hu, -⟩ := exists_expand hvalid hrules hregister
  by_cases hnative : ∀ op ∈ u.operations, b.capabilities.isNative op.name
  · exact .inl ⟨u, decompose_eq_ok_iff.mpr ⟨hu, hnative⟩⟩
  · obtain ⟨op, -, -, h⟩ := decompose_eq_unsupported hu hnative
    exact .inr ⟨_, _, h⟩

/-- A trace of native operations is its own native form. -/
theorem decompose_of_native (hvalid : t.Valid)
    (hnative : ∀ op ∈ t.operations, b.capabilities.isNative op.name) :
    b.decompose t = .ok t := by
  have hkept : b.gates.expandOperations b.nativeCriterion b.expansionDepth t.operations =
      .ok t.operations :=
    expandOperations_kept fun op hop => expandOperation_kept (.inl (hnative op hop))
  refine decompose_eq_ok_iff.mpr ⟨(expand_eq_ok_iff hvalid).mpr ?_, hnative⟩
  exact ⟨t.operations, hkept, hvalid.operations, rfl⟩

/-- A native form stays what it is at greater depth. -/
theorem decompose_mono (hvalid : t.Valid) (h : b.decompose t = .ok u) {depth : ℕ}
    (hdepth : b.expansionDepth ≤ depth) :
    ({ b with expansionDepth := depth } : Backend α σ).decompose t = .ok u := by
  obtain ⟨hexpand, hnative⟩ := decompose_eq_ok_iff.mp h
  obtain ⟨ops, hops, hwires, rfl⟩ := (expand_eq_ok_iff hvalid).mp hexpand
  refine decompose_eq_ok_iff.mpr ⟨(expand_eq_ok_iff hvalid).mpr ⟨ops, ?_, hwires, rfl⟩, hnative⟩
  exact expandOperations_mono
    (fun _ _ _ hown hcheck => expandOperation_mono hown hcheck hdepth) hops hnative

/-- The native form of a trace holds native operations only, is its own native form, and is the
    same at every greater depth.  Where the rules succeed and end in the register, there is none,
    and the trace is refused as unsupported, exactly when some branch of the preferred
    decompositions comes to a foreign operation that cannot be decomposed or stands at the
    depth. -/
theorem decompose_native_form (hvalid : t.Valid) :
    (∀ u, b.decompose t = .ok u →
      (∀ op ∈ u.operations, b.capabilities.isNative op.name) ∧ b.decompose u = .ok u ∧
      ∀ depth, b.expansionDepth ≤ depth →
        ({ b with expansionDepth := depth } : Backend α σ).decompose t = .ok u) ∧
    (b.RulesSucceed t → b.EndsInRegister t →
      ((∃ name reason, b.decompose t = .error (.unsupported name reason)) ↔ b.Stuck t)) := by
  constructor
  · intro u hu
    obtain ⟨hexpand, hnative⟩ := decompose_eq_ok_iff.mp hu
    obtain ⟨ops, -, hwires, rfl⟩ := (expand_eq_ok_iff hvalid).mp hexpand
    have hvalid' : ({ t with operations := ops } : Trace α).Valid :=
      ⟨hvalid.measured, hwires, hvalid.measurements⟩
    exact ⟨hnative, decompose_of_native hvalid' hnative, fun depth => decompose_mono hvalid hu⟩
  · intro hrules hregister
    have hiff := decompose_eq_ok_iff_not_stuck hvalid hrules hregister
    constructor
    · rintro ⟨name, reason, h⟩
      by_contra hstuck
      obtain ⟨u, hu⟩ := hiff.mpr hstuck
      rw [h] at hu
      cases hu
    · intro hstuck
      exact (decompose_unsupported_or_ok hvalid hrules hregister).resolve_left
        fun hok => hiff.mp hok hstuck

end Backends

/-! ## Gates that lead in circles -/

/-- `Outer` is `Inner`, which is a rotation; `Hither` and `Thither` are each other. -/
noncomputable def circles : GateTable ℝ :=
  let as (gate : Gate) : Decomposition ℝ := fun params wires => .ok [⟨gate, params, wires⟩]
  ⟨#[{ name := "Outer", decompositions := [as (.custom 1)] },
    { name := "Inner", decompositions := [as (.standard .rx)] },
    { name := "Hither", decompositions := [as (.custom 3)] },
    { name := "Thither", decompositions := [as (.custom 2)] }]⟩

/-- A backend for rotations about the first axis, which looks two levels deep. -/
noncomputable def rotating : Backend ℝ Unit :=
  { name := "rotating"
    capabilities := { Capabilities.simulator 1 with native := ["RX"] }
    expansionDepth := 2
    gates := circles
    execute := fun _ state => (.ok [], state) }

/-- One application of a gate of the table, and all probabilities. -/
noncomputable def applied (gate : ℕ) : Trace ℝ :=
  ⟨[⟨circles.spec (.custom gate), [.constant 1], [0]⟩], [.probs []], 1, .analytic, .empty⟩

theorem valid_applied (gate : ℕ) : (applied gate).Valid := by
  refine ⟨List.cons_ne_nil _ _, ?_, ?_⟩ <;> simp [applied, Measurement.probs]

/-- Two levels lead from the outer gate to the rotation, and no number of levels out of the
    circle. -/
theorem decompose_native_form_circles :
    ((applied 0).Valid ∧ ∃ u, rotating.decompose (applied 0) = .ok u ∧
      u.operations.map (·.name) = ["RX"] ∧ rotating.decompose u = .ok u ∧
      ∀ depth, 2 ≤ depth → { rotating with expansionDepth := depth }.decompose (applied 0) =
        .ok u) ∧
    ((applied 2).Valid ∧ rotating.RulesSucceed (applied 2) ∧
      rotating.EndsInRegister (applied 2) ∧ rotating.Stuck (applied 2) ∧
      ∃ name reason, rotating.decompose (applied 2) = .error (.unsupported name reason)) := by
  obtain ⟨u, hu, hnames⟩ : ∃ u, rotating.decompose (applied 0) = .ok u ∧
      u.operations.map (·.name) = ["RX"] := ⟨_, rfl, rfl⟩
  obtain ⟨-, hagain, hdeeper⟩ := (decompose_native_form (valid_applied 0)).1 u hu
  refine ⟨⟨valid_applied 0, u, hu, hnames, hagain, hdeeper⟩, valid_applied 2, ?_⟩
  let hither : Operation ℝ := ⟨circles.spec (.custom 2), [.constant 1], [0]⟩
  let thither : Operation ℝ := ⟨circles.spec (.custom 3), [.constant 1], [0]⟩
  have hforth : circles.decompose? hither 0 = some (.ok [thither]) := rfl
  have hback : circles.decompose? thither 0 = some (.ok [hither]) := rfl
  -- No branch leaves the circle.
  have hcircle : ∀ {level reached}, circles.Reaches rotating.nativeCriterion hither level reached →
      reached = hither ∨ reached = thither := by
    intro level reached h
    refine reached_of_closed (P := fun op => op = hither ∨ op = thither) ?_ h (.inl rfl)
    rintro op (rfl | rfl) parts hparts part hpart
    · rw [hforth] at hparts
      obtain rfl := Except.ok.inj (Option.some.inj hparts)
      exact .inr (List.mem_singleton.mp hpart)
    · rw [hback] at hparts
      obtain rfl := Except.ok.inj (Option.some.inj hparts)
      exact .inl (List.mem_singleton.mp hpart)
  have hrules : rotating.RulesSucceed (applied 2) := by
    refine List.forall_mem_singleton.mpr fun level _ reached hreached _ answer hanswer => ?_
    rcases hcircle hreached with rfl | rfl
    · exact ⟨_, Option.some.inj (hanswer.symm.trans hforth)⟩
    · exact ⟨_, Option.some.inj (hanswer.symm.trans hback)⟩
  have hregister : rotating.EndsInRegister (applied 2) := by
    refine List.forall_mem_singleton.mpr fun reached hends w hw => ?_
    obtain ⟨level, -, hreached, -⟩ := hends
    have hwires : reached.wires = [0] := by
      rcases hcircle hreached with rfl | rfl <;> rfl
    rw [hwires] at hw
    obtain rfl := List.mem_singleton.mp hw
    exact Nat.one_pos
  have hstuck : rotating.Stuck (applied 2) := by
    have hforeign : ¬rotating.capabilities.isNative hither.name := Bool.false_ne_true
    have hforeign' : ¬rotating.capabilities.isNative thither.name := Bool.false_ne_true
    refine ⟨hither, List.mem_singleton_self _, 2, hither, ?_, hforeign, .inr rfl⟩
    exact .part hforeign hforth (List.mem_singleton_self _)
      (.part hforeign' hback (List.mem_singleton_self _) .root)
  exact ⟨hrules, hregister, hstuck,
    ((decompose_native_form (valid_applied 2)).2 hrules hregister).mpr hstuck⟩

end Proofs

end CircuitGrad
