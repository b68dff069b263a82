import Mathlib
import CircuitGrad.Expansion
import CircuitGrad.Proofs.Rebinding
import CircuitGrad.Proofs.Replacement
import CircuitGrad.Proofs.StandardAction

/-! # Expansion of operations that follow

    Two recordings of one circuit function have the same gates on the same
    wires, and parameters that follow the changes of the arguments.  Their
    expansions have this in common too (`expand_follows`), because a
    decomposition computes the parameters of its parts by expressions: the
    standard ones halve, negate or pass on parameters, and those of other
    gates are asked to be of this kind (`GateTable.Structural`).
-/

namespace CircuitGrad

/-- What a decomposition computes parameters from. -/
inductive Operand where
  | constant (x : ℝ)
  /-- A parameter of the operation, by position. -/
  | parameter (position : ℕ)

/-- The jet of an operand; parameters that are not there cannot be read. -/
def Operand.jet (params : List (Jet ℝ)) : Operand → Except Error (Jet ℝ)
  | constant x => .ok (.constant x)
  | parameter i =>
    match params[i]? with
    | some x => .ok x
    | none => .error .aborted

/-- A part of a decomposition, with expressions in the place of parameters. -/
structure PartPattern where
  gate   : Gate
  params : List (Expression Operand)
  wires  : List ℕ

noncomputable def PartPattern.call (params : List (Jet ℝ)) (p : PartPattern) :
    Except Error (GateCall ℝ) := do
  return ⟨p.gate, ← p.params.mapM (·.eval (Operand.jet params)), p.wires⟩

/-- The decomposition looks at the wires and at the number of parameters, and computes
    parameters by expressions that keep derivatives. -/
def Decomposition.Structural (rule : Decomposition ℝ) : Prop :=
  ∃ patterns : ℕ → List ℕ → Except Error (List PartPattern),
    (∀ count wires ps, patterns count wires = .ok ps →
      ∀ p ∈ ps, ∀ e ∈ p.params, e.Unfrozen) ∧
    ∀ params wires, rule params wires = do
      (← patterns params.length wires).mapM (·.call params)

/-- All decompositions of the table's own gates are structural. -/
def GateTable.Structural (table : GateTable ℝ) : Prop :=
  ∀ spec ∈ table.customs, ∀ rule ∈ spec.decompositions, Decomposition.Structural rule

/-- The gate of the operation is one of the table. -/
def Operation.OfTable (table : GateTable ℝ) (op : Operation ℝ) : Prop :=
  ∃ gate, op.spec = table.spec gate

namespace Proofs

variable {changes : List ℝ} {table : GateTable ℝ} {op op' : Operation ℝ}

/-! ## Calls that follow -/

/-- The same gate on the same wires, with parameters that follow. -/
structure CallFollows (changes : List ℝ) (c c' : GateCall ℝ) : Prop where
  gate   : c'.gate = c.gate
  params : List.Forall₂ (Jet.Follows changes) c.params c'.params
  wires  : c'.wires = c.wires

section Calls

variable {params params' : List (Jet ℝ)}

theorem operand_follows (h : List.Forall₂ (Jet.Follows changes) params params') (l : Operand)
    (x : Jet ℝ) (hx : l.jet params = .ok x) : ∃ y, l.jet params' = .ok y ∧ x.Follows changes y := by
  cases l with
  | constant v =>
    obtain rfl := Except.ok.inj hx
    exact ⟨_, rfl, .of_constant rfl⟩
  | parameter i =>
    unfold Operand.jet at hx ⊢
    cases hparam : params[i]? with
    | none => simp [hparam] at hx
    | some x' =>
      simp only [hparam] at hx
      obtain rfl := Except.ok.inj hx
      obtain ⟨y, hy, hxy⟩ := getElem?_of_forall₂ h hparam
      exact ⟨y, by simp only [hy], hxy⟩

/-- A structural decomposition gives calls that follow. -/
theorem structural_follows {rule : Decomposition ℝ} (hrule : rule.Structural)
    (h : List.Forall₂ (Jet.Follows changes) params params') {wires : List ℕ}
    {calls : List (GateCall ℝ)} (hcalls : rule params wires = .ok calls) :
    ∃ calls', rule params' wires = .ok calls' ∧
      List.Forall₂ (CallFollows changes) calls calls' := by
  obtain ⟨patterns, hunfrozen, heq⟩ := hrule
  rw [heq] at hcalls ⊢
  rw [← h.length_eq]
  obtain ⟨ps, hps, hcalls⟩ := bind_eq_ok hcalls
  rw [hps, ok_bind]
  have hpatterns : List.Forall₂ (fun p q => q = p ∧ ∀ e ∈ p.params, e.Unfrozen) ps ps :=
    List.forall₂_same.mpr fun p hp => ⟨rfl, hunfrozen _ _ _ hps p hp⟩
  refine exists_mapM_of_related ?_ hpatterns hcalls
  rintro p q ⟨rfl, hp⟩ call hcall
  obtain ⟨xs, hxs, hcall⟩ := bind_eq_ok hcall
  obtain rfl := Except.ok.inj hcall
  obtain ⟨ys, hys, hfollow⟩ := exists_evals_of_follows (operand_follows h) hp hxs
  refine ⟨⟨q.gate, ys, q.wires⟩, ?_, rfl, hfollow, rfl⟩
  unfold PartPattern.call
  rw [hys]
  rfl

theorem fixedCall_follows (g : StandardGate) (v : ℝ) (wires : List ℕ) :
    CallFollows changes (g.fixedCall v wires) (g.fixedCall v wires) :=
  ⟨rfl, .cons (.of_constant rfl) .nil, rfl⟩

theorem call_follows (h : List.Forall₂ (Jet.Follows changes) params params') (g : StandardGate)
    (wires : List ℕ) : CallFollows changes (g.call params wires) (g.call params' wires) :=
  ⟨rfl, h, rfl⟩

/-- The parts of a standard gate follow. -/
theorem expansion_follows (h : List.Forall₂ (Jet.Follows changes) params params')
    (g : StandardGate) (wires : List ℕ) : List.Forall₂ (CallFollows changes)
      (g.expansion params wires) (g.expansion params' wires) := by
  have hnone : List.Forall₂ (Jet.Follows changes) [] [] := .nil
  have hone : ∀ i, List.Forall₂ (Jet.Follows changes) ((params.drop i).take 1)
      ((params'.drop i).take 1) := fun i => List.forall₂_take 1 (List.forall₂_drop i h)
  have hhalf : List.Forall₂ (Jet.Follows changes) ((params.take 1).map (· * .constant 0.5))
      ((params'.take 1).map (· * .constant 0.5)) := by
    refine List.forall₂_map_left_iff.mpr (List.forall₂_map_right_iff.mpr ?_)
    exact (List.forall₂_take 1 h).imp fun x y hxy => hxy.mul (.of_constant rfl)
  have hminus : List.Forall₂ (Jet.Follows changes)
      (((params.take 1).map (· * .constant 0.5)).map (-·))
      (((params'.take 1).map (· * .constant 0.5)).map (-·)) := by
    refine List.forall₂_map_left_iff.mpr (List.forall₂_map_right_iff.mpr ?_)
    exact hhalf.imp fun x y hxy => hxy.scale (-1)
  cases g <;> simp only [StandardGate.expansion, List.forall₂_cons, List.forall₂_nil_right_iff,
    fixedCall_follows, call_follows hnone, call_follows (hone _), call_follows hhalf,
    call_follows hminus, and_self]

end Calls

/-! ## Operations that follow -/

theorem mem_customs_of_spec {spec : GateSpec ℝ} {i : ℕ}
    (hspec : spec = table.spec (.custom i)) (hdec : spec.decompositions ≠ []) :
    spec ∈ table.customs := by
  subst hspec
  dsimp only [GateTable.spec] at hdec ⊢
  rw [Array.getD_eq_getD_getElem?] at hdec ⊢
  cases hget : table.customs[i]? with
  | none =>
    rw [hget] at hdec
    exact absurd rfl hdec
  | some spec => exact Array.mem_of_getElem? hget

/-- Decompositions of gates of the table give calls that follow. -/
theorem decomposition_follows (htable : table.Structural) (hop : op.OfTable table)
    {rule : Decomposition ℝ} (hrule : rule ∈ op.spec.decompositions) {params params' : List (Jet ℝ)}
    (h : List.Forall₂ (Jet.Follows changes) params params') {wires : List ℕ}
    {calls : List (GateCall ℝ)} (hcalls : rule params wires = .ok calls) :
    ∃ calls', rule params' wires = .ok calls' ∧
      List.Forall₂ (CallFollows changes) calls calls' := by
  obtain ⟨gate, hgate⟩ := hop
  cases gate with
  | custom i =>
    have hmem := mem_customs_of_spec hgate (List.ne_nil_of_mem hrule)
    exact structural_follows (htable _ hmem rule hrule) h hcalls
  | standard g =>
    have hstandard : rule ∈ g.decompositions := by
      rw [hgate] at hrule
      exact hrule
    have hne : g.decompositions (α := ℝ) ≠ [] := List.ne_nil_of_mem hstandard
    rw [decompositions_eq hne] at hstandard
    obtain rfl := List.mem_singleton.mp hstandard
    obtain rfl := Except.ok.inj hcalls
    exact ⟨_, rfl, expansion_follows h g wires⟩

/-- The operations of calls that follow. -/
theorem operation_follows {call call' : GateCall ℝ} (h : CallFollows changes call call')
    (hop : table.operation call = .ok op) :
    ∃ op', table.operation call' = .ok op' ∧ OperationFollows changes op op' ∧
      op.OfTable table := by
  obtain rfl := make_eq_ok hop
  have hmake := make_of_length_eq h.params.length_eq.symm hop
  refine ⟨⟨table.spec call.gate, call'.params, call.wires⟩, ?_, ⟨rfl, h.params, rfl⟩,
    call.gate, rfl⟩
  unfold GateTable.operation
  rw [h.gate, h.wires]
  exact hmake

theorem decompose_follows (htable : table.Structural) (hop : op.OfTable table)
    (h : OperationFollows changes op op') {choice : ℕ} {parts : List (Operation ℝ)}
    (hparts : table.decompose? op choice = some (.ok parts)) :
    ∃ parts', table.decompose? op' choice = some (.ok parts') ∧
      List.Forall₂ (fun part part' => OperationFollows changes part part' ∧ part.OfTable table)
        parts parts' := by
  obtain ⟨rule, calls, hrule, hcalls, hparts⟩ := decompose_eq_ok hparts
  obtain ⟨calls', hcalls', hfollow⟩ := decomposition_follows htable hop
    (List.mem_of_getElem? hrule) h.params hcalls
  obtain ⟨parts', hparts', hoperations⟩ := exists_mapM_of_related
    (f := table.operation) (g := table.operation)
    (fun _ _ hcall _ hpart => operation_follows hcall hpart) hfollow hparts
  refine ⟨parts', ?_, hoperations⟩
  unfold GateTable.decompose?
  rw [h.spec, hrule, h.wires, Option.map_some, hcalls', ok_bind, hparts']

theorem isTrainable_follows (h : OperationFollows changes op op') :
    op'.isTrainable = op.isTrainable := by
  have hflags : op'.params.map (·.isTrainable) = op.params.map (·.isTrainable) := by
    refine map_of_forall₂ (fun x y hxy => ?_) h.params
    have hconstant := hxy.constant
    unfold Jet.isConstant at hconstant
    unfold Jet.isTrainable
    rw [← Option.not_isNone, ← Option.not_isNone, hconstant]
  have hany : ∀ o : Operation ℝ, o.isTrainable = (o.params.map (·.isTrainable)).any id := by
    intro o
    rw [List.any_map]
    rfl
  rw [hany, hany, hflags]

/-- The criterion does not see the values of parameters. -/
def Criterion.Steady (stop : Criterion ℝ) : Prop :=
  ∀ changes (op op' : Operation ℝ), OperationFollows changes op op' → stop.check op' = stop.check op

/-- Expansions of operations that follow, follow. -/
theorem expandOperation_follows {stop : Criterion ℝ} (hstop : Criterion.Steady stop)
    (htable : table.Structural) {depth : ℕ} (hop : op.OfTable table)
    (h : OperationFollows changes op op') {parts : List (Operation ℝ)}
    (hparts : table.expandOperation stop depth op = .ok parts) :
    ∃ parts', table.expandOperation stop depth op' = .ok parts' ∧
      List.Forall₂ (OperationFollows changes) parts parts' := by
  induction depth generalizing op op' parts with
  | zero =>
    obtain rfl := Except.ok.inj hparts
    exact ⟨[op'], rfl, .cons h .nil⟩
  | succ depth ih =>
    -- Whether the operation is kept depends on its gate and on the criterion, which are the same.
    unfold GateTable.expandOperation at hparts ⊢
    rw [hstop changes op op' h]
    by_cases hcheck : stop.check op = true
    · rw [if_pos hcheck] at hparts ⊢
      obtain rfl := Except.ok.inj hparts
      exact ⟨[op'], rfl, .cons h .nil⟩
    · rw [if_neg hcheck] at hparts ⊢
      cases hdec : table.decompose? op 0 with
      | none =>
        have hdec' : table.decompose? op' 0 = none := by
          unfold GateTable.decompose? at hdec ⊢
          rw [Option.map_eq_none_iff] at hdec ⊢
          rw [h.spec, hdec]
        rw [hdec] at hparts
        rw [hdec']
        obtain rfl := Except.ok.inj hparts
        exact ⟨[op'], rfl, .cons h .nil⟩
      | some answer =>
        simp only [hdec] at hparts
        obtain ⟨direct, hanswer, hrest⟩ := bind_eq_ok hparts
        obtain ⟨results, hresults, hrest⟩ := bind_eq_ok hrest
        obtain rfl := Except.ok.inj hrest
        rw [hanswer] at hdec
        obtain ⟨direct', hdec', hdirect⟩ := decompose_follows htable hop h hdec
        obtain ⟨results', hresults', hfollow⟩ := exists_mapM_of_related
          (f := table.expandOperation stop depth) (g := table.expandOperation stop depth)
          (fun part part' hpart own hown => ih hpart.2 hpart.1 hown) hdirect hresults
        refine ⟨results'.flatten, ?_, List.rel_flatten hfollow⟩
        simp only [hdec', ok_bind, hresults']
        rfl

/-- Expansions of traces with operations that follow. -/
theorem expand_follows {stop : Criterion ℝ} (hstop : Criterion.Steady stop)
    (htable : table.Structural) {depth : ℕ} {t u : Trace ℝ} {ops : List (Operation ℝ)}
    (hops : ∀ op ∈ t.operations, op.OfTable table)
    (h : List.Forall₂ (OperationFollows changes) t.operations ops)
    (hexpand : t.expand table depth stop = .ok u) :
    ∃ ops', ({ t with operations := ops } : Trace ℝ).expand table depth stop =
        .ok { u with operations := ops' } ∧
      List.Forall₂ (OperationFollows changes) u.operations ops' := by
  unfold Trace.expand at hexpand ⊢
  by_cases hdepth : depth = 0
  · rw [if_pos hdepth] at hexpand ⊢
    obtain rfl := Except.ok.inj hexpand
    exact ⟨ops, rfl, h⟩
  · rw [if_neg hdepth] at hexpand ⊢
    obtain ⟨parts, hparts, hcheck⟩ := bind_eq_ok hexpand
    obtain ⟨results, hresults, hparts⟩ := bind_eq_ok hparts
    obtain rfl := Except.ok.inj hparts
    obtain ⟨rfl, hvalid⟩ := check_eq_ok_iff.mp hcheck
    have hrelated : List.Forall₂ (fun op op' => op.OfTable table ∧ OperationFollows changes op op')
        t.operations ops := (List.forall₂_and_left _ _).mpr ⟨hops, h⟩
    obtain ⟨results', hresults', hfollow⟩ := exists_mapM_of_related
      (f := table.expandOperation stop depth) (g := table.expandOperation stop depth)
      (fun op op' hop own hown => expandOperation_follows hstop htable hop.1 hop.2 hown)
      hrelated hresults
    have hflat := List.rel_flatten hfollow
    refine ⟨results'.flatten, ?_, hflat⟩
    simp only [GateTable.expandOperations, hresults', ok_bind]
    exact check_eq_ok_iff.mpr ⟨rfl, hvalid.measured,
      inRegister_of_follows hflat hvalid.operations, hvalid.measurements⟩

end Proofs

end CircuitGrad
