import Mathlib
import CircuitGrad.Gradient.Differentiator
import CircuitGrad.Proofs.Assignment
import CircuitGrad.Proofs.JetFlags
import CircuitGrad.Proofs.Replacement

/-! # Displaced traces

    Decompositions compute the parameters of their parts from those of the
    operation by multiplication with constants.  A displacement gives every
    parameter another value and respects this; moving the inputs along the
    slopes and bends of the parameters is one (`Displacement.along`).

    Displacing an operation before it is expanded is displacing what it is
    expanded to, for the expansion towards a criterion and for the one for
    differentiation (`expandOperation_displaced`, `differentiable_displaced`).
    Neither changes what multiplication with constants cannot change
    (`Unfolds.forall_params_iff`), such as whether all parameters are affine.
-/

namespace CircuitGrad

/-- Other values for parameters, in which products with constants stay such. -/
structure Displacement where
  value    : Jet ℝ → ℝ
  scale    : ∀ x k, value (x.scale k) = value x * k
  constant : ∀ v, value (.constant v) = v

noncomputable section

def Jet.displaced (c : Displacement) (x : Jet ℝ) : Jet ℝ := x.withValue (c.value x)

def GateCall.displaced (c : Displacement) (call : GateCall ℝ) : GateCall ℝ :=
  { call with params := call.params.map (·.displaced c) }

def Operation.displaced (c : Displacement) (op : Operation ℝ) : Operation ℝ :=
  { op with params := op.params.map (·.displaced c) }

def Trace.displaced (c : Displacement) (t : Trace ℝ) : Trace ℝ :=
  { t with operations := t.operations.map (·.displaced c) }

/-- The inputs `i` and `j` moved by `s` and `u`, the bends taken along or left out. -/
def Displacement.along (i j : ℕ) (bent : Bool) (s u : ℝ) : Displacement where
  value x := x.value + s * x.slope i + u * x.slope j + if bent then s * u * x.bend i j else 0
  scale x k := by
    rw [Proofs.value_scale, Proofs.slope_scale, Proofs.slope_scale, Proofs.bend_scale]
    split <;> ring
  constant v := by
    show v + s * 0 + u * 0 + (if bent then s * u * 0 else 0) = v
    split <;> ring

end

/-- Operations unfold to others by decomposing some of them, again and again. -/
inductive Unfolds (table : GateTable ℝ) : List (Operation ℝ) → List (Operation ℝ) → Prop
  | nil : Unfolds table [] []
  | keep (op : Operation ℝ) {ops parts : List (Operation ℝ)} :
      Unfolds table ops parts → Unfolds table (op :: ops) (op :: parts)
  | decompose {op : Operation ℝ} {choice : ℕ} {direct own ops parts : List (Operation ℝ)} :
      table.decompose? op choice = some (.ok direct) → Unfolds table direct own →
      Unfolds table ops parts → Unfolds table (op :: ops) (own ++ parts)

namespace Proofs

variable {table : GateTable ℝ} {c : Displacement} {op : Operation ℝ} {n : ℕ}

/-! ## Displacing parameters -/

theorem displaced_scale (c : Displacement) (x : Jet ℝ) (k : ℝ) :
    (x.scale k).displaced c = (x.displaced c).scale k := by
  unfold Jet.displaced
  rw [c.scale]
  rfl

theorem displaced_constant (c : Displacement) (v : ℝ) :
    (Jet.constant v).displaced c = .constant v := by
  unfold Jet.displaced
  rw [c.constant]
  rfl

theorem half_eq_scale (x : Jet ℝ) : x * .constant (0.5 : ℝ) = x.scale (0.5 : ℝ) :=
  mul_constant (x := x) _

theorem displaced_half (c : Displacement) (x : Jet ℝ) :
    (x * .constant 0.5).displaced c = x.displaced c * .constant 0.5 := by
  rw [half_eq_scale, half_eq_scale, displaced_scale]

theorem displaced_neg (c : Displacement) (x : Jet ℝ) : (-x).displaced c = -x.displaced c :=
  displaced_scale c x (-1)

/-- The gates that a gate stands for are displaced with its parameters. -/
theorem expansion_displaced (c : Displacement) (g : StandardGate) (params : List (Jet ℝ))
    (ws : List ℕ) : g.expansion (params.map (·.displaced c)) ws =
      (g.expansion params ws).map (·.displaced c) := by
  cases g <;> simp [StandardGate.expansion, StandardGate.call, StandardGate.fixedCall,
    GateCall.displaced, displaced_constant, displaced_half, displaced_neg, Function.comp_def]

theorem operation_displaced (table : GateTable ℝ) (c : Displacement) (call : GateCall ℝ) :
    table.operation (call.displaced c) = (table.operation call).map (·.displaced c) := by
  unfold GateTable.operation Operation.make GateCall.displaced
  simp only [List.length_map]
  split
  · rfl
  split
  · rfl
  split <;> rfl

theorem params_of_operation {call : GateCall ℝ} (h : table.operation call = .ok op) :
    op.params = call.params := by
  rw [make_eq_ok h]

theorem mapM_operation_displaced (table : GateTable ℝ) (c : Displacement)
    (calls : List (GateCall ℝ)) : (calls.map (·.displaced c)).mapM table.operation =
      (calls.mapM table.operation).map fun ops => ops.map (·.displaced c) := by
  induction calls with
  | nil => rfl
  | cons call calls ih =>
    rw [List.map_cons, List.mapM_cons, List.mapM_cons, operation_displaced, ih]
    cases table.operation call with
    | error e => rfl
    | ok op => cases calls.mapM table.operation <;> rfl

/-- Displacing an operation displaces the parts that it is decomposed into. -/
theorem decompose?_displaced (table : GateTable ℝ) (c : Displacement) {g : StandardGate}
    (hspec : op.spec = g.spec) (choice : ℕ) : table.decompose? (op.displaced c) choice =
      (table.decompose? op choice).map fun x => x.map fun ops => ops.map (·.displaced c) := by
  unfold GateTable.decompose?
  rw [show (op.displaced c).spec = op.spec from rfl, hspec]
  show (g.decompositions[choice]?.map _) = (g.decompositions[choice]?.map _).map _
  by_cases hdec : g.decompositions (α := ℝ) = []
  · rw [hdec]
    rfl
  rw [decompositions_eq hdec]
  cases choice with
  | zero =>
    refine congrArg some ?_
    show (g.expansion (op.params.map (·.displaced c)) op.wires).mapM table.operation = _
    rw [expansion_displaced]
    exact mapM_operation_displaced table c _
  | succ choice => rfl

/-! ## Displacing before and after an expansion -/

/-- A displacement assigns values to the parameters. -/
theorem displaced_eq_assign (c : Displacement) (op : Operation ℝ) :
    op.displaced c = op.assign fun i => (op.params.map c.value).getD i 0 := by
  unfold Operation.displaced Operation.assign
  congr 1
  refine List.ext_getElem? fun i => ?_
  simp only [List.getElem?_map, List.getElem?_mapIdx, List.getD_eq_getElem?_getD]
  cases op.params[i]? <;> rfl

theorem isTrainable_displaced (c : Displacement) (op : Operation ℝ) :
    (op.displaced c).isTrainable = op.isTrainable :=
  List.any_map

theorem isDifferentiable_displaced (c : Displacement) (hop : op.Standard) :
    (op.displaced c).isDifferentiable = op.isDifferentiable := by
  have hown : (op.displaced c).hasOwnGradient = op.hasOwnGradient := by
    unfold Operation.hasOwnGradient
    rw [displaced_eq_assign, length_assign]
    simp only [opShiftRule_assign (fixedRule_of_standard hop)]
    rfl
  unfold Operation.isDifferentiable
  rw [isTrainable_displaced, hown]

/-- A displacement passes through a traversal that replaces operations if it passes
    through each replacement. -/
theorem mapM_displaced {f : Operation ℝ → Except Error (List (Operation ℝ))}
    {ops : List (Operation ℝ)} {results : List (List (Operation ℝ))}
    (hf : ∀ op ∈ ops, ∀ parts, f op = .ok parts →
      f (op.displaced c) = .ok (parts.map (·.displaced c))) (h : ops.mapM f = .ok results) :
    (ops.map (·.displaced c)).mapM f =
      .ok (results.map fun parts => parts.map (·.displaced c)) := by
  induction ops generalizing results with
  | nil =>
    cases h
    rfl
  | cons op ops ih =>
    obtain ⟨parts, results', hparts, hresults, rfl⟩ := mapM_cons_eq_ok h
    obtain ⟨hfirst, hrest⟩ := List.forall_mem_cons.mp hf
    rw [List.map_cons, List.mapM_cons, hfirst parts hparts, ih hrest hresults]
    rfl

theorem expandOperation_displaced {stop : Criterion ℝ}
    (hstop : ∀ op, stop.check (op.displaced c) = stop.check op) {depth : ℕ} (hop : op.Standard)
    (hwires : ∀ w ∈ op.wires, w < n) {parts : List (Operation ℝ)}
    (h : table.expandOperation stop depth op = .ok parts) :
    table.expandOperation stop depth (op.displaced c) = .ok (parts.map (·.displaced c)) := by
  induction depth generalizing op parts with
  | zero =>
    obtain rfl := Except.ok.inj h
    rfl
  | succ depth ih =>
    unfold GateTable.expandOperation at h ⊢
    rw [hstop]
    by_cases hmet : stop.check op = true
    · rw [if_pos hmet] at h ⊢
      obtain rfl := Except.ok.inj h
      rfl
    rw [if_neg hmet] at h ⊢
    obtain ⟨g, hspec⟩ := spec_eq_of_standard hop
    rw [decompose?_displaced table c hspec]
    cases hdec : table.decompose? op 0 with
    | none =>
      rw [hdec] at h
      obtain rfl := Except.ok.inj h
      rfl
    | some answer =>
      simp only [hdec] at h
      obtain ⟨direct, hdirect, h⟩ := bind_eq_ok h
      obtain ⟨results, hresults, h⟩ := bind_eq_ok h
      obtain rfl := Except.ok.inj h
      subst hdirect
      have hstands := StandsIn.of_decompose hop hwires hdec
      have hdeeper := mapM_displaced (c := c) (fun o ho _ hparts => ih (hstands.standard o ho)
        (hstands.inRegister o ho) hparts) hresults
      show (do return (← (direct.map (Operation.displaced c)).mapM
        (table.expandOperation stop depth)).flatten) = _
      rw [hdeeper, List.map_flatten]
      rfl

/-- A standard operation has one decomposition at most, which is the cheapest then. -/
theorem cheapestDecomposition_eq_ok_iff {cost : DecompositionCost ℝ} {g : StandardGate}
    (hspec : op.spec = g.spec) {parts : List (Operation ℝ)} :
    table.cheapestDecomposition cost op = .ok parts ↔
      table.decompose? op 0 = some (.ok parts) := by
  have hlist : op.spec.decompositions = g.decompositions := congrArg GateSpec.decompositions hspec
  by_cases hdec : g.decompositions (α := ℝ) = []
  · unfold GateTable.cheapestDecomposition GateTable.decompositions GateTable.decompose?
    rw [hlist, hdec]
    exact ⟨nofun, nofun⟩
  have hfirst : table.decompose? op 0 =
      some ((g.expansion op.params op.wires).mapM table.operation) := by
    unfold GateTable.decompose?
    rw [hlist, decompositions_eq hdec]
    rfl
  have hall : table.decompositions op =
      ((g.expansion op.params op.wires).mapM table.operation).map fun ops => [ops] := by
    unfold GateTable.decompositions
    rw [hlist, decompositions_eq hdec, List.length_singleton, List.range_one, List.mapM_cons,
      List.mapM_nil, hfirst]
    show (do return [← (g.expansion op.params op.wires).mapM table.operation]) = _
    cases (g.expansion op.params op.wires).mapM table.operation <;> rfl
  unfold GateTable.cheapestDecomposition
  rw [hfirst, hall, Option.some.injEq]
  cases (g.expansion op.params op.wires).mapM table.operation with
  | error e => exact ⟨nofun, nofun⟩
  | ok ops => rfl

theorem differentiable_of_isDifferentiable {cost : DecompositionCost ℝ} {depth : ℕ}
    (h : op.isDifferentiable) : table.differentiable cost depth op = .ok [op] := by
  cases depth <;>
  · unfold GateTable.differentiable
    rw [if_pos h]

theorem differentiable_displaced {depth : ℕ} (hop : op.Standard) (hwires : ∀ w ∈ op.wires, w < n)
    {parts : List (Operation ℝ)}
    (h : table.differentiable trainableOperations depth op = .ok parts) :
    table.differentiable trainableOperations depth (op.displaced c) =
      .ok (parts.map (·.displaced c)) := by
  induction depth using Nat.strong_induction_on generalizing op parts with
  | _ depth ih =>
    obtain ⟨hdiff, rfl⟩ | ⟨depth', direct, results, rfl, hdiff, hdirect, hresults, rfl⟩ :=
      differentiable_eq_ok h
    · rw [← isDifferentiable_displaced c hop] at hdiff
      exact differentiable_of_isDifferentiable hdiff
    obtain ⟨g, hspec⟩ := spec_eq_of_standard hop
    have hdec := (cheapestDecomposition_eq_ok_iff hspec).mp hdirect
    have hdec' : table.decompose? (op.displaced c) 0 =
        some (.ok (direct.map (·.displaced c))) := by
      rw [decompose?_displaced table c hspec, hdec]
      rfl
    have hstands := StandsIn.of_decompose hop hwires hdec
    have hdeeper := mapM_displaced (c := c) (fun o ho _ hparts => ih depth' (Nat.lt_succ_self _)
      (hstands.standard o ho) (hstands.inRegister o ho) hparts) hresults
    have hspec' : (op.displaced c).spec = g.spec := hspec
    have hcheapest : table.cheapestDecomposition trainableOperations (op.displaced c) =
        .ok (direct.map (·.displaced c)) := (cheapestDecomposition_eq_ok_iff hspec').mpr hdec'
    unfold GateTable.differentiable
    rw [isDifferentiable_displaced c hop, if_neg hdiff, hcheapest, ok_bind, hdeeper,
      List.map_flatten]
    rfl

/-! ## Displaced traces -/

section Traces

variable {t u : Trace ℝ}

theorem valid_displaced (c : Displacement) (h : t.Valid) : (t.displaced c).Valid :=
  ⟨h.measured, List.forall_mem_map.mpr h.operations, h.measurements⟩

theorem standard_displaced (c : Displacement) (h : ∀ op ∈ t.operations, op.Standard) :
    ∀ op ∈ (t.displaced c).operations, op.Standard := by
  refine List.forall_mem_map.mpr fun op hop => ?_
  rw [displaced_eq_assign]
  exact standard_assign (h op hop) _

/-- A displaced trace is the trace at the displaced values. -/
theorem trace_displaced_eq_assign (c : Displacement) (t : Trace ℝ) :
    t.displaced c = t.assign fun i => (t.params.map c.value).getD i 0 := by
  have hoperations : ∀ ops : List (Operation ℝ), ops.map (·.displaced c) =
      Operation.assignAll ops fun i => ((ops.flatMap (·.params)).map c.value).getD i 0 := by
    intro ops
    induction ops with
    | nil => rfl
    | cons op rest ih =>
      have hfirst : ∀ i < op.params.length,
          (((op :: rest).flatMap (·.params)).map c.value).getD i 0 =
            (op.params.map c.value).getD i 0 := by
        intro i hi
        rw [List.flatMap_cons, List.map_append]
        exact List.getD_append _ _ _ _ (by simpa using hi)
      have hshift : ∀ i, (((op :: rest).flatMap (·.params)).map c.value).getD
          (i + op.params.length) 0 = ((rest.flatMap (·.params)).map c.value).getD i 0 := by
        intro i
        rw [List.flatMap_cons, List.map_append, List.getD_append_right _ _ _ _ (by simp)]
        simp
      rw [List.map_cons, ih, Operation.assignAll, assign_congr op hfirst, funext hshift,
        displaced_eq_assign]
  exact congrArg (fun ops => ({ t with operations := ops } : Trace ℝ)) (hoperations t.operations)

end Traces

end Proofs

/-! ## What unfolding keeps -/

namespace Unfolds

open Proofs

variable {table : GateTable ℝ} {op : Operation ℝ} {ops ops' parts parts' : List (Operation ℝ)}
  {n : ℕ}

theorem refl (table : GateTable ℝ) : ∀ ops, Unfolds table ops ops
  | [] => .nil
  | op :: ops => .keep op (refl table ops)

theorem append (h : Unfolds table ops parts) (h' : Unfolds table ops' parts') :
    Unfolds table (ops ++ ops') (parts ++ parts') := by
  induction h with
  | nil => exact h'
  | keep op _ ih => exact .keep op ih
  | decompose hdec hown _ _ ih =>
    rw [List.append_assoc]
    exact .decompose hdec hown ih

/-- Where each operation of a traversal unfolds to what replaces it, all do. -/
theorem flatten_mapM {f : Operation ℝ → Except Error (List (Operation ℝ))}
    {results : List (List (Operation ℝ))}
    (hf : ∀ op ∈ ops, ∀ parts, f op = .ok parts → Unfolds table [op] parts)
    (h : ops.mapM f = .ok results) : Unfolds table ops results.flatten := by
  induction ops generalizing results with
  | nil =>
    cases h
    exact .nil
  | cons op rest ih =>
    obtain ⟨parts, results', hparts, hrest, rfl⟩ := mapM_cons_eq_ok h
    obtain ⟨hfirst, hothers⟩ := List.forall_mem_cons.mp hf
    exact (hfirst parts hparts).append (ih hothers hrest)

theorem of_decompose {choice : ℕ} {direct : List (Operation ℝ)}
    (hdec : table.decompose? op choice = some (.ok direct)) (h : Unfolds table direct parts) :
    Unfolds table [op] parts := by
  simpa using Unfolds.decompose hdec h .nil

theorem of_expandOperation {stop : Criterion ℝ} {depth : ℕ}
    (h : table.expandOperation stop depth op = .ok parts) : Unfolds table [op] parts := by
  induction depth using Nat.strong_induction_on generalizing op parts with
  | _ depth ih =>
    obtain rfl | ⟨depth', direct, results, rfl, hdec, hresults, rfl⟩ := expandOperation_eq_ok h
    · exact .refl table [op]
    · exact .of_decompose hdec
        (.flatten_mapM (fun _ _ _ hparts => ih depth' (Nat.lt_succ_self _) hparts) hresults)

theorem of_differentiable {cost : DecompositionCost ℝ} {depth : ℕ}
    (h : table.differentiable cost depth op = .ok parts) :
    Unfolds table [op] parts ∧ ∀ part ∈ parts, part.isDifferentiable := by
  induction depth using Nat.strong_induction_on generalizing op parts with
  | _ depth ih =>
    obtain ⟨hdiff, rfl⟩ | ⟨depth', direct, results, rfl, -, hdirect, hresults, rfl⟩ :=
      differentiable_eq_ok h
    · exact ⟨.refl table [op], List.forall_mem_singleton.mpr hdiff⟩
    obtain ⟨choice, hdec⟩ := cheapestDecomposition_eq_ok hdirect
    have hparts : ∀ o own, table.differentiable cost depth' o = .ok own →
        Unfolds table [o] own ∧ ∀ part ∈ own, part.isDifferentiable :=
      fun _ _ hown => ih depth' (Nat.lt_succ_self _) hown
    refine ⟨.of_decompose hdec (.flatten_mapM (fun o _ own hown => (hparts o own hown).1) hresults),
      fun part hpart => ?_⟩
    obtain ⟨own, hown, hpart⟩ := List.mem_flatten.mp hpart
    obtain ⟨o, -, hown⟩ := mem_of_mapM hresults hown
    exact (hparts o own hown).2 part hpart

section Parameters

/-! A property of parameters that does not change under multiplication with
    constants, and that constants have. -/

variable {Q : Jet ℝ → Prop} (hscale : ∀ x k, Q (x.scale k) ↔ Q x) (hconstant : ∀ v, Q (.constant v))

include hscale hconstant

theorem expansion_params_iff {g : StandardGate} (hdec : g.decompositions (α := ℝ) ≠ [])
    {params : List (Jet ℝ)} (hparams : params.length = g.paramCount) (ws : List ℕ) :
    (∀ call ∈ g.expansion params ws, ∀ x ∈ call.params, Q x) ↔ ∀ x ∈ params, Q x := by
  have hhalf : ∀ x : Jet ℝ, Q (x * .constant (0.5 : ℝ)) ↔ Q x := by
    intro x
    rw [half_eq_scale]
    exact hscale x _
  have hneg : ∀ x : Jet ℝ, Q (-x) ↔ Q x := fun x => hscale x (-1)
  cases g with
  | identity | rz => exact absurd rfl hdec
  | rx | ry | phaseShift | crx | cry | crz =>
    obtain ⟨p, rfl⟩ := List.length_eq_one_iff.mp hparams
    simp [StandardGate.expansion, StandardGate.call, StandardGate.fixedCall, hconstant, hhalf, hneg]
  | rot =>
    obtain ⟨p, q, r, rfl⟩ := List.length_eq_three.mp hparams
    simp [StandardGate.expansion, StandardGate.call]
  | _ =>
    obtain rfl := List.length_eq_zero_iff.mp hparams
    simp [StandardGate.expansion, StandardGate.call, StandardGate.fixedCall, hconstant]

/-- All parameters have the property after unfolding if they had it before, and only
    then. -/
theorem forall_params_iff (hops : ∀ op ∈ ops, op.Standard)
    (hwires : ∀ op ∈ ops, ∀ w ∈ op.wires, w < n) (h : Unfolds table ops parts) :
    (∀ part ∈ parts, ∀ x ∈ part.params, Q x) ↔ ∀ op ∈ ops, ∀ x ∈ op.params, Q x := by
  induction h with
  | nil => rfl
  | keep op _ ih =>
    rw [List.forall_mem_cons, List.forall_mem_cons]
    rw [List.forall_mem_cons] at hops hwires
    rw [ih hops.2 hwires.2]
  | @decompose op choice direct own ops parts hdec _ _ ihown ih =>
    rw [List.forall_mem_cons] at hops hwires ⊢
    have hstands := StandsIn.of_decompose hops.1 hwires.1 hdec
    rw [List.forall_mem_append, ihown hstands.standard hstands.inRegister, ih hops.2 hwires.2]
    refine and_congr_left' ?_
    -- The parts are the calls of the expansion, parameter list by parameter list.
    obtain ⟨g, ws, hplaces⟩ := places_of_standard hops.1 hwires.1
    obtain ⟨hexpands, hcalls⟩ := mapM_of_decompose hplaces.spec hdec
    have hparams : direct.map (·.params) = (g.expansion op.params op.wires).map (·.params) :=
      map_of_mapM (fun call part hpart => params_of_operation hpart) hcalls
    have hlists : (∀ part ∈ direct, ∀ x ∈ part.params, Q x) ↔
        ∀ xs ∈ direct.map (·.params), ∀ x ∈ xs, Q x := by rw [List.forall_mem_map]
    rw [← expansion_params_iff hscale hconstant hexpands hplaces.params op.wires, hlists, hparams,
      List.forall_mem_map]

end Parameters

end Unfolds

end CircuitGrad
