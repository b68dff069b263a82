import Mathlib
import CircuitGrad.Gradient.Expansion
import CircuitGrad.Proofs.RealScalar
import CircuitGrad.Proofs.Replacement
import CircuitGrad.Proofs.Steps
import CircuitGrad.Proofs.StrategyAgreement
import CircuitGrad.Proofs.Validity

/-! # Trees of decompositions

    To make an operation differentiable means to choose one of its
    decompositions, then one for each part that is not differentiable, and
    so on: a tree whose leaves are differentiable (`Resolves`).  The
    expansion looks at one tree only, the one with the cheapest
    decomposition everywhere (`Committed`).  If that tree resolves within
    the depth it is the one that is taken (`differentiable_of_tree`), and no
    other is (`tree_of_differentiable`).

    A tree that resolves is therefore not enough: a cheaper alternative may
    be a dead end, or may not even be possible to build
    (`expandDifferentiable_dead_end`).
-/

namespace CircuitGrad

variable {α : Type}

/-- An operation that is kept, or one that is decomposed, with a tree for each part. -/
inductive DecompositionTree (α : Type) where
  | leaf (op : Operation α)
  | branch (op : Operation α) (parts : List (DecompositionTree α))

namespace DecompositionTree

/-- The operation that the tree is about. -/
def root : DecompositionTree α → Operation α
  | leaf op => op
  | branch op _ => op

/-- The number of decompositions on the longest way to a leaf. -/
def height : DecompositionTree α → ℕ
  | leaf _ => 0
  | branch _ parts => (parts.map (·.height)).foldr max 0 + 1

/-- The operations that are kept, in order. -/
def leaves : DecompositionTree α → List (Operation α)
  | leaf op => [op]
  | branch _ parts => parts.flatMap (·.leaves)

variable [Scalar α]

/-- The differentiable operations are kept, and each of the others is decomposed in one
    of its ways. -/
inductive Resolves (table : GateTable α) : DecompositionTree α → Prop
  | leaf {op : Operation α} : op.isDifferentiable → Resolves table (.leaf op)
  | branch {op : Operation α} (choice : ℕ) {parts : List (DecompositionTree α)} :
      ¬op.isDifferentiable → table.decompose? op choice = some (.ok (parts.map root)) →
      (∀ part ∈ parts, Resolves table part) → Resolves table (.branch op parts)

end DecompositionTree

/-- All decompositions of the operation can be built, and `parts` is the first of those that
    cost least. -/
def GateTable.IsCheapest [Scalar α] (table : GateTable α) (cost : DecompositionCost α)
    (op : Operation α) (parts : List (Operation α)) : Prop :=
  ∃ candidates, List.Forall₂ (fun choice ops => table.decompose? op choice = some (.ok ops))
    (List.range op.spec.decompositions.length) candidates ∧ candidates.argmin cost = some parts

/-- Whatever is decomposed is decomposed in the cheapest way. -/
inductive DecompositionTree.Committed [Scalar α] (table : GateTable α)
    (cost : DecompositionCost α) : DecompositionTree α → Prop
  | leaf {op : Operation α} : Committed table cost (.leaf op)
  | branch {op : Operation α} {parts : List (DecompositionTree α)} :
      table.IsCheapest cost op (parts.map DecompositionTree.root) →
      (∀ part ∈ parts, Committed table cost part) → Committed table cost (.branch op parts)

namespace Proofs

/-! ## Shape of trees -/

theorem foldr_max_le_iff {ns : List ℕ} {n : ℕ} : ns.foldr max 0 ≤ n ↔ ∀ m ∈ ns, m ≤ n := by
  induction ns with
  | nil => simp
  | cons m ns ih => simp [ih]

theorem height_branch_le_iff {op : Operation α} {parts : List (DecompositionTree α)} {depth : ℕ} :
    (DecompositionTree.branch op parts).height ≤ depth ↔
      ∃ depth', depth = depth' + 1 ∧ ∀ part ∈ parts, part.height ≤ depth' := by
  have hparts : ∀ depth', (parts.map (·.height)).foldr max 0 ≤ depth' ↔
      ∀ part ∈ parts, part.height ≤ depth' := fun depth' => by simp [foldr_max_le_iff]
  rw [DecompositionTree.height]
  constructor
  · intro h
    exact ⟨depth - 1, by omega, (hparts _).mp (by omega)⟩
  · rintro ⟨depth', rfl, h⟩
    exact Nat.succ_le_succ ((hparts depth').mpr h)

/-- Where the expansion of every root gives the leaves, the expansion of all roots gives
    all leaves. -/
theorem mapM_roots {f : Operation α → Except Error (List (Operation α))}
    {trees : List (DecompositionTree α)} (h : ∀ tree ∈ trees, f tree.root = .ok tree.leaves) :
    (trees.map (·.root)).mapM f = .ok (trees.map (·.leaves)) := by
  rw [List.mapM_map]
  exact mapM_ok h

/-- The first of the candidates that cost least. -/
theorem cheapest?_eq_argmin (cost : DecompositionCost α) (candidates : List (List (Operation α))) :
    cheapest? cost candidates = candidates.argmin cost := by
  unfold cheapest? List.argmin
  congr
  funext best ops
  cases best <;> rfl

section Resolving

variable [Scalar α] {table : GateTable α} {cost : DecompositionCost α} {op : Operation α}
  {parts : List (Operation α)} {tree : DecompositionTree α}

/-- A differentiable operation is kept. -/
theorem eq_leaf_of_resolves (h : tree.Resolves table) (hroot : tree.root.isDifferentiable) :
    tree = .leaf tree.root := by
  cases h with
  | leaf => rfl
  | branch _ hop => exact absurd hroot hop

theorem isDifferentiable_of_mem_leaves (h : tree.Resolves table) :
    ∀ leaf ∈ tree.leaves, leaf.isDifferentiable := by
  induction h with
  | leaf hop => simpa [DecompositionTree.leaves] using hop
  | branch _ _ _ _ ih =>
    intro leaf hleaf
    rw [DecompositionTree.leaves] at hleaf
    obtain ⟨part, hpart, hleaf⟩ := List.mem_flatMap.mp hleaf
    exact ih part hpart leaf hleaf

/-! ## The cheapest decomposition -/

/-- The candidates are the decompositions, and all of them can be built. -/
theorem decompositions_eq_ok_iff {candidates : List (List (Operation α))} :
    table.decompositions op = .ok candidates ↔
      List.Forall₂ (fun choice ops => table.decompose? op choice = some (.ok ops))
        (List.range op.spec.decompositions.length) candidates := by
  have hsome : ∀ choice ∈ List.range op.spec.decompositions.length,
      ∃ answer, table.decompose? op choice = some answer := by
    intro choice hchoice
    have hlt : choice < op.spec.decompositions.length := List.mem_range.mp hchoice
    unfold GateTable.decompose?
    rw [List.getElem?_eq_getElem hlt]
    exact ⟨_, rfl⟩
  unfold GateTable.decompositions
  constructor
  · intro h
    refine forall₂_of_mapM (fun choice hchoice ops hops => ?_) h
    obtain ⟨answer, hanswer⟩ := hsome choice hchoice
    rw [hanswer] at hops ⊢
    exact congrArg some hops
  · intro h
    exact mapM_of_forall₂ (h.imp fun choice ops hops => by rw [hops]; rfl)

theorem cheapestDecomposition_iff_isCheapest :
    table.cheapestDecomposition cost op = .ok parts ↔ table.IsCheapest cost op parts := by
  unfold GateTable.cheapestDecomposition GateTable.IsCheapest
  constructor
  · intro h
    obtain ⟨candidates, hcandidates, h⟩ := bind_eq_ok h
    refine ⟨candidates, decompositions_eq_ok_iff.mp hcandidates, ?_⟩
    rw [← cheapest?_eq_argmin]
    cases hcheapest : cheapest? cost candidates with
    | none => rw [hcheapest] at h; cases h
    | some ops =>
      rw [hcheapest] at h
      exact congrArg some (Except.ok.inj h)
  · rintro ⟨candidates, hcandidates, hcheapest⟩
    rw [decompositions_eq_ok_iff.mpr hcandidates, ok_bind, cheapest?_eq_argmin, hcheapest]
    rfl

/-! ## The tree of an expansion -/

theorem tree_of_differentiable {depth : ℕ} (h : table.differentiable cost depth op = .ok parts) :
    ∃ tree : DecompositionTree α, tree.root = op ∧ tree.leaves = parts ∧
      tree.Resolves table ∧ tree.Committed table cost ∧ tree.height ≤ depth := by
  -- The depth bounds the recursion; each part has a tree that is lower by one.
  induction depth using Nat.strong_induction_on generalizing op parts with
  | _ depth ih =>
    obtain ⟨hop, rfl⟩ | ⟨depth', direct, results, rfl, hop, hdirect, hresults, rfl⟩ :=
      differentiable_eq_ok h
    · refine ⟨.leaf op, rfl, ?_, .leaf hop, .leaf, ?_⟩
      · simp [DecompositionTree.leaves]
      · simp [DecompositionTree.height]
    · obtain ⟨choice, hchoice⟩ := cheapestDecomposition_eq_ok hdirect
      obtain ⟨trees, rfl, rfl, htrees⟩ := exists_views_of_forall₂
        (forall₂_of_mapM (fun _ _ _ hown => ih depth' (Nat.lt_succ_self _) hown) hresults)
      refine ⟨.branch op trees, rfl, ?_, ?_, ?_, ?_⟩
      · rw [DecompositionTree.leaves, List.flatMap_def]
      · exact .branch choice hop hchoice fun tree htree => (htrees tree htree).1
      · exact .branch (cheapestDecomposition_iff_isCheapest.mp hdirect)
          fun tree htree => (htrees tree htree).2.1
      · exact height_branch_le_iff.mpr ⟨depth', rfl, fun tree htree => (htrees tree htree).2.2⟩

theorem differentiable_of_tree (hresolves : tree.Resolves table)
    (hcommitted : tree.Committed table cost) {depth : ℕ} (hheight : tree.height ≤ depth) :
    table.differentiable cost depth tree.root = .ok tree.leaves := by
  induction hresolves generalizing depth with
  | @leaf op hop =>
    have hkept : table.differentiable cost depth op = .ok [op] := by
      cases depth <;> exact if_pos hop
    rw [DecompositionTree.leaves]
    exact hkept
  | @branch op choice parts hop hchoice _ ih =>
    obtain ⟨depth, rfl, hheights⟩ := height_branch_le_iff.mp hheight
    cases hcommitted with
    | branch hcheapest hcommitted =>
      have hparts : (parts.map (·.root)).mapM (table.differentiable cost depth) =
          .ok (parts.map (·.leaves)) :=
        mapM_roots fun part hpart => ih part hpart (hcommitted part hpart) (hheights part hpart)
      rw [DecompositionTree.root, GateTable.differentiable, if_neg hop,
        cheapestDecomposition_iff_isCheapest.mpr hcheapest, ok_bind, hparts,
        DecompositionTree.leaves, List.flatMap_def]
      rfl

end Resolving

/-! ## Traces -/

section Traces

variable [Scalar α] {table : GateTable α} {cost : DecompositionCost α} {depth : ℕ} {t u : Trace α}

/-- The operations of a trace are replaced by the leaves of their trees, in order, and
    nothing else changes. -/
theorem trees_of_expandDifferentiable (h : t.expandDifferentiable table depth cost = .ok u) :
    ∃ trees : List (DecompositionTree α), trees.map (·.root) = t.operations ∧
      u = { t with operations := trees.flatMap (·.leaves) } ∧
      ∀ tree ∈ trees, tree.Resolves table ∧ tree.Committed table cost ∧ tree.height ≤ depth := by
  obtain ⟨hdifferentiable, rfl⟩ | ⟨results, hresults, rfl, -⟩ := expandDifferentiable_cases h
  · refine ⟨u.operations.map .leaf, ?_, ?_, ?_⟩
    · simp [Function.comp_def, DecompositionTree.root]
    · simp [List.flatMap_map, DecompositionTree.leaves]
    · refine List.forall_mem_map.mpr fun op hop => ⟨.leaf (hdifferentiable op hop), .leaf, ?_⟩
      simp [DecompositionTree.height]
  · obtain ⟨trees, hroots, rfl, htrees⟩ := exists_views_of_forall₂
      (forall₂_of_mapM (fun _ _ _ hown => tree_of_differentiable hown) hresults)
    exact ⟨trees, hroots, by rw [List.flatMap_def], htrees⟩

theorem valid_of_expandDifferentiable (hvalid : t.Valid)
    (h : t.expandDifferentiable table depth cost = .ok u) : u.Valid :=
  (replaced_of_expandDifferentiable h).2 hvalid

/-- The trees of the operations give what a trace is replaced by, if it is a trace. -/
theorem expandDifferentiable_of_trees {trees : List (DecompositionTree α)}
    (hroots : trees.map (·.root) = t.operations)
    (htrees : ∀ tree ∈ trees, tree.Resolves table ∧ tree.Committed table cost ∧
      tree.height ≤ depth)
    (hvalid : ({ t with operations := trees.flatMap (·.leaves) } : Trace α).Valid) :
    t.expandDifferentiable table depth cost =
      .ok { t with operations := trees.flatMap (·.leaves) } := by
  unfold Trace.expandDifferentiable
  split
  -- Nothing is expanded; no tree is more than a leaf.
  · next hall =>
    have hleaves : ∀ tree ∈ trees, tree.leaves = [tree.root] := by
      intro tree htree
      have hmem : tree.root ∈ t.operations := hroots ▸ List.mem_map_of_mem htree
      rw [eq_leaf_of_resolves (htrees tree htree).1 (List.all_eq_true.mp hall _ hmem)]
      simp [DecompositionTree.leaves, DecompositionTree.root]
    have hkept : trees.flatMap (·.leaves) = t.operations := by
      rw [← hroots, List.map_eq_flatMap]
      exact List.flatMap_congr hleaves
    rw [hkept]
    rfl
  · have hresults : t.operations.mapM (table.differentiable cost depth) =
        .ok (trees.map (·.leaves)) := by
      rw [← hroots]
      refine mapM_roots fun tree htree => ?_
      obtain ⟨hresolves, hcommitted, hheight⟩ := htrees tree htree
      exact differentiable_of_tree hresolves hcommitted hheight
    rw [hresults, ok_bind, ← List.flatMap_def]
    exact check_eq_ok_iff.mpr ⟨rfl, hvalid⟩

theorem exists_expandDifferentiable (hvalid : t.Valid)
    (h : ∀ op ∈ t.operations, ∃ tree : DecompositionTree α, tree.root = op ∧
      (tree.Resolves table ∧ tree.Committed table cost ∧ tree.height ≤ depth) ∧
      ∀ leaf ∈ tree.leaves, ∀ w ∈ leaf.wires, w < t.register) :
    ∃ u, t.expandDifferentiable table depth cost = .ok u := by
  have hviews : List.Forall₂ (fun op op' => ∃ tree : DecompositionTree α, tree.root = op ∧
      tree.root = op' ∧ (tree.Resolves table ∧ tree.Committed table cost ∧
        tree.height ≤ depth) ∧ ∀ leaf ∈ tree.leaves, ∀ w ∈ leaf.wires, w < t.register)
      t.operations t.operations := by
    refine List.forall₂_same.mpr fun op hop => ?_
    obtain ⟨tree, hroot, htree⟩ := h op hop
    exact ⟨tree, hroot, hroot, htree⟩
  obtain ⟨trees, hroots, -, htrees⟩ := exists_views_of_forall₂ hviews
  refine ⟨_, expandDifferentiable_of_trees hroots (fun tree htree => (htrees tree htree).1) ?_⟩
  refine ⟨hvalid.measured, fun leaf hleaf => ?_, hvalid.measurements⟩
  obtain ⟨tree, htree, hleaf⟩ := List.mem_flatMap.mp hleaf
  exact (htrees tree htree).2 leaf hleaf

/-- A trace can be made differentiable exactly when, for each of its operations, the tree with
    the cheapest decompositions resolves within the depth and stays in the register. -/
theorem expandDifferentiable_succeeds_iff (hvalid : t.Valid) :
    (∃ u, t.expandDifferentiable table depth cost = .ok u) ↔
      ∀ op ∈ t.operations, ∃ tree : DecompositionTree α, tree.root = op ∧
        (tree.Resolves table ∧ tree.Committed table cost ∧ tree.height ≤ depth) ∧
        ∀ leaf ∈ tree.leaves, ∀ w ∈ leaf.wires, w < t.register := by
  constructor
  · rintro ⟨u, h⟩ op hop
    have hleaves := (valid_of_expandDifferentiable hvalid h).operations
    obtain ⟨trees, hroots, rfl, htrees⟩ := trees_of_expandDifferentiable h
    rw [← hroots] at hop
    obtain ⟨tree, htree, rfl⟩ := List.mem_map.mp hop
    refine ⟨tree, rfl, htrees tree htree, fun leaf hleaf => ?_⟩
    exact hleaves leaf (List.mem_flatMap.mpr ⟨tree, htree, hleaf⟩)
  · exact exists_expandDifferentiable hvalid

end Traces

/-! ## Dead ends -/

/-- Gates with a shift rule only in their parts: `Composite` is a rotation about the second
    axis, and `G` is either of the two. -/
noncomputable def detours : GateTable ℝ :=
  let rotation : Decomposition ℝ := fun params wires => .ok [⟨.standard .ry, params, wires⟩]
  let composite : Decomposition ℝ := fun params wires => .ok [⟨.custom 1, params, wires⟩]
  ⟨#[{ name := "G", decompositions := [composite, rotation] },
    { name := "Composite", decompositions := [rotation] }]⟩

/-- One application of `G` with a trainable parameter. -/
noncomputable def detour : Trace ℝ :=
  { operations := [⟨detours.spec (.custom 0), [.trainable 0.4], [0]⟩]
    measurements := [.ofObservable .expectation (.word (.single 0 .Z))]
    register := 1
    shots := .analytic
    layout := .empty }

theorem valid_detour : detour.Valid := by
  have hword : ∀ w ∈ (PauliWord.single 0 .Z).wires, w < 1 := by decide
  refine ⟨List.cons_ne_nil _ _, ?_, ?_⟩
  · simp [detour]
  · simpa [detour, Measurement.ofObservable, Observable.wires] using hword

theorem not_isDifferentiable_detours (gate : Fin 2) :
    ¬(⟨detours.spec (.custom gate), [.trainable 0.4], [0]⟩ : Operation ℝ).isDifferentiable := by
  fin_cases gate <;> exact Bool.false_ne_true

/-- With one level more, the cheapest decompositions lead to the rotation. -/
theorem expandDifferentiable_succeeds_detour : detour.Valid ∧
    ∃ u, detour.expandDifferentiable detours 2 trainableOperations = .ok u := by
  refine ⟨valid_detour, (expandDifferentiable_succeeds_iff valid_detour).mpr ?_⟩
  let rotation : Operation ℝ := ⟨StandardGate.ry.spec, [.trainable 0.4], [0]⟩
  let composite : Operation ℝ := ⟨detours.spec (.custom 1), [.trainable 0.4], [0]⟩
  have hrotation : rotation.isDifferentiable := isDifferentiable_ry _ _
  have hinner : (DecompositionTree.branch composite [.leaf rotation]).Resolves detours :=
    .branch 0 (not_isDifferentiable_detours 1) rfl
      (List.forall_mem_singleton.mpr (.leaf hrotation))
  refine List.forall_mem_singleton.mpr ⟨.branch _ [.branch composite [.leaf rotation]], rfl,
    ⟨?_, ?_, ?_⟩, ?_⟩
  · exact .branch 0 (not_isDifferentiable_detours 0) rfl
      (List.forall_mem_singleton.mpr hinner)
  · have hcheapest : detours.IsCheapest trainableOperations composite [rotation] :=
      ⟨[[rotation]], .cons rfl .nil, rfl⟩
    refine .branch ⟨[[composite], [rotation]], .cons rfl (.cons rfl .nil), rfl⟩ ?_
    exact List.forall_mem_singleton.mpr (.branch hcheapest (List.forall_mem_singleton.mpr .leaf))
  · simp [DecompositionTree.height]
  · simp [DecompositionTree.leaves, rotation, detour]

/-- One decomposition of `G` is enough to make it differentiable, but another one that costs
    as much comes before it, and that one is not enough. -/
theorem expandDifferentiable_dead_end :
    (∀ op ∈ detour.operations, ∃ tree : DecompositionTree ℝ, tree.root = op ∧
      tree.Resolves detours ∧ tree.height ≤ 1) ∧
    detour.expandDifferentiable detours 1 trainableOperations =
      .error (.gradientUndefined "Composite" .depthReached) := by
  refine ⟨List.forall_mem_singleton.mpr ?_, rfl⟩
  let rotation : Operation ℝ := ⟨StandardGate.ry.spec, [.trainable 0.4], [0]⟩
  have hrotation : rotation.isDifferentiable := isDifferentiable_ry _ _
  refine ⟨.branch _ [.leaf rotation], rfl,
    .branch 1 (not_isDifferentiable_detours 0) rfl ?_, ?_⟩
  · exact List.forall_mem_singleton.mpr (.leaf hrotation)
  · simp [DecompositionTree.height]

end Proofs

end CircuitGrad
