import Mathlib
import CircuitGrad.Proofs.Shares
import CircuitGrad.Proofs.WordFactors

/-! # What the greedy grouping gives

    Items are grouped in one pass, each into the first group whose members it
    is compatible with.  What comes out is a partition of the positions of the
    list (`Grouping.Greedy`): the groups rise inside and are ordered by their
    first position, the members of a group are compatible with each other, and
    every position is kept out of each earlier group by a member that was in
    it before.

    Placing one item either lengthens one group or opens a new one at the end
    (`place_cases`).  The invariant of the pass (`Grouping.Placed`) is kept by
    both, and holds for the whole pass by induction over the items.

    Pauli words and observables are grouped by whether they commute
    (`commuting_groups`).
-/

namespace CircuitGrad

section Specification

variable {β : Type}

/-- The item is compatible with every member of the group. -/
def Grouping.Admits (compatible : β → β → Bool) (item : ℕ × β) (group : List (ℕ × β)) : Prop :=
  ∀ member ∈ group, compatible item.2 member.2

/-- A group after the first `count` items of a list. -/
structure Grouping.Formed (compatible : β → β → Bool) (items : List β) (count : ℕ)
    (group : List (ℕ × β)) : Prop where
  inhabited : group ≠ []
  members   : ∀ member ∈ group, items[member.1]? = some member.2
  bounded   : ∀ member ∈ group, member.1 < count
  ascending : group.Pairwise (·.1 < ·.1)
  joined    : group.Pairwise fun member item => compatible item.2 member.2

/-- One group stands before another: it was opened first, and it has barred
    every item of the other. -/
structure Grouping.Precedes (compatible : β → β → Bool) (earlier later : List (ℕ × β)) :
    Prop where
  ordered : ∀ first ∈ earlier.head?, ∀ next ∈ later.head?, first.1 < next.1
  barred  : ∀ item ∈ later, ∃ member ∈ earlier,
    member.1 < item.1 ∧ compatible item.2 member.2 = false

/-- The groups after the first `count` items of a list. -/
structure Grouping.Placed (compatible : β → β → Bool) (items : List β) (count : ℕ)
    (groups : List (List (ℕ × β))) : Prop where
  formed   : ∀ group ∈ groups, Grouping.Formed compatible items count group
  precedes : groups.Pairwise (Grouping.Precedes compatible)

/-- The items at two positions of a list are compatible. -/
def Grouping.CompatibleAt (compatible : β → β → Bool) (items : List β) (i j : ℕ) : Prop :=
  ∃ x ∈ items[i]?, ∃ y ∈ items[j]?, compatible x y

/-- The groups are a partition of the positions of the list, and each position
    is in the first group that it was compatible with when its turn came. -/
structure Grouping.Greedy (compatible : β → β → Bool) (items : List β)
    (groups : List (List ℕ)) : Prop where
  partition : groups.flatten.Perm (List.range items.length)
  inhabited : ∀ group ∈ groups, group ≠ []
  ascending : ∀ group ∈ groups, group.Pairwise (· < ·)
  ordered   : groups.Pairwise fun earlier later =>
    ∀ first ∈ earlier.head?, ∀ next ∈ later.head?, first < next
  cohesive  : ∀ group ∈ groups, ∀ i ∈ group, ∀ j ∈ group, i ≠ j →
    Grouping.CompatibleAt compatible items i j
  earliest  : groups.Pairwise fun earlier later => ∀ i ∈ later, ∃ j ∈ earlier,
    j < i ∧ ¬ Grouping.CompatibleAt compatible items i j

end Specification

namespace Proofs

/-! ## One item -/

section Pass

variable {β : Type} {compatible : β → β → Bool} {items : List β}

theorem place_cases (compatible : β → β → Bool) (item : ℕ × β)
    (groups : List (List (ℕ × β))) :
    (∃ front group back, groups = front ++ group :: back ∧
      (∀ earlier ∈ front, ¬ Grouping.Admits compatible item earlier) ∧
      Grouping.Admits compatible item group ∧
      Grouping.place compatible item groups = front ++ (group ++ [item]) :: back) ∨
    ((∀ group ∈ groups, ¬ Grouping.Admits compatible item group) ∧
      Grouping.place compatible item groups = groups ++ [[item]]) := by
  induction groups with
  | nil => exact .inr ⟨by simp, rfl⟩
  | cons first rest ih =>
    unfold Grouping.place
    split
    · next hall =>
      exact .inl ⟨[], first, rest, rfl, by simp, List.all_eq_true.mp hall, rfl⟩
    · next hall =>
      have hnot : ¬ Grouping.Admits compatible item first := fun h => hall (List.all_eq_true.mpr h)
      rcases ih with ⟨front, group, back, rfl, hfront, hgroup, hplace⟩ | ⟨hrest, hplace⟩
      · exact .inl ⟨first :: front, group, back, rfl, List.forall_mem_cons.mpr ⟨hnot, hfront⟩,
          hgroup, congrArg (first :: ·) hplace⟩
      · exact .inr ⟨List.forall_mem_cons.mpr ⟨hnot, hrest⟩, congrArg (first :: ·) hplace⟩

section Item

variable {count : ℕ} {x : β} {group earlier later : List (ℕ × β)}

theorem formed_succ (h : Grouping.Formed compatible items count group) :
    Grouping.Formed compatible items (count + 1) group where
  inhabited := h.inhabited
  members := h.members
  bounded := fun member hmember => Nat.lt_succ_of_lt (h.bounded member hmember)
  ascending := h.ascending
  joined := h.joined

theorem formed_singleton (hx : items[count]? = some x) :
    Grouping.Formed compatible items (count + 1) [(count, x)] where
  inhabited := List.cons_ne_nil _ _
  members := by simpa using hx
  bounded := by simp
  ascending := List.pairwise_singleton _ _
  joined := List.pairwise_singleton _ _

theorem formed_append (h : Grouping.Formed compatible items count group)
    (hx : items[count]? = some x) (hadmits : Grouping.Admits compatible (count, x) group) :
    Grouping.Formed compatible items (count + 1) (group ++ [(count, x)]) where
  inhabited := List.append_ne_nil_of_left_ne_nil h.inhabited _
  members := List.forall_mem_append.mpr ⟨h.members, by simpa using hx⟩
  bounded := List.forall_mem_append.mpr ⟨(formed_succ h).bounded, by simp⟩
  ascending := List.pairwise_append.mpr
    ⟨h.ascending, List.pairwise_singleton _ _, by simpa using fun i y => h.bounded (i, y)⟩
  joined := List.pairwise_append.mpr
    ⟨h.joined, List.pairwise_singleton _ _, by simpa using fun i y => hadmits (i, y)⟩

/-- A group that does not admit an item has a member that bars it. -/
theorem exists_bar (h : Grouping.Formed compatible items count group)
    (hnot : ¬ Grouping.Admits compatible (count, x) group) :
    ∃ member ∈ group, member.1 < count ∧ compatible x member.2 = false := by
  unfold Grouping.Admits at hnot
  push Not at hnot
  obtain ⟨member, hmember, hbar⟩ := hnot
  exact ⟨member, hmember, h.bounded member hmember, by simpa using hbar⟩

theorem precedes_append_left (h : Grouping.Precedes compatible earlier later)
    (hne : earlier ≠ []) (item : ℕ × β) :
    Grouping.Precedes compatible (earlier ++ [item]) later where
  ordered := by
    rw [List.head?_append_of_ne_nil _ hne]
    exact h.ordered
  barred := by
    intro other hother
    obtain ⟨member, hmember, hbar⟩ := h.barred other hother
    exact ⟨member, List.mem_append_left _ hmember, hbar⟩

theorem precedes_append_right (h : Grouping.Precedes compatible earlier later)
    (hformed : Grouping.Formed compatible items count earlier) (hne : later ≠ [])
    (hnot : ¬ Grouping.Admits compatible (count, x) earlier) :
    Grouping.Precedes compatible earlier (later ++ [(count, x)]) where
  ordered := by
    rw [List.head?_append_of_ne_nil _ hne]
    exact h.ordered
  barred := List.forall_mem_append.mpr
    ⟨h.barred, List.forall_mem_singleton.mpr (exists_bar hformed hnot)⟩

theorem precedes_singleton (hformed : Grouping.Formed compatible items count earlier)
    (hnot : ¬ Grouping.Admits compatible (count, x) earlier) :
    Grouping.Precedes compatible earlier [(count, x)] where
  ordered := by
    intro first hfirst next hnext
    obtain rfl : (count, x) = next := Option.some.inj hnext
    exact hformed.bounded first (List.mem_of_mem_head? hfirst)
  barred := List.forall_mem_singleton.mpr (exists_bar hformed hnot)

/-- Placing the next item keeps the invariant. -/
theorem placed_place {groups : List (List (ℕ × β))} (hx : items[count]? = some x)
    (h : Grouping.Placed compatible items count groups) :
    Grouping.Placed compatible items (count + 1) (Grouping.place compatible (count, x) groups) := by
  have hlater : ∀ group ∈ groups, Grouping.Formed compatible items (count + 1) group :=
    fun group hgroup => formed_succ (h.formed group hgroup)
  rcases place_cases compatible (count, x) groups with
    ⟨front, group, back, rfl, hfront, hadmits, hplace⟩ | ⟨hgroups, hplace⟩
  · -- One group gets the item; it still stands after those before it, which bar the item.
    rw [hplace]
    obtain ⟨hbefore, hcenter, hcross⟩ := List.pairwise_append.mp h.precedes
    obtain ⟨hgroup, hback⟩ := List.pairwise_cons.mp hcenter
    have hmem : group ∈ front ++ group :: back := by simp
    have hformed := h.formed group hmem
    constructor
    · intro other hother
      rcases List.mem_append.mp hother with hother | hother
      · exact hlater other (List.mem_append_left _ hother)
      · rcases List.mem_cons.mp hother with rfl | hother
        · exact formed_append hformed hx hadmits
        · exact hlater other (List.mem_append_right _ (List.mem_cons_of_mem _ hother))
    · refine List.pairwise_append.mpr ⟨hbefore, List.pairwise_cons.mpr ⟨?_, hback⟩, ?_⟩
      · intro later hlater
        exact precedes_append_left (hgroup later hlater) hformed.inhabited _
      · intro earlier hearlier
        have hearlierFormed := h.formed earlier (List.mem_append_left _ hearlier)
        refine List.forall_mem_cons.mpr ⟨?_, fun later hlater =>
          hcross earlier hearlier later (List.mem_cons_of_mem _ hlater)⟩
        exact precedes_append_right (hcross earlier hearlier group List.mem_cons_self)
          hearlierFormed hformed.inhabited (hfront earlier hearlier)
  · rw [hplace]
    constructor
    · exact List.forall_mem_append.mpr
        ⟨hlater, List.forall_mem_singleton.mpr (formed_singleton hx)⟩
    · refine List.pairwise_append.mpr ⟨h.precedes, List.pairwise_singleton _ _, ?_⟩
      intro earlier hearlier
      exact List.forall_mem_singleton.mpr
        (precedes_singleton (h.formed earlier hearlier) (hgroups earlier hearlier))

end Item

/-! ## The pass -/

/-- Placing the items one after the other keeps the invariant. -/
theorem placed_foldl {front back : List β} (hitems : front ++ back = items)
    {groups : List (List (ℕ × β))}
    (h : Grouping.Placed compatible items front.length groups) :
    Grouping.Placed compatible items items.length
      ((back.zipIdx front.length).foldl
        (fun acc (x, i) => Grouping.place compatible (i, x) acc) groups) := by
  induction back generalizing front groups with
  | nil =>
    rw [List.append_nil] at hitems
    exact hitems ▸ h
  | cons x rest ih =>
    have hx : items[front.length]? = some x := by simp [← hitems]
    have hlength : front.length + 1 = (front ++ [x]).length := by simp
    rw [List.zipIdx_cons, List.foldl_cons, hlength]
    refine ih (by simpa using hitems) ?_
    rw [← hlength]
    exact placed_place hx h

theorem placed_groups (compatible : β → β → Bool) (items : List β) :
    ∃ placed, Grouping.Placed compatible items items.length placed ∧
      Grouping.groups compatible items = placed.map fun group => group.map (·.1) := by
  have hitems : [] ++ items = items := List.nil_append items
  exact ⟨_, placed_foldl hitems ⟨by simp, List.Pairwise.nil⟩, rfl⟩

theorem compatibleAt_iff {i j : ℕ} {x y : β} (hx : items[i]? = some x) (hy : items[j]? = some y) :
    Grouping.CompatibleAt compatible items i j ↔ compatible x y := by
  simp [Grouping.CompatibleAt, hx, hy]

/-- Where it does not matter which of two items is asked, the groups are those of
    the specification. -/
theorem greedy_groups (hcomm : ∀ x y, compatible x y = compatible y x) (items : List β) :
    Grouping.Greedy compatible items (Grouping.groups compatible items) := by
  have hpartition := flatten_groups compatible items
  obtain ⟨placed, hplaced, hgroups⟩ := placed_groups compatible items
  rw [hgroups] at hpartition ⊢
  constructor
  case partition => exact hpartition
  case inhabited =>
    refine List.forall_mem_map.mpr fun group hgroup => ?_
    simpa using (hplaced.formed group hgroup).inhabited
  case ascending =>
    refine List.forall_mem_map.mpr fun group hgroup => ?_
    exact List.pairwise_map.mpr (hplaced.formed group hgroup).ascending
  case ordered =>
    refine List.pairwise_map.mpr (hplaced.precedes.imp fun hprecedes => ?_)
    simpa [List.head?_map] using hprecedes.ordered
  case cohesive =>
    refine List.forall_mem_map.mpr fun group hgroup => ?_
    have hformed := hplaced.formed group hgroup
    have : Std.Symm fun member item : ℕ × β => compatible item.2 member.2 = true :=
      ⟨fun _ _ h => (hcomm _ _).trans h⟩
    refine List.forall_mem_map.mpr fun member hmember =>
      List.forall_mem_map.mpr fun other hother hne => ?_
    rw [compatibleAt_iff (hformed.members member hmember) (hformed.members other hother)]
    exact hformed.joined.forall hother hmember fun heq => hne (congrArg Prod.fst heq.symm)
  case earliest =>
    refine List.pairwise_map.mpr (List.Pairwise.imp_of_mem ?_ hplaced.precedes)
    intro earlier later hearlier hlater hprecedes
    refine List.forall_mem_map.mpr fun item hitem => ?_
    obtain ⟨member, hmember, hlt, hbar⟩ := hprecedes.barred item hitem
    refine ⟨member.1, List.mem_map_of_mem hmember, hlt, ?_⟩
    rw [compatibleAt_iff ((hplaced.formed later hlater).members item hitem)
      ((hplaced.formed earlier hearlier).members member hmember), hbar]
    exact Bool.false_ne_true

end Pass

/-! ## Words and observables -/

theorem exchange_of_commutes {a b : PauliWord} (h : a.commutes b) (s : StateVector ℝ)
    (ha : ∀ w ∈ a.wires, w < s.wires) (hb : ∀ w ∈ b.wires, w < s.wires) :
    ∃ s', (s.applyWord a >>= fun t => t.applyWord b) = .ok s' ∧
      (s.applyWord b >>= fun t => t.applyWord a) = .ok s' := by
  obtain ⟨n, ψ, rfl⟩ := eq_ofWave s
  obtain ⟨as, has⟩ : ∃ factors : List (Fin n × Pauli), Spells a factors := exists_spells ha
  obtain ⟨bs, hbs⟩ : ∃ factors : List (Fin n × Pauli), Spells b factors := exists_spells hb
  refine ⟨ofWave (onWires pauliBlock bs (onWires pauliBlock as ψ)), ?_, ?_⟩
  · rw [has.applyWord_ofWave, ok_bind, hbs.applyWord_ofWave]
  · rw [hbs.applyWord_ofWave, ok_bind, has.applyWord_ofWave, onWires_swap h has hbs]

/-- Words and observables are grouped greedily by whether they commute, which may
    be asked of either.  Two words commute when on every wire their operators are
    equal or one is the identity, and can then be applied to a state in either
    order. -/
theorem commuting_groups {α : Type} :
    (∀ word : PauliWord, PauliWord.ofFactors word.factors = .ok word) ∧
    (∀ words : List PauliWord,
      Grouping.Greedy PauliWord.commutes words (PauliWord.groups words)) ∧
    (∀ observables : List (Observable α),
      Grouping.Greedy Observable.commutes observables (Observable.groups observables)) ∧
    (∀ a b : Observable α, a.commutes b = b.commutes a) ∧
    ∀ a b : PauliWord, a.commutes b = b.commutes a ∧
      (a.commutes b ↔ ∀ wire, a.get wire = b.get wire ∨ a.get wire = .I ∨ b.get wire = .I) ∧
      (a.commutes b → ∀ s : StateVector ℝ, (∀ w ∈ a.wires, w < s.wires) →
        (∀ w ∈ b.wires, w < s.wires) →
        ∃ s', (s.applyWord a >>= fun t => t.applyWord b) = .ok s' ∧
          (s.applyWord b >>= fun t => t.applyWord a) = .ok s') := by
  refine ⟨ofFactors_factors, greedy_groups commutes_comm,
    greedy_groups observable_commutes_comm, observable_commutes_comm, fun a b => ?_⟩
  exact ⟨commutes_comm a b, commutes_iff a b, exchange_of_commutes⟩

/-- Three words of which the second is kept apart, and the other two exchanged. -/
theorem commuting_groups_outer :
    PauliWord.groups [outerWord, .single 0 .Z, frontWord] = [[0, 2], [1]] ∧
    Grouping.Greedy PauliWord.commutes [outerWord, .single 0 .Z, frontWord] [[0, 2], [1]] ∧
    outerWord.commutes frontWord ∧
    ∃ s', ((ofWave (firstWave 3)).applyWord outerWord >>= fun t => t.applyWord frontWord) =
        .ok s' ∧
      ((ofWave (firstWave 3)).applyWord frontWord >>= fun t => t.applyWord outerWord) = .ok s' := by
  obtain ⟨-, hwords, -, -, hpairs⟩ := commuting_groups (α := ℝ)
  obtain ⟨-, -, hexchange⟩ := hpairs outerWord frontWord
  have hgroups : PauliWord.groups [outerWord, .single 0 .Z, frontWord] = [[0, 2], [1]] := by
    decide
  have hcommutes : outerWord.commutes frontWord := by decide
  refine ⟨hgroups, ?_, hcommutes, hexchange hcommutes (ofWave (firstWave 3)) ?_ ?_⟩
  · rw [← hgroups]
    exact hwords _
  · show ∀ w ∈ outerWord.wires, w < 3
    decide
  · show ∀ w ∈ frontWord.wires, w < 3
    decide

end Proofs

end CircuitGrad
