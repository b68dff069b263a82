import Mathlib
import CircuitGrad.Splitting
import CircuitGrad.Proofs.Steps
import CircuitGrad.Proofs.Validity

/-! # Shares of measurements

    A splitting loses no share and repeats none: grouping puts every index
    into one group (`flatten_groups`), so that the parts of a plan hold all
    shares between them (`distributes_of_plan`).  Of all shares, those with
    one parent are the measurement itself or, for the mean of a Hamiltonian,
    its terms (`Trace.Shared`).
-/

namespace CircuitGrad

variable {α : Type}

/-- If a Hamiltonian is measured, it has a term. -/
def Measurement.HasTerms (m : Measurement α) : Prop :=
  ∀ h, m.observable = some (.hamiltonian h) → h.terms ≠ []

/-- The measurement as one share, or the terms of its Hamiltonian. -/
inductive Measurement.SharedAs [One α] (m : Measurement α) (parent : ℕ) : List (Share α) → Prop
  | whole : SharedAs m parent [⟨m, 1, parent⟩]
  | terms {h : Hamiltonian α} : m.readout = .expectation → m.observable = some (.hamiltonian h) →
      SharedAs m parent
        (h.terms.map fun (c, w) => ⟨.ofObservable .expectation (.word w), c, parent⟩)

/-- Of the shares of a trace, those with one parent stand for that
    measurement. -/
structure Trace.Shared [One α] (t : Trace α) (shares : List (Share α)) : Prop where
  own     : ∀ e ∈ t.measurements.zipIdx,
    e.1.SharedAs e.2 (shares.filter fun share => share.parent == e.2)
  parents : ∀ share ∈ shares, share.parent < t.measurements.length

/-- The parts measure the shares, each of them once. -/
structure Trace.Distributes (t : Trace α) (shares : List (Share α))
    (parts : List (Splitting.Part α)) : Prop where
  traces   : ∀ part ∈ parts, part.trace = { t with measurements := part.shares.map (·.measurement) }
  complete : (parts.flatMap (·.shares)).Perm shares

namespace Proofs

/-! ## Grouping -/

section Grouping

variable {β : Type} (compatible : β → β → Bool)

theorem flatten_place (item : ℕ × β) (groups : List (List (ℕ × β))) :
    (Grouping.place compatible item groups).flatten.Perm (item :: groups.flatten) := by
  induction groups with
  | nil => exact .refl _
  | cons group rest ih =>
    unfold Grouping.place
    split
    · rw [List.flatten_cons, List.flatten_cons, List.append_assoc]
      exact List.perm_middle
    · rw [List.flatten_cons, List.flatten_cons]
      exact (ih.append_left group).trans List.perm_middle

theorem flatten_foldl_place (items : List (β × ℕ)) (groups : List (List (ℕ × β))) :
    (items.foldl (fun acc (x, i) => Grouping.place compatible (i, x) acc) groups).flatten.Perm
      (items.map Prod.swap ++ groups.flatten) := by
  induction items generalizing groups with
  | nil => exact .refl _
  | cons item items ih =>
    obtain ⟨x, i⟩ := item
    rw [List.foldl_cons]
    refine (ih _).trans ?_
    exact ((flatten_place compatible (i, x) groups).append_left _).trans List.perm_middle

/-- Every index is in one group. -/
theorem flatten_groups (items : List β) :
    (Grouping.groups compatible items).flatten.Perm (List.range items.length) := by
  have h := (flatten_foldl_place compatible items.zipIdx []).map Prod.fst
  have hindices : (items.zipIdx.map Prod.swap).map Prod.fst = List.range items.length := by
    rw [List.map_map, List.range_eq_range']
    exact List.zipIdx_map_snd 0 items
  rw [List.flatten_nil, List.append_nil, hindices, List.map_flatten] at h
  exact h

end Grouping

theorem flatten_measurementGroups {ms : List (Measurement α)} {register : ℕ}
    {groups : List (List ℕ)} (h : Measurement.groups ms register = .ok groups) :
    groups.flatten.Perm (List.range ms.length) := by
  obtain ⟨observables, hobservables, h⟩ := bind_eq_ok h
  obtain rfl := Except.ok.inj h
  rw [← length_of_mapM hobservables]
  exact flatten_groups Observable.commutes observables

/-- Looking up every index gives the list. -/
theorem filterMap_range {β : Type} (xs : List β) :
    (List.range xs.length).filterMap (xs[·]?) = xs := by
  induction xs with
  | nil => rfl
  | cons x xs ih =>
    rw [List.length_cons, List.range_succ_eq_map, List.filterMap_cons, List.filterMap_map]
    exact congrArg (x :: ·) ih

/-! ## Plans of parts -/

/-- A plan has one part for each group. -/
theorem distributes_of_plan [Scalar α] {t : Trace α} {shares : List (Share α)}
    {groups : List (List ℕ)} {p : Plan α} (h : Splitting.plan t shares groups = .ok p)
    (hgroups : groups.flatten.Perm (List.range shares.length)) :
    ∃ parts, t.Distributes shares parts ∧
      p = ⟨parts.map (·.trace), Splitting.fold t parts⟩ := by
  obtain ⟨parts, hparts, h⟩ := bind_eq_ok h
  refine ⟨parts, ⟨?_, ?_⟩, (Except.ok.inj h).symm⟩
  · intro part hpart
    obtain ⟨group, -, hgroup⟩ := mem_of_mapM hparts hpart
    obtain ⟨u, hu, hpart⟩ := bind_eq_ok hgroup
    obtain rfl := Except.ok.inj hpart
    exact (check_eq_ok_iff.mp hu).1
  · have hshares : parts.map (·.shares) = groups.map fun group =>
        group.filterMap (shares[·]?) := by
      refine map_of_mapM (fun group part hgroup => ?_) hparts
      obtain ⟨u, -, hpart⟩ := bind_eq_ok hgroup
      obtain rfl := Except.ok.inj hpart
      rfl
    rw [List.flatMap_def, hshares, ← List.filterMap_flatten]
    exact (hgroups.filterMap _).trans (.of_eq (filterMap_range shares))

section Parts

variable {t : Trace α} {shares : List (Share α)} {parts : List (Splitting.Part α)}
  {part : Splitting.Part α}

theorem mem_shares (hparts : t.Distributes shares parts) (hpart : part ∈ parts) {share : Share α}
    (hshare : share ∈ part.shares) : share ∈ shares :=
  hparts.complete.mem_iff.mp (List.mem_flatMap.mpr ⟨part, hpart, hshare⟩)

theorem measurements_part (hparts : t.Distributes shares parts) (hpart : part ∈ parts) :
    part.trace.measurements = part.shares.map (·.measurement) := by
  rw [hparts.traces part hpart]

end Parts

/-! ## The shares of each measurement -/

/-- A Hamiltonian that can be made has a term. -/
theorem terms_ne_nil_of_make {coefficients : List α} {words : List PauliWord} {h : Hamiltonian α}
    (hmake : Hamiltonian.make coefficients words = .ok h) : h.terms ≠ [] := by
  unfold Hamiltonian.make at hmake
  split at hmake
  · cases hmake
  · next hlength =>
    split at hmake
    · cases hmake
    · next hempty =>
      obtain rfl := Except.ok.inj hmake
      have hne : coefficients ≠ [] := fun h => hempty (List.isEmpty_iff.mpr h)
      obtain ⟨c, cs, rfl⟩ := List.exists_cons_of_ne_nil hne
      obtain ⟨w, ws, rfl⟩ := List.exists_cons_of_length_eq_add_one (not_not.mp hlength).symm
      exact List.cons_ne_nil _ _

theorem ne_nil_of_sharedAs [One α] {m : Measurement α} (hm : m.HasTerms) {parent : ℕ}
    {own : List (Share α)} (h : m.SharedAs parent own) : own ≠ [] := by
  cases h with
  | whole => exact List.cons_ne_nil _ _
  | terms _ hobservable => exact fun hnil => hm _ hobservable (List.map_eq_nil_iff.mp hnil)

theorem parent_of_sharedAs [One α] {m : Measurement α} {parent : ℕ} {own : List (Share α)}
    (h : m.SharedAs parent own) : ∀ share ∈ own, share.parent = parent := by
  cases h with
  | whole => exact List.forall_mem_singleton.mpr rfl
  | terms => exact List.forall_mem_map.mpr fun _ _ => rfl

/-- Shares listed measurement by measurement are told apart by their parents. -/
theorem shared_of_flatten [One α] {ms : List (Measurement α)} {k : ℕ}
    {owns : List (List (Share α))}
    (h : List.Forall₂ (fun e own => e.1.SharedAs e.2 own) (ms.zipIdx k) owns) :
    (∀ e ∈ ms.zipIdx k,
      e.1.SharedAs e.2 (owns.flatten.filter fun share => share.parent == e.2)) ∧
    ∀ share ∈ owns.flatten, k ≤ share.parent ∧ share.parent < k + ms.length := by
  induction ms generalizing k owns with
  | nil =>
    cases h
    exact ⟨fun e he => absurd he List.not_mem_nil, fun share h => absurd h List.not_mem_nil⟩
  | cons m ms ih =>
    obtain ⟨own, owns, hown, hrest, rfl⟩ := List.forall₂_cons_left_iff.mp h
    obtain ⟨hshared, hparents⟩ := ih hrest
    have hfirst := parent_of_sharedAs hown
    rw [List.flatten_cons]
    constructor
    · intro e he
      rw [List.filter_append]
      rcases List.mem_cons.mp he with rfl | he
      -- The first measurement's shares are kept, and the others have later parents.
      · have hkeep : own.filter (fun share => share.parent == k) = own :=
          List.filter_eq_self.mpr fun share h => beq_iff_eq.mpr (hfirst share h)
        have hdrop : owns.flatten.filter (fun share => share.parent == k) = [] := by
          refine List.filter_eq_nil_iff.mpr fun share h hparent => ?_
          have hlater := (hparents share h).1
          have hsame : share.parent = k := beq_iff_eq.mp hparent
          omega
        rw [hkeep, hdrop, List.append_nil]
        exact hown
      · have hdrop : own.filter (fun share => share.parent == e.2) = [] := by
          refine List.filter_eq_nil_iff.mpr fun share h hparent => ?_
          have hlater := List.le_snd_of_mem_zipIdx he
          have hsame : share.parent = e.2 := beq_iff_eq.mp hparent
          have hparent := hfirst share h
          omega
        rw [hdrop, List.nil_append]
        exact hshared e he
    · intro share hshare
      rw [List.length_cons]
      rcases List.mem_append.mp hshare with h | h
      · have hparent := hfirst share h
        dsimp only at hparent
        omega
      · have hlater := hparents share h
        omega

theorem shared_wholeShares [One α] (t : Trace α) : t.Shared t.wholeShares := by
  have h : List.Forall₂ (fun e own => e.1.SharedAs e.2 own) t.measurements.zipIdx
      (t.measurements.zipIdx.map fun e => [(⟨e.1, 1, e.2⟩ : Share α)]) :=
    List.forall₂_map_right_iff.mpr (List.forall₂_same.mpr fun e _ => .whole)
  obtain ⟨hown, hparents⟩ := shared_of_flatten h
  have hflatten : (t.measurements.zipIdx.map fun e => [(⟨e.1, 1, e.2⟩ : Share α)]).flatten =
      t.wholeShares := by
    rw [← List.flatMap_def]
    exact List.map_eq_flatMap.symm
  rw [hflatten] at hown hparents
  exact ⟨hown, fun share hshare => by simpa using (hparents share hshare).2⟩

theorem sharedAs_of_termShares [One α] {m : Measurement α} {parent : ℕ} {own : List (Share α)}
    (h : m.termShares parent = .ok own) : m.SharedAs parent own := by
  unfold Measurement.termShares at h
  split at h
  · next hamiltonian hobservable =>
    split at h
    · next hreadout =>
      obtain rfl := Except.ok.inj h
      exact .terms hreadout hobservable
    · cases h
  · obtain rfl := Except.ok.inj h
    exact .whole

theorem shared_termShares [One α] {t : Trace α} {shares : List (Share α)}
    (h : t.termShares = .ok shares) : t.Shared shares := by
  obtain ⟨owns, howns, h⟩ := bind_eq_ok h
  obtain rfl := Except.ok.inj h
  obtain ⟨hown, hparents⟩ := shared_of_flatten
    (forall₂_of_mapM (fun e _ own he => sharedAs_of_termShares he) howns)
  exact ⟨hown, fun share hshare => by simpa using (hparents share hshare).2⟩

/-! ## Splittings -/

/-- The parts of a splitting into terms measure shares of the trace. -/
theorem parts_of_splitTerms [Scalar α] {t : Trace α} {grouped : Bool} {p : Plan α}
    (h : t.splitTerms grouped = .ok p) : ∃ shares parts, t.Shared shares ∧
      t.Distributes shares parts ∧ p = ⟨parts.map (·.trace), Splitting.fold t parts⟩ := by
  obtain ⟨shares, hshares, h⟩ := bind_eq_ok h
  have hshared := shared_termShares hshares
  dsimp only at h
  split at h
  · obtain ⟨groups, hgroups, h⟩ := bind_eq_ok h
    have hpartition := flatten_measurementGroups hgroups
    rw [List.length_map] at hpartition
    obtain ⟨parts, hparts, rfl⟩ := distributes_of_plan h hpartition
    exact ⟨shares, parts, hshared, hparts, rfl⟩
  -- Without grouping, every share is a group of its own.
  · have hpartition : ((List.range shares.length).map ([·])).flatten.Perm
        (List.range shares.length) := by
      rw [← List.flatMap_def, List.flatMap_singleton']
    obtain ⟨parts, hparts, rfl⟩ := distributes_of_plan h hpartition
    exact ⟨shares, parts, hshared, hparts, rfl⟩

/-- Measurements that commute stay together, and otherwise the parts measure shares. -/
theorem parts_of_splitNonCommuting [Scalar α] {t : Trace α} {p : Plan α}
    (h : t.splitNonCommuting = .ok p) : p = .identity t ∨ ∃ shares parts, t.Shared shares ∧
      t.Distributes shares parts ∧ p = ⟨parts.map (·.trace), Splitting.fold t parts⟩ := by
  obtain ⟨groups, hgroups, h⟩ := bind_eq_ok h
  split at h
  · exact .inl (Except.ok.inj h).symm
  · have hpartition : groups.flatten.Perm (List.range t.wholeShares.length) := by
      rw [Trace.wholeShares, List.length_map, List.length_zipIdx]
      exact flatten_measurementGroups hgroups
    obtain ⟨parts, hparts, rfl⟩ := distributes_of_plan h hpartition
    exact .inr ⟨_, parts, shared_wholeShares t, hparts, rfl⟩

/-- Something is measured, so there is a part. -/
theorem exists_part [One α] {t : Trace α} {shares : List (Share α)}
    {parts : List (Splitting.Part α)} (hvalid : t.Valid) (hterms : ∀ m ∈ t.measurements, m.HasTerms)
    (hshared : t.Shared shares) (hparts : t.Distributes shares parts) : ∃ part, part ∈ parts := by
  obtain ⟨m, ms, hms⟩ := List.exists_cons_of_ne_nil hvalid.measured
  have he : (m, 0) ∈ t.measurements.zipIdx := by
    rw [hms]
    exact List.mem_cons_self
  have hm : m ∈ t.measurements := List.fst_mem_of_mem_zipIdx he
  obtain ⟨share, hshare⟩ := List.exists_mem_of_ne_nil _
    (ne_nil_of_sharedAs (hterms m hm) (hshared.own _ he))
  obtain ⟨part, hpart, -⟩ := List.mem_flatMap.mp
    (hparts.complete.mem_iff.mpr (List.mem_of_mem_filter hshare))
  exact ⟨part, hpart⟩

end Proofs

end CircuitGrad
