import Mathlib
import CircuitGrad.Backend.Basic
import CircuitGrad.Proofs.GreedyGroups
import CircuitGrad.Proofs.RealScalar
import CircuitGrad.Proofs.Shares

/-! # Validity of what a splitting gives

    The splitting of a trace is chosen from the capabilities of a backend,
    and the traces that it gives are validated against the same
    capabilities.  A trace that suits the backend (`Backend.Suits`) is split
    into traces that pass the validation.

    The grouping is greedy: an item joins the first group whose members it
    is compatible with.  Within a group, every item is therefore compatible
    with those before it (`Grouping.Cohesive`), and this is all that grouping
    the members once more asks for (`groups_eq_singleton`).
-/

namespace CircuitGrad

variable {α σ : Type}

/-- The group has members, each of them an item of the list that is compatible
    with the members before it. -/
structure Grouping.Cohesive {β : Type} (compatible : β → β → Bool) (items : List β)
    (group : List (ℕ × β)) : Prop where
  inhabited : group ≠ []
  members   : ∀ member ∈ group, items[member.1]? = some member.2
  fits      : (group.map (·.2)).Pairwise fun earlier later => compatible later earlier

/-- The register, the operations, the readouts and the shots of the trace are
    among what the backend can do. -/
structure Backend.Suits (b : Backend α σ) (t : Trace α) : Prop where
  register  : t.register ≤ b.capabilities.wires
  native    : ∀ op ∈ t.operations, b.capabilities.isNative op.name
  supported : ∀ m ∈ t.measurements, b.capabilities.supports m.readout
  sampled   : b.capabilities.shotModel = .sampled → t.shots ≠ .analytic
  samples   : (∃ m ∈ t.measurements, m.readout = .sample) → t.shots ≠ .analytic

namespace Proofs

/-! ## Grouping twice -/

section Grouping

variable {β : Type} {compatible : β → β → Bool} {items : List β}

/-- Within a group, items are compatible with those before them. -/
theorem cohesive_groups {group : List ℕ} (h : group ∈ Grouping.groups compatible items) :
    ∃ placed, Grouping.Cohesive compatible items placed ∧ group = placed.map (·.1) := by
  obtain ⟨groups, hplaced, hgroups⟩ := placed_groups compatible items
  rw [hgroups] at h
  obtain ⟨placed, hmem, rfl⟩ := List.mem_map.mp h
  have hformed := hplaced.formed placed hmem
  exact ⟨placed, ⟨hformed.inhabited, hformed.members, List.pairwise_map.mpr hformed.joined⟩, rfl⟩

/-- Looking the indices of a group up gives its members. -/
theorem filterMap_of_cohesive {placed : List (ℕ × β)}
    (h : Grouping.Cohesive compatible items placed) :
    (placed.map (·.1)).filterMap (items[·]?) = placed.map (·.2) := by
  rw [List.filterMap_map, ← List.filterMap_eq_map]
  exact List.filterMap_congr h.members

theorem foldl_place_singleton {pairs : List (β × ℕ)} {group : List (ℕ × β)}
    (h : (group.map (·.2) ++ pairs.map (·.1)).Pairwise fun earlier later =>
      compatible later earlier) :
    pairs.foldl (fun acc (x, i) => Grouping.place compatible (i, x) acc) [group] =
      [group ++ pairs.map Prod.swap] := by
  induction pairs generalizing group with
  | nil => simp
  | cons pair pairs ih =>
    obtain ⟨x, i⟩ := pair
    -- The item fits all of the group, so it is placed there and no other group is made.
    have hall : (group.all fun member => compatible x member.2) = true := by
      have hcross := (List.pairwise_append.mp h).2.2
      rw [List.all_eq_true]
      intro member hmember
      exact hcross member.2 (List.mem_map_of_mem hmember) x List.mem_cons_self
    have hplace : Grouping.place compatible (i, x) [group] = [group ++ [(i, x)]] := by
      simp [Grouping.place, hall]
    have hrest : ((group ++ [(i, x)]).map (·.2) ++ pairs.map (·.1)).Pairwise
        fun earlier later => compatible later earlier := by
      simpa using h
    rw [List.foldl_cons]
    dsimp only
    rw [hplace, ih hrest]
    simp

/-- Items that are compatible with all before them are one group. -/
theorem groups_eq_singleton (hne : items ≠ [])
    (h : items.Pairwise fun earlier later => compatible later earlier) :
    Grouping.groups compatible items = [List.range items.length] := by
  obtain ⟨x, xs, rfl⟩ := List.exists_cons_of_ne_nil hne
  have hpairs : ([(0, x)].map (·.2) ++ (xs.zipIdx 1).map (·.1)).Pairwise
      fun earlier later => compatible later earlier := by
    simpa using h
  have hplaced := foldl_place_singleton hpairs
  have hindices : (xs.zipIdx 1).map Prod.snd = List.range' 1 xs.length :=
    List.zipIdx_map_snd 1 xs
  unfold Grouping.groups
  rw [List.zipIdx_cons, List.foldl_cons]
  refine (congrArg (List.map _) hplaced).trans ?_
  rw [List.range_eq_range', List.length_cons, List.range'_succ, ← hindices]
  simp [Function.comp_def]

end Grouping

/-- Lists that are related item by item stay so when the same indices are looked up. -/
theorem forall₂_filterMap_getElem? {β γ : Type} {R : β → γ → Prop} {xs : List β} {ys : List γ}
    (h : List.Forall₂ R xs ys) (indices : List ℕ) :
    List.Forall₂ R (indices.filterMap (xs[·]?)) (indices.filterMap (ys[·]?)) := by
  induction indices with
  | nil => exact .nil
  | cons i rest ih =>
    cases hx : xs[i]? with
    | none =>
      have hy : ys[i]? = none := by
        rw [List.getElem?_eq_none_iff] at hx ⊢
        exact h.length_eq ▸ hx
      simpa [hx, hy] using ih
    | some x =>
      obtain ⟨y, hy, hxy⟩ := getElem?_of_forall₂ h hx
      simpa [hx, hy] using ⟨hxy, ih⟩

/-- The measurements of a group are one group. -/
theorem groups_of_group {ms : List (Measurement α)} {register : ℕ} {groups : List (List ℕ)}
    (h : Measurement.groups ms register = .ok groups) {group : List ℕ} (hgroup : group ∈ groups) :
    Measurement.groups (group.filterMap (ms[·]?)) register =
      .ok [List.range (group.filterMap (ms[·]?)).length] := by
  obtain ⟨observables, hobservables, h⟩ := bind_eq_ok h
  obtain rfl := Except.ok.inj h
  obtain ⟨placed, hplaced, rfl⟩ := cohesive_groups hgroup
  -- The members of the group are the bases of its measurements, in order.
  have hbases := forall₂_filterMap_getElem?
    (forall₂_of_mapM (R := fun m o => Measurement.basis m register = .ok o)
      (fun _ _ _ hm => hm) hobservables) (placed.map (·.1))
  rw [filterMap_of_cohesive hplaced] at hbases
  have hown : ((placed.map (·.1)).filterMap (ms[·]?)).mapM (·.basis register) =
      .ok (placed.map (·.2)) := mapM_of_forall₂ hbases
  have hne : placed.map (·.2) ≠ [] := by simpa using hplaced.inhabited
  unfold Measurement.groups
  rw [hown, ok_bind, Observable.groups, groups_eq_singleton hne hplaced.fits,
    hbases.length_eq]
  rfl

/-! ## Parts -/

section Parts

variable [Scalar α] {t u : Trace α} {p : Plan α}

/-- Every trace of a plan for groups of shares measures some of the shares, which are one
    group. -/
theorem one_group_of_plan {shares : List (Share α)} {groups : List (List ℕ)}
    (hgroups : Measurement.groups (shares.map (·.measurement)) t.register = .ok groups)
    (hplan : Splitting.plan t shares groups = .ok p) (hu : u ∈ p.traces) :
    ∃ ms, (∀ m ∈ ms, ∃ share ∈ shares, share.measurement = m) ∧
      u = { t with measurements := ms } ∧
      ∃ group, Measurement.groups ms t.register = .ok [group] := by
  obtain ⟨parts, hparts, hplan⟩ := bind_eq_ok hplan
  obtain rfl := Except.ok.inj hplan
  obtain ⟨part, hpart, rfl⟩ := List.mem_map.mp hu
  obtain ⟨group, hgroup, hpart⟩ := mem_of_mapM hparts hpart
  obtain ⟨v, hv, hpart⟩ := bind_eq_ok hpart
  obtain rfl := Except.ok.inj hpart
  have hown : (group.filterMap (shares[·]?)).map (·.measurement) =
      group.filterMap ((shares.map (·.measurement))[·]?) := by
    simp [List.map_filterMap]
  refine ⟨(group.filterMap (shares[·]?)).map (·.measurement), ?_, (check_eq_ok_iff.mp hv).1, ?_⟩
  · intro m hm
    obtain ⟨share, hshare, rfl⟩ := List.mem_map.mp hm
    obtain ⟨i, -, hi⟩ := List.mem_filterMap.mp hshare
    exact ⟨share, List.mem_of_getElem? hi, rfl⟩
  · rw [hown]
    exact ⟨_, groups_of_group hgroups hgroup⟩

/-- A share of a term is no Hamiltonian and is read out as its measurement is. -/
theorem mem_termShares {shares : List (Share α)} (h : t.termShares = .ok shares) {share : Share α}
    (hshare : share ∈ shares) : ∃ m ∈ t.measurements,
      share.measurement.readout = m.readout ∧ share.measurement.ofHamiltonian = false := by
  obtain ⟨owns, howns, h⟩ := bind_eq_ok h
  obtain rfl := Except.ok.inj h
  obtain ⟨own, hown, hshare⟩ := List.mem_flatten.mp hshare
  obtain ⟨⟨m, parent⟩, hm, hown⟩ := mem_of_mapM howns hown
  refine ⟨m, List.fst_mem_of_mem_zipIdx hm, ?_⟩
  dsimp only [Measurement.termShares] at hown
  split at hown
  · split at hown
    · next hreadout =>
      obtain rfl := Except.ok.inj hown
      obtain ⟨⟨c, w⟩, -, rfl⟩ := List.mem_map.mp hshare
      exact ⟨hreadout.symm, rfl⟩
    · cases hown
  · next hobservable =>
    obtain rfl := Except.ok.inj hown
    obtain rfl := List.mem_singleton.mp hshare
    refine ⟨rfl, ?_⟩
    cases ho : m.observable with
    | none => simp [Measurement.ofHamiltonian, ho]
    | some o =>
      cases o with
      | word w => simp [Measurement.ofHamiltonian, ho, Observable.isHamiltonian]
      | hamiltonian h => exact absurd ho (hobservable h)

/-- A trace of a splitting into terms measures a group of words. -/
theorem mem_splitTerms (h : t.splitTerms true = .ok p) (hu : u ∈ p.traces) :
    ∃ ms, (∀ m ∈ ms, ∃ m' ∈ t.measurements, m.readout = m'.readout ∧ m.ofHamiltonian = false) ∧
      u = { t with measurements := ms } ∧
      ∃ group, Measurement.groups ms t.register = .ok [group] := by
  obtain ⟨shares, hshares, hplan⟩ := bind_eq_ok h
  obtain ⟨groups, hgroups, hplan⟩ := bind_eq_ok hplan
  obtain ⟨ms, hms, hu, hgroup⟩ := one_group_of_plan hgroups hplan hu
  refine ⟨ms, fun m hm => ?_, hu, hgroup⟩
  obtain ⟨share, hshare, rfl⟩ := hms m hm
  exact mem_termShares hshares hshare

/-- A trace of a splitting into commuting groups measures one of them. -/
theorem mem_splitNonCommuting (h : t.splitNonCommuting = .ok p) (hu : u ∈ p.traces) :
    ∃ ms, (∀ m ∈ ms, m ∈ t.measurements) ∧ u = { t with measurements := ms } ∧
      ∃ group, Measurement.groups ms t.register = .ok [group] := by
  obtain ⟨groups, hgroups, h⟩ := bind_eq_ok h
  split at h
  · next hlength =>
    obtain rfl := Except.ok.inj h
    obtain rfl := List.mem_singleton.mp hu
    obtain ⟨group, rfl⟩ := List.length_eq_one_iff.mp hlength
    exact ⟨u.measurements, fun _ => id, rfl, group, hgroups⟩
  · have hshares : t.wholeShares.map (·.measurement) = t.measurements := by
      simp [Trace.wholeShares, Function.comp_def]
    rw [← hshares] at hgroups
    obtain ⟨ms, hms, hu, hgroup⟩ := one_group_of_plan hgroups h hu
    refine ⟨ms, fun m hm => ?_, hu, hgroup⟩
    rw [← hshares]
    exact List.mem_map.mpr (hms m hm)

end Parts

/-! ## Validation -/

section Validation

variable {b : Backend α σ} {t u : Trace α}

/-- A trace suits a backend whatever it measures, as long as the readouts are those of a
    trace that does. -/
theorem suits_withMeasurements (h : b.Suits t) {ms : List (Measurement α)}
    (hms : ∀ m ∈ ms, ∃ m' ∈ t.measurements, m.readout = m'.readout) :
    b.Suits { t with measurements := ms } := by
  refine ⟨h.register, h.native, ?_, h.sampled, ?_⟩
  · intro m hm
    obtain ⟨m', hm', hreadout⟩ := hms m hm
    exact hreadout ▸ h.supported m' hm'
  · rintro ⟨m, hm, hsample⟩
    obtain ⟨m', hm', hreadout⟩ := hms m hm
    exact h.samples ⟨m', hm', hreadout ▸ hsample⟩

theorem isAnalytic_iff {shots : Shots} : shots.isAnalytic = true ↔ shots = .analytic := by
  cases shots <;> simp [Shots.isAnalytic]

theorem validateMeasurement_eq_ok_iff {shots : Shots} {m : Measurement α} :
    b.validateMeasurement shots m = .ok () ↔ b.capabilities.supports m.readout ∧
      (b.capabilities.hamiltonian = false → m.ofHamiltonian = false) ∧
      (m.readout = .sample → shots ≠ .analytic) := by
  rw [Ne, ← isAnalytic_iff]
  unfold Backend.validateMeasurement
  split_ifs with hsupported hword hsample
  · simp_all
  · simp_all
  · simp_all
  · have hsupports : b.capabilities.supports m.readout := by simpa using hsupported
    simp_all

/-- A backend accepts exactly the traces that suit it, that measure a Hamiltonian only if it
    does, and whose measurements are one group unless it measures them all the same. -/
theorem validate_eq_ok_iff : b.validate t = .ok () ↔ b.Suits t ∧
    (b.capabilities.hamiltonian = false → ∀ m ∈ t.measurements, m.ofHamiltonian = false) ∧
    (b.capabilities.nonCommuting = false → ∃ groups,
      Measurement.groups t.measurements t.register = .ok groups ∧ groups.length ≤ 1) := by
  constructor
  · intro h
    dsimp only [Backend.validate] at h
    by_cases hregister : t.register > b.capabilities.wires
    · rw [if_pos hregister] at h
      cases h
    rw [if_neg hregister] at h
    cases hforeign : b.foreign? t with
    | some op =>
      rw [hforeign] at h
      cases h
    | none =>
      rw [hforeign] at h
      obtain ⟨_, hmeasurements, h⟩ := bind_eq_ok h
      -- All checks that come first were passed; what is left is read off them.
      have hchecked := fun m hm => validateMeasurement_eq_ok_iff.mp
        (forM_eq_ok_iff.mp hmeasurements m hm)
      split at h
      · cases h
      next hshots =>
      have hsuits : b.Suits t := by
        refine ⟨not_lt.mp hregister, ?_, fun m hm => (hchecked m hm).1, ?_, ?_⟩
        · simpa [Backend.foreign?] using hforeign
        · intro hsampled hanalytic
          simp [hsampled, isAnalytic_iff.mpr hanalytic] at hshots
        · rintro ⟨m, hm, hsample⟩
          exact (hchecked m hm).2.2 hsample
      refine ⟨hsuits, fun hwords m hm => (hchecked m hm).2.1 hwords, fun hcommuting => ?_⟩
      rw [hcommuting, Bool.not_false, if_pos rfl] at h
      obtain ⟨groups, hgroups, h⟩ := bind_eq_ok h
      split at h
      · cases h
      · next hlength => exact ⟨groups, hgroups, not_lt.mp hlength⟩
  · rintro ⟨hsuits, hwords, hgroups⟩
    have hregister : ¬t.register > b.capabilities.wires := not_lt.mpr hsuits.register
    have hforeign : b.foreign? t = none := by simpa [Backend.foreign?] using hsuits.native
    have hmeasurements : t.measurements.forM (b.validateMeasurement t.shots) = .ok () := by
      refine forM_eq_ok_iff.mpr fun m hm => ?_
      exact validateMeasurement_eq_ok_iff.mpr ⟨hsuits.supported m hm, fun h => hwords h m hm,
        fun hsample => hsuits.samples ⟨m, hm, hsample⟩⟩
    have hshots : ¬(b.capabilities.shotModel = .sampled ∧ t.shots.isAnalytic) := by
      rintro ⟨hsampled, hanalytic⟩
      exact hsuits.sampled hsampled (isAnalytic_iff.mp hanalytic)
    simp only [Backend.validate, hregister, hforeign, hmeasurements, Bool.and_eq_true,
      decide_eq_true_eq, hshots, if_false, ok_bind]
    split
    · next hcommuting =>
      obtain ⟨groups, hgroups, hlength⟩ := hgroups (by simpa using hcommuting)
      rw [hgroups, ok_bind, if_neg (by omega)]
      rfl
    · rfl

/-! ## Splitting for a backend -/

/-- The splitting that a backend asks for gives traces that it accepts: they measure no
    Hamiltonian that it cannot, and one group where it measures commuting observables only. -/
theorem split_valid [Scalar α] {p : Plan α} (hsuits : b.Suits t) (hsplit : b.split t = .ok p) :
    ∀ u ∈ p.traces, b.validate u = .ok () ∧
      (b.capabilities.hamiltonian = false → ∀ m ∈ u.measurements, m.ofHamiltonian = false) ∧
      (b.capabilities.nonCommuting = false →
        ∃ group, Measurement.groups u.measurements u.register = .ok [group]) := by
  intro u hu
  obtain ⟨hsuits', hwords, hgroup⟩ : b.Suits u ∧
      (b.capabilities.hamiltonian = false → ∀ m ∈ u.measurements, m.ofHamiltonian = false) ∧
      (b.capabilities.nonCommuting = false →
        ∃ group, Measurement.groups u.measurements u.register = .ok [group]) := by
    unfold Backend.split Trace.splitFor at hsplit
    split at hsplit
    · obtain ⟨ms, hms, rfl, hgroup⟩ := mem_splitTerms hsplit hu
      refine ⟨suits_withMeasurements hsuits fun m hm => ?_, fun _ m hm => ?_, fun _ => hgroup⟩
      · obtain ⟨m', hm', hreadout, -⟩ := hms m hm
        exact ⟨m', hm', hreadout⟩
      · obtain ⟨_, _, _, hword⟩ := hms m hm
        exact hword
    · next hwhole =>
      -- Terms would be measured if there were a Hamiltonian that cannot be.
      have hwords : b.capabilities.hamiltonian = false →
          ∀ m ∈ t.measurements, m.ofHamiltonian = false := by
        intro hhamiltonian
        simpa [hhamiltonian] using hwhole
      split at hsplit
      · obtain ⟨ms, hms, rfl, hgroup⟩ := mem_splitNonCommuting hsplit hu
        exact ⟨suits_withMeasurements hsuits fun m hm => ⟨m, hms m hm, rfl⟩,
          fun h m hm => hwords h m (hms m hm), fun _ => hgroup⟩
      · next hcommuting =>
        obtain rfl := Except.ok.inj hsplit
        obtain rfl := List.mem_singleton.mp hu
        exact ⟨hsuits, hwords, fun h => by simp [h] at hcommuting⟩
  refine ⟨validate_eq_ok_iff.mpr ⟨hsuits', hwords, fun h => ?_⟩, hwords, hgroup⟩
  obtain ⟨group, hgroup⟩ := hgroup h
  exact ⟨[group], hgroup, le_refl 1⟩

end Validation

/-- A sampling backend that measures words, and those that commute. -/
def wordSampler : Backend ℝ Unit where
  name := "words"
  capabilities :=
    { Capabilities.simulator 2 with
      native := ["Hadamard"], shotModel := .sampled, hamiltonian := false, nonCommuting := false }
  expansionDepth := 0
  gates := ⟨#[]⟩
  execute := fun _ s => (.ok [], s)

/-- A trace with a Hamiltonian whose words do not commute, probabilities and a sample. -/
noncomputable def sampledMixed : Trace ℝ where
  operations := [⟨StandardGate.hadamard.spec, [], [0]⟩]
  measurements :=
    [.ofObservable .expectation (.hamiltonian ⟨[(2, .single 0 .Z), (1, .single 0 .X)]⟩),
      .probs [1], .ofObservable .sample (.word (.single 1 .X))]
  register := 2
  shots := .finite 10
  layout := .empty

/-- The first word goes with the probabilities, and the second one with the sample. -/
theorem split_valid_sampledMixed : wordSampler.Suits sampledMixed ∧
    ∃ p, wordSampler.split sampledMixed = .ok p ∧
      p.traces.map (·.measurements.map (·.readout)) =
        [[.expectation, .probability], [.expectation, .sample]] ∧
      ∀ u ∈ p.traces, wordSampler.validate u = .ok () := by
  have hsuits : wordSampler.Suits sampledMixed := by
    refine ⟨le_refl 2, ?_, ?_, ?_, ?_⟩
    · simp [sampledMixed, wordSampler, Capabilities.isNative, Operation.name,
        StandardGate.spec, StandardGate.name]
    · simp [sampledMixed, wordSampler, Capabilities.supports, Capabilities.simulator,
        Measurement.ofObservable, Measurement.probs, Readout.all]
    · simp [sampledMixed]
    · simp [sampledMixed]
  obtain ⟨p, hp, hreadouts⟩ : ∃ p, wordSampler.split sampledMixed = .ok p ∧
      p.traces.map (·.measurements.map (·.readout)) =
        [[.expectation, .probability], [.expectation, .sample]] := ⟨_, rfl, rfl⟩
  exact ⟨hsuits, p, hp, hreadouts, fun u hu => (split_valid hsuits hp u hu).1⟩

end Proofs

end CircuitGrad
