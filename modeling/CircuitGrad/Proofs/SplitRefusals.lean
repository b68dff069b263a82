import Mathlib
import CircuitGrad.Proofs.SplitValidity
import CircuitGrad.Proofs.WellFormedTrace

/-! # What a splitting refuses

    A splitting into terms refuses a measurement of a Hamiltonian that is not
    its expectation value (`Measurement.nonlinear?`).  A grouping refuses, in
    addition, a measurement of wires that names one of them twice
    (`Measurement.repeated?`): the basis that it is taken in is a Pauli word
    on these wires, although such a measurement can be part of a trace and be
    executed.

    These are the only refusals (`splitting_refusals`).  How a step fails is
    told by an optional error (`Refuses`): a chain fails as the first of its
    steps that does (`refuses_bind`), and so does a traversal
    (`refuses_mapM`).  The traces of the groups measure some wires of a valid
    trace each, and are never refused (`exists_plan_eq_ok`).
-/

namespace CircuitGrad

variable {α : Type}

/-- The refusal of a measurement of a Hamiltonian that is not linear in its terms. -/
def Measurement.nonlinear? (m : Measurement α) : Option Error :=
  if m.ofHamiltonian ∧ m.readout ≠ .expectation then
    some (.unsupported "Hamiltonian" (.notLinear m.readout))
  else none

/-- The refusal of a basis for wires of which one is named twice. -/
def Measurement.repeated? (m : Measurement α) : Option Error :=
  if m.observable.isNone ∧ m.readout ≠ .state then
    (PauliWord.repeatedWire? [] m.wires).map .duplicateWire
  else none

/-- The refusal of a splitting into terms: the first measurement that is not linear, or
    else, when terms are grouped, the first one without a basis. -/
def Trace.termRefusal? (t : Trace α) (grouped : Bool) : Option Error :=
  (t.measurements.findSome? Measurement.nonlinear?).or
    (if grouped then t.measurements.findSome? Measurement.repeated? else none)

/-- The refusal of the splitting for a backend. -/
def Trace.splitRefusal? (t : Trace α) (c : Capabilities) : Option Error :=
  if t.measurements.any (·.ofHamiltonian) ∧ (c.hamiltonian = false ∨ t.shots ≠ .analytic) then
    t.termRefusal? true
  else if c.nonCommuting = false then t.measurements.findSome? Measurement.repeated?
  else none

namespace Proofs

/-! ## How a step fails -/

section Refusals

variable {ε β γ : Type} {fault fault' : Option ε}

/-- The step fails with the error, if there is one, and succeeds otherwise. -/
def Refuses (x : Except ε β) (fault : Option ε) : Prop :=
  ∀ e, x = .error e ↔ fault = some e

theorem refuses_ok (a : β) : Refuses (.ok a : Except ε β) none := fun _ => ⟨nofun, nofun⟩

theorem refuses_error (e : ε) : Refuses (.error e : Except ε β) (some e) := fun _ =>
  ⟨fun h => congrArg some (Except.error.inj h), fun h => congrArg Except.error (Option.some.inj h)⟩

/-- A chain of two steps fails as the first one, or else as the second. -/
theorem refuses_bind {x : Except ε β} {f : β → Except ε γ} (hx : Refuses x fault)
    (hf : ∀ a, x = .ok a → Refuses (f a) fault') : Refuses (x >>= f) (fault.or fault') := by
  cases x with
  | error e =>
    rw [(hx e).mp rfl]
    exact refuses_error e
  | ok a =>
    have hnone : fault = none :=
      Option.eq_none_iff_forall_ne_some.mpr fun e he => nomatch (hx e).mpr he
    rw [hnone, Option.none_or]
    exact hf a rfl

/-- What is done to the result of a step that cannot fail does not fail either. -/
theorem refuses_map {x : Except ε β} {g : β → γ} (hx : Refuses x fault) :
    Refuses (x >>= fun a => pure (g a)) fault := by
  have h := refuses_bind hx fun a _ => refuses_ok (g a)
  rwa [Option.or_none] at h

/-- A traversal fails as the first item that does. -/
theorem refuses_mapM {f : β → Except ε γ} {faults : β → Option ε} {xs : List β}
    (h : ∀ x ∈ xs, Refuses (f x) (faults x)) : Refuses (xs.mapM f) (xs.findSome? faults) := by
  induction xs with
  | nil => exact refuses_ok []
  | cons x xs ih =>
    obtain ⟨hfirst, hrest⟩ := List.forall_mem_cons.mp h
    have hor : (x :: xs).findSome? faults = (faults x).or (xs.findSome? faults) := by
      rw [List.findSome?_cons]
      cases faults x <;> rfl
    rw [List.mapM_cons, hor]
    exact refuses_bind hfirst fun y _ => refuses_map (ih hrest)

/-- Where lists stand for items, the first fault is that of the lists put together. -/
theorem findSome?_flatten {f : β → Option ε} {g : γ → Option ε} {xs : List β}
    {yss : List (List γ)} (h : List.Forall₂ (fun x ys => ys.findSome? g = f x) xs yss) :
    yss.flatten.findSome? g = xs.findSome? f := by
  induction h with
  | nil => rfl
  | @cons x ys xs yss hfirst _ ih =>
    rw [List.flatten_cons, List.findSome?_append, hfirst, ih, List.findSome?_cons]
    cases f x <;> rfl

theorem findSome?_zipIdx (f : β → Option ε) (xs : List β) :
    xs.zipIdx.findSome? (fun pair => f pair.1) = xs.findSome? f := by
  conv_rhs => rw [← List.zipIdx_map_fst 0 xs, List.findSome?_map]
  rfl

end Refusals

/-! ## Shares and bases -/

theorem refuses_measurementShares [One α] (m : Measurement α) (parent : ℕ) :
    Refuses (m.termShares parent) m.nonlinear? := by
  unfold Measurement.termShares Measurement.nonlinear? Measurement.ofHamiltonian
  cases m.observable with
  | none => exact refuses_ok _
  | some o =>
    cases o with
    | word w => exact refuses_ok _
    | hamiltonian h =>
      by_cases hreadout : m.readout = .expectation
      · simpa [hreadout] using refuses_ok _
      · simpa [hreadout, Observable.isHamiltonian] using refuses_error _

theorem refuses_termShares [One α] (t : Trace α) :
    Refuses t.termShares (t.measurements.findSome? Measurement.nonlinear?) := by
  rw [← findSome?_zipIdx]
  exact refuses_map (refuses_mapM fun (m, parent) _ => refuses_measurementShares m parent)

theorem refuses_ofFactors (fs : List PauliFactor) :
    Refuses (PauliWord.ofFactors fs)
      ((PauliWord.repeatedWire? [] (fs.map (·.1))).map .duplicateWire) := by
  unfold PauliWord.ofFactors
  cases PauliWord.repeatedWire? [] (fs.map (·.1)) with
  | none => exact refuses_ok _
  | some w => exact refuses_error _

/-- The wires of the whole register are named once. -/
theorem repeatedWire?_measuredWires (m : Measurement α) (register : ℕ) :
    PauliWord.repeatedWire? [] (m.measuredWires register) =
      PauliWord.repeatedWire? [] m.wires := by
  unfold Measurement.measuredWires
  split
  · next hall =>
    have hwires : m.wires = [] := by simp_all
    rw [hwires, (repeatedWire?_eq_none_iff [] _).mpr ⟨List.nodup_range, by simp⟩]
    rfl
  · rfl

theorem refuses_basis (m : Measurement α) (register : ℕ) :
    Refuses (m.basis register) m.repeated? := by
  unfold Measurement.basis Measurement.repeated?
  split
  · next o hobservable => simpa [hobservable] using refuses_ok o
  · next hobservable hreadout => simpa [hreadout] using refuses_ok _
  · next hobservable hreadout =>
    have hcondition : m.observable.isNone ∧ m.readout ≠ .state :=
      ⟨by simp [hobservable], fun h => hreadout h⟩
    have hwires : ((m.measuredWires register).map (·, Pauli.Z)).map (·.1) =
        m.measuredWires register := by simp [Function.comp_def]
    have hword := refuses_ofFactors ((m.measuredWires register).map (·, Pauli.Z))
    rw [hwires, repeatedWire?_measuredWires] at hword
    rw [if_pos hcondition]
    exact refuses_map hword

theorem refuses_groups (ms : List (Measurement α)) (register : ℕ) :
    Refuses (Measurement.groups ms register) (ms.findSome? Measurement.repeated?) :=
  refuses_map (refuses_mapM fun m _ => refuses_basis m register)

/-- Wires that are named once each have a basis. -/
theorem repeated?_eq_none_of_nodup {m : Measurement α}
    (h : m.observable = none → m.readout ≠ .state → m.wires.Nodup) : m.repeated? = none := by
  unfold Measurement.repeated?
  split
  · next hcondition =>
    obtain ⟨hobservable, hreadout⟩ := hcondition
    have hnodup := h (Option.isNone_iff_eq_none.mp hobservable) hreadout
    rw [(repeatedWire?_eq_none_iff [] _).mpr ⟨hnodup, by simp⟩]
    rfl
  · rfl

theorem exists_of_nonlinear {ms : List (Measurement α)} {e : Error}
    (h : ms.findSome? Measurement.nonlinear? = some e) :
    ∃ m ∈ ms, m.ofHamiltonian ∧ m.readout ≠ .expectation ∧
      e = .unsupported "Hamiltonian" (.notLinear m.readout) := by
  obtain ⟨m, hm, hfault⟩ := List.exists_of_findSome?_eq_some h
  unfold Measurement.nonlinear? at hfault
  split at hfault
  · next hcondition =>
    exact ⟨m, hm, hcondition.1, hcondition.2, (Option.some.inj hfault).symm⟩
  · exact nomatch hfault

theorem findSome?_repeated_own [One α] {m : Measurement α} {parent : ℕ} {own : List (Share α)}
    (h : m.termShares parent = .ok own) :
    own.findSome? (·.measurement.repeated?) = m.repeated? := by
  unfold Measurement.termShares at h
  split at h
  · next hamiltonian hobservable =>
    split at h
    · obtain rfl := Except.ok.inj h
      have hwhole : m.repeated? = none := by simp [Measurement.repeated?, hobservable]
      rw [hwhole, List.findSome?_eq_none_iff, List.forall_mem_map]
      intro term _
      simp [Measurement.repeated?, Measurement.ofObservable]
    · cases h
  · obtain rfl := Except.ok.inj h
    simp

/-- Taking Hamiltonians apart neither adds nor removes measurements of wires. -/
theorem findSome?_repeated_termShares [One α] {t : Trace α} {shares : List (Share α)}
    (h : t.termShares = .ok shares) :
    (shares.map (·.measurement)).findSome? Measurement.repeated? =
      t.measurements.findSome? Measurement.repeated? := by
  obtain ⟨owns, howns, h⟩ := bind_eq_ok h
  obtain rfl := Except.ok.inj h
  rw [List.findSome?_map, ← findSome?_zipIdx _ t.measurements]
  exact findSome?_flatten (forall₂_of_mapM (fun _ _ _ => findSome?_repeated_own) howns)

/-! ## Traces of the groups -/

/-- The groups hold positions of the list that they are groups of. -/
theorem mem_range_of_groups {ms : List (Measurement α)} {register : ℕ} {groups : List (List ℕ)}
    (h : Measurement.groups ms register = .ok groups) :
    ∀ group ∈ groups, group ≠ [] ∧ ∀ i ∈ group, i < ms.length := by
  intro group hgroup
  have hpositions := flatten_measurementGroups h
  obtain ⟨observables, -, h⟩ := bind_eq_ok h
  obtain rfl := Except.ok.inj h
  refine ⟨(greedy_groups observable_commutes_comm observables).inhabited group hgroup, ?_⟩
  intro i hi
  exact List.mem_range.mp (hpositions.mem_iff.mp (List.mem_flatten.mpr ⟨group, hgroup, hi⟩))

section Plans

variable [Scalar α] {t : Trace α}

/-- Groups of shares on wires of a valid trace are measured by valid traces. -/
theorem exists_plan_eq_ok (ht : t.Valid) {shares : List (Share α)} {groups : List (List ℕ)}
    (hshares : ∀ share ∈ shares, ∀ w ∈ share.measurement.wires, w < t.register)
    (hgroups : ∀ group ∈ groups, group ≠ [] ∧ ∀ i ∈ group, i < shares.length) :
    ∃ p, Splitting.plan t shares groups = .ok p := by
  have hpart : ∀ group ∈ groups, ∃ part, (do
      let own := group.filterMap (shares[·]?)
      return (⟨own, ← t.withMeasurements (own.map (·.measurement))⟩ : Splitting.Part α) :
        Except Error (Splitting.Part α)) = .ok part := by
    intro group hgroup
    obtain ⟨hne, hlt⟩ := hgroups group hgroup
    obtain ⟨i, rest, rfl⟩ := List.exists_cons_of_ne_nil hne
    set own := (i :: rest).filterMap (shares[·]?)
    have hown : own.map (·.measurement) ≠ [] := by simp [own, hlt i List.mem_cons_self]
    have hwires : ∀ m ∈ own.map (·.measurement), ∀ w ∈ m.wires, w < t.register := by
      refine List.forall_mem_map.mpr fun share hshare => ?_
      obtain ⟨j, -, hj⟩ := List.mem_filterMap.mp hshare
      exact hshares share (List.mem_of_getElem? hj)
    have hchecked := check_eq_ok_iff.mpr
      ⟨rfl, show ({ t with measurements := own.map (·.measurement) } : Trace α).Valid from
        ⟨hown, ht.operations, hwires⟩⟩
    show ∃ part, (t.withMeasurements (own.map (·.measurement)) >>= fun u =>
      pure (⟨own, u⟩ : Splitting.Part α)) = .ok part
    unfold Trace.withMeasurements
    rw [hchecked, ok_bind]
    exact ⟨_, rfl⟩
  obtain ⟨parts, hparts⟩ := exists_mapM_eq_ok hpart
  unfold Splitting.plan
  rw [hparts, ok_bind]
  exact ⟨_, rfl⟩

/-- The shares of terms are measured on wires of their measurements. -/
theorem wires_lt_of_termShares (ht : t.Valid) (hmade : ∀ m ∈ t.measurements, m.Made)
    {shares : List (Share α)} (h : t.termShares = .ok shares) :
    ∀ share ∈ shares, ∀ w ∈ share.measurement.wires, w < t.register := by
  intro share hshare w hw
  obtain ⟨owns, howns, h⟩ := bind_eq_ok h
  obtain rfl := Except.ok.inj h
  obtain ⟨own, hown, hshare⟩ := List.mem_flatten.mp hshare
  obtain ⟨⟨m, parent⟩, hm, hown⟩ := mem_of_mapM howns hown
  have hmem := List.fst_mem_of_mem_zipIdx hm
  refine ht.measurements m hmem w ?_
  dsimp only [Measurement.termShares] at hown
  split at hown
  · next hamiltonian hobservable =>
    split at hown
    · obtain rfl := Except.ok.inj hown
      obtain ⟨term, hterm, rfl⟩ := List.mem_map.mp hshare
      rw [wires_of_made (hmade m hmem) hobservable]
      exact mem_wires_of_word (List.mem_map_of_mem hterm) hw
    · exact nomatch hown
  · obtain rfl := Except.ok.inj hown
    obtain rfl := List.mem_singleton.mp hshare
    exact hw

/-! ## Splittings -/

theorem refuses_splitTerms (ht : t.Valid) (hmade : ∀ m ∈ t.measurements, m.Made)
    (grouped : Bool) : Refuses (t.splitTerms grouped) (t.termRefusal? grouped) := by
  refine refuses_bind (refuses_termShares t) fun shares hshares => ?_
  have hwires := wires_lt_of_termShares ht hmade hshares
  cases grouped with
  | false =>
    have hsingle : ∀ group ∈ (List.range shares.length).map ([·]),
        group ≠ [] ∧ ∀ i ∈ group, i < shares.length := by simp
    obtain ⟨p, hp⟩ := exists_plan_eq_ok ht hwires hsingle
    simpa [hp] using refuses_ok p
  | true =>
    have hgroups := refuses_groups (shares.map (·.measurement)) t.register
    rw [findSome?_repeated_termShares hshares] at hgroups
    have hplan := refuses_bind hgroups fun groups hgroups => by
      have hpositions := mem_range_of_groups hgroups
      rw [List.length_map] at hpositions
      obtain ⟨p, hp⟩ := exists_plan_eq_ok ht hwires hpositions
      show Refuses (Splitting.plan t shares groups) none
      exact hp ▸ refuses_ok p
    rw [Option.or_none] at hplan
    exact hplan

theorem refuses_splitNonCommuting (ht : t.Valid) :
    Refuses t.splitNonCommuting (t.measurements.findSome? Measurement.repeated?) := by
  have hsplit := refuses_bind (refuses_groups t.measurements t.register) fun groups hgroups => by
    show Refuses (if groups.length = 1 then (return .identity t : Except Error (Plan α))
      else Splitting.plan t t.wholeShares groups) none
    split
    · exact refuses_ok _
    · have hshares : t.wholeShares.map (·.measurement) = t.measurements := by
        simp [Trace.wholeShares, Function.comp_def]
      have hwires : ∀ share ∈ t.wholeShares, ∀ w ∈ share.measurement.wires, w < t.register :=
        fun share hshare => ht.measurements _ (hshares ▸ List.mem_map_of_mem hshare)
      have hpositions := mem_range_of_groups hgroups
      rw [← hshares, List.length_map] at hpositions
      obtain ⟨p, hp⟩ := exists_plan_eq_ok ht hwires hpositions
      exact hp ▸ refuses_ok p
  rw [Option.or_none] at hsplit
  exact hsplit

theorem refuses_splitFor (ht : t.Valid) (hmade : ∀ m ∈ t.measurements, m.Made)
    (c : Capabilities) : Refuses (t.splitFor c) (t.splitRefusal? c) := by
  have hterms : (t.measurements.any (·.ofHamiltonian) &&
      (!c.hamiltonian || !t.shots.isAnalytic)) = true ↔
      t.measurements.any (·.ofHamiltonian) ∧ (c.hamiltonian = false ∨ t.shots ≠ .analytic) := by
    rw [Ne, ← isAnalytic_iff]
    simp
  unfold Trace.splitFor Trace.splitRefusal?
  rw [if_congr hterms rfl rfl]
  split
  · exact refuses_splitTerms ht hmade true
  · cases c.nonCommuting with
    | false => exact refuses_splitNonCommuting ht
    | true => exact refuses_ok _

/-- A splitting of a valid trace fails as its refusal says, and otherwise succeeds.  Unless
    some measurement names a wire twice, it succeeds or fails for a measurement of a
    Hamiltonian that is not its expectation value. -/
theorem splitting_refusals (t : Trace α) (ht : t.Valid) (hmade : ∀ m ∈ t.measurements, m.Made)
    (c : Capabilities) :
    (∀ grouped e, t.splitTerms grouped = .error e ↔ t.termRefusal? grouped = some e) ∧
    (∀ e, t.splitFor c = .error e ↔ t.splitRefusal? c = some e) ∧
    ((∀ m ∈ t.measurements, m.observable = none → m.readout ≠ .state → m.wires.Nodup) →
      ∀ r, (∃ grouped, t.splitTerms grouped = r) ∨ t.splitFor c = r →
        (∃ p, r = .ok p) ∨ ∃ m ∈ t.measurements, m.ofHamiltonian ∧ m.readout ≠ .expectation ∧
          r = .error (.unsupported "Hamiltonian" (.notLinear m.readout))) := by
  refine ⟨refuses_splitTerms ht hmade, refuses_splitFor ht hmade c, fun hnodup r hr => ?_⟩
  have hrepeated : t.measurements.findSome? Measurement.repeated? = none :=
    List.findSome?_eq_none_iff.mpr fun m hm => repeated?_eq_none_of_nodup (hnodup m hm)
  have hterms : ∀ grouped, t.termRefusal? grouped =
      t.measurements.findSome? Measurement.nonlinear? := by
    intro grouped
    unfold Trace.termRefusal?
    rw [hrepeated, ite_self, Option.or_none]
  cases r with
  | ok p => exact .inl ⟨p, rfl⟩
  | error e =>
    have hnonlinear : t.measurements.findSome? Measurement.nonlinear? = some e := by
      rcases hr with ⟨grouped, hr⟩ | hr
      · rw [← hterms grouped]
        exact (refuses_splitTerms ht hmade grouped e).mp hr
      · have hrefusal := (refuses_splitFor ht hmade c e).mp hr
        unfold Trace.splitRefusal? at hrefusal
        rw [hrepeated, ite_self, hterms] at hrefusal
        split at hrefusal
        · exact hrefusal
        · exact nomatch hrefusal
    obtain ⟨m, hm, hhamiltonian, hreadout, rfl⟩ := exists_of_nonlinear hnonlinear
    exact .inr ⟨m, hm, hhamiltonian, hreadout, rfl⟩

end Plans

/-- A Hamiltonian's variance beside the probabilities of two wires. -/
def varianceAndProbs : Trace ℝ :=
  { operations := []
    measurements := [.ofObservable .variance (.hamiltonian ⟨[(1, .single 0 .Z)]⟩), .probs [0, 1]]
    register := 2
    shots := .finite 10
    layout := .empty }

theorem splitting_refusals_variance :
    varianceAndProbs.splitTerms true =
      .error (.unsupported "Hamiltonian" (.notLinear .variance)) ∧
    ∃ m ∈ varianceAndProbs.measurements, m.ofHamiltonian ∧ m.readout ≠ .expectation ∧
      varianceAndProbs.splitFor (Capabilities.simulator 2) =
        .error (.unsupported "Hamiltonian" (.notLinear m.readout)) := by
  have hvalid : varianceAndProbs.Valid := ⟨by decide, by decide, by decide +kernel⟩
  have hmade : ∀ m ∈ varianceAndProbs.measurements, m.Made :=
    List.forall_mem_cons.mpr ⟨.ofObservable _ _, List.forall_mem_singleton.mpr (.probs _)⟩
  obtain ⟨hterms, hfor, hlinear⟩ :=
    splitting_refusals varianceAndProbs hvalid hmade (Capabilities.simulator 2)
  refine ⟨(hterms true _).mpr rfl, ?_⟩
  rcases hlinear (by decide) _ (.inr rfl) with ⟨p, hp⟩ | hrefused
  · exact nomatch hp.symm.trans ((hfor _).mpr rfl)
  · exact hrefused

/-- The probabilities of one wire, named twice. -/
def repeatedProbs : Trace ℝ :=
  { operations := [], measurements := [.probs [0, 0]], register := 1, shots := .analytic,
    layout := .empty }

/-- A trace that measures no Hamiltonian, can be made and has a result, and is refused. -/
theorem split_refused_repeatedProbs :
    Trace.make 1 [] [.probs [0, 0]] = .ok repeatedProbs ∧
    (∀ m ∈ repeatedProbs.measurements, m.ofHamiltonian = false) ∧
    repeatedProbs.outputShape = .ok [4] ∧
    repeatedProbs.splitTerms true = .error (.duplicateWire 0) ∧
    repeatedProbs.splitFor { Capabilities.simulator 1 with nonCommuting := false } =
      .error (.duplicateWire 0) :=
  ⟨rfl, by decide, rfl, rfl, rfl⟩

end Proofs

end CircuitGrad
