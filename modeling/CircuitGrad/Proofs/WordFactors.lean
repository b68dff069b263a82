import Mathlib
import CircuitGrad.Proofs.RisingLists
import CircuitGrad.Proofs.WordOperations

/-! # Factors of a word

    A Pauli word stores its factors in a sorted list without identities.  It is
    determined by the operators on the wires (`word_ext`), whatever order its
    factors were given in, and every word is built from the factors that it
    stores (`ofFactors_factors`).

    Two words commute when the factors on each wire that both store are equal.
    As no identity is stored, this says that on every wire the operators are
    equal or one of them is the identity (`commutes_iff`), which does not
    depend on the order of the two (`commutes_comm`).
-/

namespace CircuitGrad

namespace Proofs

/-! ## The operator on a wire -/

theorem lookup_cons_factor (f : PauliFactor) (fs : List PauliFactor) (wire : ℕ) :
    (f :: fs).lookup wire = if wire = f.1 then some f.2 else fs.lookup wire := by
  obtain ⟨w, p⟩ := f
  rw [List.lookup_cons]
  by_cases hwire : wire = w
  · simp [hwire]
  · simp [hwire, beq_eq_false_iff_ne.mpr hwire]

theorem lookup_placeFactor (f : PauliFactor) (fs : List PauliFactor) (wire : ℕ) :
    (placeFactor f fs).lookup wire = if wire = f.1 then some f.2 else fs.lookup wire := by
  fun_induction placeFactor f fs with
  | case1 => exact lookup_cons_factor f [] wire
  | case2 g rest hlt => exact lookup_cons_factor f (g :: rest) wire
  | case3 g rest hlt heq =>
    rw [lookup_cons_factor, lookup_cons_factor g rest, ← heq]
    by_cases hwire : wire = f.1 <;> simp [hwire]
  | case4 g rest hlt hne ih =>
    rw [lookup_cons_factor, lookup_cons_factor g rest, ih]
    by_cases hwire : wire = g.1
    · have hfirst : wire ≠ f.1 := fun h => hne (h.symm.trans hwire)
      simp [hwire, hwire ▸ hfirst]
    · simp [hwire]

theorem get_identity (wire : ℕ) : PauliWord.identity.get wire = .I := rfl

theorem get_set (word : PauliWord) (f : PauliFactor) (wire : ℕ) :
    (word.set f).get wire = if wire = f.1 ∧ f.2 ≠ .I then f.2 else word.get wire := by
  unfold PauliWord.set PauliWord.get
  split
  · next hidentity => simp [hidentity]
  · next hidentity =>
    rw [lookup_placeFactor]
    by_cases hwire : wire = f.1 <;> simp [hwire, hidentity]

/-- Factors on different wires are set where they do not give the identity. -/
theorem get_foldl_set {fs : List PauliFactor} (h : (fs.map Prod.fst).Nodup) (word : PauliWord)
    (wire : ℕ) :
    (fs.foldl PauliWord.set word).get wire =
      if (fs.lookup wire).getD .I = .I then word.get wire else (fs.lookup wire).getD .I := by
  induction fs generalizing word with
  | nil => rfl
  | cons f rest ih =>
    rw [List.map_cons, List.nodup_cons] at h
    obtain ⟨hfirst, hrest⟩ := h
    rw [List.foldl_cons, ih hrest, get_set, lookup_cons_factor]
    by_cases hwire : wire = f.1
    · -- The wire is not among the rest, so the first factor alone decides.
      have hnone : rest.lookup wire = none := by
        refine List.lookup_eq_none_iff.mpr fun g hg => ?_
        have hne : wire ≠ g.1 := fun heq => hfirst (hwire ▸ heq ▸ List.mem_map_of_mem hg)
        simpa using hne
      by_cases hidentity : f.2 = .I <;> simp [hwire, hwire ▸ hnone, hidentity]
    · simp [hwire]

/-! ## Constructors -/

theorem repeatedWire?_eq_none_iff (seen wires : List ℕ) :
    PauliWord.repeatedWire? seen wires = none ↔ wires.Nodup ∧ ∀ w ∈ wires, w ∉ seen := by
  induction wires generalizing seen with
  | nil => simp [PauliWord.repeatedWire?]
  | cons w rest ih =>
    unfold PauliWord.repeatedWire?
    split
    · next hseen =>
      have hmem : w ∈ seen := by simpa using hseen
      simp [hmem]
    · next hseen =>
      have hnot : w ∉ seen := by simpa using hseen
      rw [ih, List.nodup_cons, List.forall_mem_cons]
      simp only [List.mem_cons, not_or]
      constructor
      · rintro ⟨hnodup, hrest⟩
        exact ⟨⟨fun hw => (hrest w hw).1 rfl, hnodup⟩, hnot, fun v hv => (hrest v hv).2⟩
      · rintro ⟨⟨hw, hnodup⟩, -, hrest⟩
        exact ⟨hnodup, fun v hv => ⟨fun heq => hw (heq ▸ hv), hrest v hv⟩⟩

theorem nodup_wires (word : PauliWord) : word.wires.Nodup :=
  List.pairwise_map.mpr (word.sorted.imp fun hlt => Nat.ne_of_lt hlt)

/-- A list of factors is refused exactly for a wire that stands in it twice. -/
theorem ofFactors_of_nodup {fs : List PauliFactor} (h : (fs.map Prod.fst).Nodup) :
    PauliWord.ofFactors fs = .ok (fs.foldl PauliWord.set PauliWord.identity) := by
  unfold PauliWord.ofFactors
  rw [(repeatedWire?_eq_none_iff [] _).mpr ⟨h, fun _ _ => List.not_mem_nil⟩]

/-- No identity is stored. -/
theorem lookup_factors (word : PauliWord) (wire : ℕ) :
    word.factors.lookup wire = if word.get wire = .I then none else some (word.get wire) := by
  unfold PauliWord.get
  cases hfound : word.factors.lookup wire with
  | none => rfl
  | some p =>
    obtain ⟨front, back, hsplit, -⟩ := List.lookup_eq_some_iff.mp hfound
    have hmem : (wire, p) ∈ word.factors :=
      hsplit ▸ List.mem_append_right front List.mem_cons_self
    have hproper : p ≠ .I := word.proper _ hmem
    simp [hproper]

theorem mem_factors_iff (word : PauliWord) (f : PauliFactor) :
    f ∈ word.factors ↔ word.get f.1 = f.2 ∧ f.2 ≠ .I := by
  obtain ⟨wire, p⟩ := f
  constructor
  · intro hf
    have hfound := lookup_of_mem (nodup_wires word) hf
    unfold PauliWord.get
    rw [hfound]
    exact ⟨rfl, word.proper _ hf⟩
  · rintro ⟨hget, hproper⟩
    have hfound : word.factors.lookup wire = some p := by
      rw [lookup_factors, hget, if_neg hproper]
    obtain ⟨front, back, hsplit, -⟩ := List.lookup_eq_some_iff.mp hfound
    exact hsplit ▸ List.mem_append_right front List.mem_cons_self

/-- Words that act alike on every wire are equal. -/
theorem word_ext {a b : PauliWord} (h : ∀ wire, a.get wire = b.get wire) : a = b := by
  have hmem : ∀ f, f ∈ a.factors ↔ f ∈ b.factors := by
    intro f
    rw [mem_factors_iff, mem_factors_iff, h]
  have hfactors : a.factors = b.factors :=
    eq_of_rising (fun _ _ => Nat.lt_asymm) a.sorted b.sorted hmem
  cases a
  cases b
  congr

theorem ofFactors_factors (word : PauliWord) : PauliWord.ofFactors word.factors = .ok word := by
  rw [ofFactors_of_nodup (nodup_wires word)]
  refine congrArg Except.ok (word_ext fun wire => ?_)
  rw [get_foldl_set (nodup_wires word), get_identity]
  split
  · next hidentity => exact hidentity.symm
  · rfl

/-! ## Commuting words -/

theorem commutes_iff (a b : PauliWord) :
    a.commutes b ↔ ∀ wire, a.get wire = b.get wire ∨ a.get wire = .I ∨ b.get wire = .I := by
  have hfactor : ∀ f : PauliFactor, (b.factors.lookup f.1).all (· == f.2) = true ↔
      b.get f.1 = f.2 ∨ b.get f.1 = .I := by
    intro f
    rw [lookup_factors]
    split
    · next hidentity => simp [hidentity]
    · next hidentity => simp [hidentity]
  unfold PauliWord.commutes
  rw [List.all_eq_true]
  constructor
  · intro h wire
    by_cases hidentity : a.get wire = .I
    · exact .inr (.inl hidentity)
    · have hstored : (wire, a.get wire) ∈ a.factors :=
        (mem_factors_iff a _).mpr ⟨rfl, hidentity⟩
      exact ((hfactor _).mp (h _ hstored)).imp Eq.symm .inr
  · intro h f hf
    obtain ⟨hget, hproper⟩ := (mem_factors_iff a f).mp hf
    rw [hfactor, ← hget]
    rcases h f.1 with heq | hidentity | hidentity
    · exact .inl heq.symm
    · exact absurd (hget.symm.trans hidentity) hproper
    · exact .inr hidentity

/-- Of two words, either may be asked whether they commute. -/
theorem commutes_comm (a b : PauliWord) : a.commutes b = b.commutes a := by
  rw [Bool.eq_iff_iff, commutes_iff, commutes_iff]
  refine forall_congr' fun wire => or_congr eq_comm or_comm

theorem observable_commutes_comm {α : Type} (a b : Observable α) :
    a.commutes b = b.commutes a := by
  unfold Observable.commutes
  rw [Bool.eq_iff_iff]
  simp only [List.all_eq_true]
  constructor
  · intro h w hw v hv
    exact commutes_comm v w ▸ h v hv w hw
  · intro h v hv w hw
    exact commutes_comm w v ▸ h w hw v hv

end Proofs

end CircuitGrad
