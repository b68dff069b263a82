import Mathlib
import CircuitGrad.Proofs.Eigenbasis

/-! # Words as operations

    A Pauli word is applied by flipping bits of basis indices and turning
    phases, without a matrix.  The standard gates of its factors, applied one
    after the other, do the same in every order (`applyWord_eq_operations`).

    Both are the product of the matrices of the factors (`acts_factors`,
    `Spells.wordAction`), and matrices on different wires commute.  So a word
    undoes itself, since each of its matrices does (`pauliBlock_sq`), and two
    words commute that act by the same operator on each wire they share.
-/

namespace CircuitGrad

/-- The standard gate of an operator. -/
def Pauli.gate : Pauli → StandardGate
  | .I => .identity
  | .X => .pauliX
  | .Y => .pauliY
  | .Z => .pauliZ

/-- The standard operation of each factor of a word. -/
def PauliWord.operations {α : Type} [Scalar α] (word : PauliWord) : List (Operation α) :=
  word.factors.map fun f => ⟨f.2.gate.spec, [], [f.1]⟩

namespace Proofs

open Gate.Matrix

variable {n : ℕ}

/-! ## Factors -/

theorem acts_factor (f : Fin n × Pauli) :
    Acts [⟨f.2.gate.spec, [], [f.1.val]⟩] (onWire f.1 fun _ => pauliBlock f.2) := by
  have hgate {g : StandardGate} (hparams : g.paramCount = 0) (hwires : g.wireCount = 1)
      {A : Block} (htarget : toBlock (g.target []) = A) :
      Acts [⟨g.spec, [], [f.1.val]⟩] (onWire f.1 fun _ => A) :=
    htarget ▸ acts_gate hparams hwires f.1
  obtain ⟨w, p⟩ := f
  cases p with
  | I => exact hgate rfl rfl toBlock_identity
  | X | Y | Z => exact hgate rfl rfl rfl

/-- The gates of some factors act by the matrices of their operators. -/
theorem acts_factors (factors : List (Fin n × Pauli)) :
    Acts (factors.map fun f => ⟨f.2.gate.spec, [], [f.1.val]⟩) (onWires pauliBlock factors) := by
  induction factors with
  | nil => exact .nil
  | cons f rest ih => exact (acts_factor f).append ih

section Wires

variable {U : Pauli → Block} {factors factors' : List (Fin n × Pauli)}

/-- Matrices on different wires may be applied in any order. -/
theorem onWires_perm (hperm : factors.Perm factors') (h : (factors.map Prod.fst).Nodup) :
    onWires U factors = onWires U factors' := by
  refine hperm.foldr_eq' (fun f hf g hg L => ?_) 1
  by_cases hfg : f = g
  · rw [hfg]
  · have hne : f.1 ≠ g.1 := fun heq => hfg (List.inj_on_of_nodup_map h hf hg heq)
    refine LinearMap.ext fun ψ => congrArg L ?_
    exact onWire_comm hne _ _ ψ

theorem onWires_one (ψ : Wave n) : onWires (fun _ => 1) factors ψ = ψ := by
  induction factors generalizing ψ with
  | nil => rfl
  | cons f rest ih => exact (ih _).trans (onWire_one f.1 ψ)

/-- What commutes with each matrix commutes with their product. -/
theorem commute_onWires {M : Module.End ℂ (Wave n)}
    (h : ∀ f ∈ factors, Commute M (onWire f.1 fun _ => U f.2)) :
    Commute M (onWires U factors) := by
  induction factors with
  | nil => exact Commute.one_right M
  | cons f rest ih =>
    obtain ⟨hfirst, hrest⟩ := List.forall_mem_cons.mp h
    exact (ih hrest).mul_right hfirst

end Wires

/-- Each operator undoes itself. -/
theorem pauliBlock_sq (p : Pauli) : pauliBlock p * pauliBlock p = 1 := by
  unfold pauliBlock
  cases p with
  | I => exact one_mul 1
  | X => simp [toBlock_pauliX, rows_mul, one_eq_rows]
  | Y => simp [toBlock_pauliY, rows_mul, one_eq_rows]
  | Z => simp [toBlock_pauliZ, rows_mul, one_eq_rows]

/-! ## Words -/

section Words

variable {word other : PauliWord} {factors factors' : List (Fin n × Pauli)}

theorem Spells.applyWord_ofWave (h : Spells word factors) (ψ : Wave n) :
    (ofWave ψ).applyWord word = .ok (ofWave (onWires pauliBlock factors ψ)) := by
  have hwires : ∀ w ∈ word.wires, w < n := by
    rw [h.wires]
    intro w hw
    obtain ⟨v, -, rfl⟩ := List.mem_map.mp hw
    exact v.isLt
  rw [Proofs.applyWord_ofWave, (stateCheckWires_eq_ok_iff _ _).mpr hwires, ← h.wordAction]
  rfl

/-- The gates of the factors, in any order, act as the word does. -/
theorem Spells.acts_operations (h : Spells word factors) {ops : List (Operation ℝ)}
    (hops : ops.Perm word.operations) : Acts ops (onWires pauliBlock factors) := by
  have hgates : (word.operations : List (Operation ℝ)) =
      factors.map fun f => ⟨f.2.gate.spec, [], [f.1.val]⟩ := by
    unfold PauliWord.operations
    rw [h, List.map_map]
    rfl
  rw [hgates] at hops
  obtain ⟨arranged, rfl, hperm⟩ :=
    (congrFun₂ (List.eq_map_comp_perm fun f : Fin n × Pauli =>
      (⟨f.2.gate.spec, [], [f.1.val]⟩ : Operation ℝ)) ops factors).mpr hops
  rw [onWires_perm hperm.symm h.nodup]
  exact acts_factors arranged

theorem Spells.involutive (h : Spells word factors) (ψ : Wave n) :
    onWires pauliBlock factors (onWires pauliBlock factors ψ) = ψ := by
  rw [onWires_onWires h.nodup, onWires_congr (V := fun _ => 1) fun f _ => pauliBlock_sq f.2,
    onWires_one]

theorem lookup_of_mem {fs : List PauliFactor} (h : (fs.map Prod.fst).Nodup) {w : ℕ} {p : Pauli}
    (hf : (w, p) ∈ fs) : fs.lookup w = some p := by
  obtain ⟨front, back, rfl⟩ := List.append_of_mem hf
  refine List.lookup_eq_some_iff.mpr ⟨front, back, rfl, fun g hg => ?_⟩
  rw [List.map_append, List.map_cons] at h
  have hne : g.1 ≠ w := fun heq =>
    List.disjoint_of_nodup_append h (List.mem_map_of_mem hg) (heq ▸ List.mem_cons_self)
  simpa using hne.symm

/-- Words commute by acting alike on each wire that they share. -/
theorem eq_of_commutes (hcomm : word.commutes other) (hword : Spells word factors)
    (hother : Spells other factors') {f g : Fin n × Pauli} (hf : f ∈ factors) (hg : g ∈ factors')
    (hwire : f.1 = g.1) : f.2 = g.2 := by
  have hnodup : (other.factors.map Prod.fst).Nodup := by
    rw [hother, List.map_map]
    have hmap := hother.nodup.map Fin.val_injective
    rwa [List.map_map] at hmap
  have hmem : (f.1.val, f.2) ∈ word.factors := hword ▸ List.mem_map_of_mem hf
  have hmem' : (f.1.val, g.2) ∈ other.factors := by
    rw [hwire, hother]
    exact List.mem_map_of_mem hg
  have hall := List.all_eq_true.mp hcomm _ hmem
  simp only [lookup_of_mem hnodup hmem', Option.all_some, beq_iff_eq] at hall
  exact hall.symm

theorem onWires_swap (hcomm : word.commutes other) (hword : Spells word factors)
    (hother : Spells other factors') (ψ : Wave n) :
    onWires pauliBlock factors (onWires pauliBlock factors' ψ) =
      onWires pauliBlock factors' (onWires pauliBlock factors ψ) := by
  have hall : Commute (onWires pauliBlock factors) (onWires pauliBlock factors') := by
    refine commute_onWires fun g hg => (commute_onWires fun f hf => ?_).symm
    by_cases hwire : f.1 = g.1
    · have hfg : f = g := Prod.ext hwire (eq_of_commutes hcomm hword hother hf hg hwire)
      rw [hfg]
    · exact LinearMap.ext fun φ => onWire_comm (Ne.symm hwire) _ _ φ
  exact LinearMap.congr_fun hall.eq ψ

end Words

/-- In exact arithmetic, applying a word to a state is applying the standard
    operations of its factors in any order.  Twice the same word gives the state
    back, and two words that act alike on the wires they share can be exchanged. -/
theorem applyWord_eq_operations (s : StateVector ℝ) (word : PauliWord)
    (hwires : ∀ w ∈ word.wires, w < s.wires) :
    (∃ s', s.applyWord word = .ok s' ∧ s'.applyWord word = .ok s ∧
      ∀ ops, ops.Perm word.operations → s.applyAll ops = .ok s') ∧
    ∀ other : PauliWord, (∀ w ∈ other.wires, w < s.wires) → word.commutes other →
      ∃ s', (s.applyWord word >>= fun t => t.applyWord other) = .ok s' ∧
        (s.applyWord other >>= fun t => t.applyWord word) = .ok s' := by
  obtain ⟨n, ψ, rfl⟩ := eq_ofWave s
  obtain ⟨factors, hword⟩ : ∃ factors : List (Fin n × Pauli), Spells word factors :=
    exists_spells hwires
  constructor
  · refine ⟨_, hword.applyWord_ofWave ψ, ?_, fun ops hops => hword.acts_operations hops ψ⟩
    rw [hword.applyWord_ofWave, hword.involutive]
  · intro other hothers hcomm
    obtain ⟨factors', hother⟩ : ∃ factors' : List (Fin n × Pauli), Spells other factors' :=
      exists_spells hothers
    refine ⟨ofWave (onWires pauliBlock factors' (onWires pauliBlock factors ψ)), ?_, ?_⟩
    · rw [hword.applyWord_ofWave, ok_bind, hother.applyWord_ofWave]
    · rw [hother.applyWord_ofWave, ok_bind, hword.applyWord_ofWave,
        onWires_swap hcomm hword hother]

/-- Operators on the first and the last of three wires. -/
def outerWord : PauliWord := ⟨[(0, .X), (2, .Y)], by decide, by decide⟩

/-- Operators on the first two wires, the first as before. -/
def frontWord : PauliWord := ⟨[(0, .X), (1, .Z)], by decide, by decide⟩

/-- The gates of a word with the last factor first, and two words that share an
    operator. -/
theorem applyWord_eq_operations_outer :
    (∃ s', (ofWave (firstWave 3)).applyWord outerWord = .ok s' ∧
      s'.applyWord outerWord = .ok (ofWave (firstWave 3)) ∧
      (ofWave (firstWave 3)).applyAll [⟨StandardGate.pauliY.spec, [], [2]⟩,
        ⟨StandardGate.pauliX.spec, [], [0]⟩] = .ok s') ∧
    ∃ s', ((ofWave (firstWave 3)).applyWord outerWord >>= fun t => t.applyWord frontWord) =
        .ok s' ∧
      ((ofWave (firstWave 3)).applyWord frontWord >>= fun t => t.applyWord outerWord) = .ok s' := by
  have houter : ∀ w ∈ outerWord.wires, w < 3 := by decide
  have hfront : ∀ w ∈ frontWord.wires, w < 3 := by decide
  obtain ⟨⟨s', happly, hback, hops⟩, hexchange⟩ :=
    applyWord_eq_operations (ofWave (firstWave 3)) outerWord houter
  have hreversed : s'.applyWord outerWord = .ok (ofWave (firstWave 3)) ∧
      (ofWave (firstWave 3)).applyAll [⟨StandardGate.pauliY.spec, [], [2]⟩,
        ⟨StandardGate.pauliX.spec, [], [0]⟩] = .ok s' := ⟨hback, hops _ (.swap _ _ [])⟩
  exact ⟨⟨s', happly, hreversed⟩, hexchange frontWord hfront (by decide)⟩

end Proofs

end CircuitGrad
