import Mathlib
import CircuitGrad.Proofs.Isometry
import CircuitGrad.Proofs.WaveLength

/-! # Turning into the eigenbasis of a word

    A Pauli word is sampled by turning its eigenbasis into the computational
    one: gates act on each of its wires, the wires are measured, and an outcome
    counts with the sign of its parity.  It is evaluated exactly by flipping
    bits and turning phases.  Both are the same number for every state, also
    one that is not normalised (`expectation_eq_signed_sum`).

    On one wire, turning and then applying `Z` is applying the operator and
    then turning (`turn_mul_pauli`).  Matrices on different wires commute, so
    the same holds for the whole word (`turn_word`), and as turning keeps
    inner products, the mean of the word is that of the signs of the turned
    wave.
-/

namespace CircuitGrad

namespace Proofs

open Gate.Matrix

variable {n : ℕ}

/-! ## Matrices on several wires -/

/-- One matrix for each of some factors, applied in turn. -/
noncomputable def onWires (U : Pauli → Block) (factors : List (Fin n × Pauli)) :
    Module.End ℂ (Wave n) :=
  factors.foldr (fun f L => L * onWire f.1 fun _ => U f.2) 1

section Wires

variable {U V : Pauli → Block} {factors : List (Fin n × Pauli)}

/-- Matrices on different wires commute. -/
theorem onWire_comm {v w : Fin n} (h : v ≠ w) (A B : Block) (ψ : Wave n) :
    onWire v (fun _ => A) (onWire w (fun _ => B) ψ) =
      onWire w (fun _ => B) (onWire v (fun _ => A) ψ) := by
  funext x
  simp only [onWire_apply, Function.update_of_ne h, Function.update_of_ne h.symm,
    Function.update_comm h]
  ring

theorem onWires_comm {w : Fin n} (h : w ∉ factors.map Prod.fst) (A : Block) (ψ : Wave n) :
    onWires U factors (onWire w (fun _ => A) ψ) =
      onWire w (fun _ => A) (onWires U factors ψ) := by
  induction factors generalizing ψ with
  | nil => rfl
  | cons f rest ih =>
    rw [List.map_cons, List.mem_cons, not_or] at h
    obtain ⟨hne, hrest⟩ := h
    show onWires U rest (onWire f.1 (fun _ => U f.2) (onWire w (fun _ => A) ψ)) = _
    rw [onWire_comm (Ne.symm hne), ih hrest]
    rfl

/-- On different wires, matrices multiply wire by wire. -/
theorem onWires_onWires (h : (factors.map Prod.fst).Nodup) (ψ : Wave n) :
    onWires U factors (onWires V factors ψ) = onWires (fun p => U p * V p) factors ψ := by
  induction factors generalizing ψ with
  | nil => rfl
  | cons f rest ih =>
    rw [List.map_cons, List.nodup_cons] at h
    obtain ⟨hfirst, hrest⟩ := h
    show onWires U rest (onWire f.1 (fun _ => U f.2)
      (onWires V rest (onWire f.1 (fun _ => V f.2) ψ))) = _
    rw [← onWires_comm hfirst, ih hrest, onWire_onWire (blind_const _ _)]
    rfl

theorem onWires_congr (h : ∀ f ∈ factors, U f.2 = V f.2) (ψ : Wave n) :
    onWires U factors ψ = onWires V factors ψ := by
  induction factors generalizing ψ with
  | nil => rfl
  | cons f rest ih =>
    obtain ⟨hfirst, hrest⟩ := List.forall_mem_cons.mp h
    show onWires U rest (onWire f.1 (fun _ => U f.2) ψ) =
      onWires V rest (onWire f.1 (fun _ => V f.2) ψ)
    rw [hfirst, ih hrest]

theorem weight_onWires (h : ∀ p, UnitaryBlock (U p)) (ψ : Wave n) :
    weight (onWires U factors ψ) = weight ψ := by
  induction factors generalizing ψ with
  | nil => rfl
  | cons f rest ih => exact (ih _).trans (weight_onWire (blind_const _ _) (fun _ => h f.2) ψ)

end Wires

/-! ## One wire -/

/-- The matrix of a Pauli operator. -/
noncomputable def pauliBlock : Pauli → Block
  | .I => 1
  | .X => toBlock pauliX
  | .Y => toBlock pauliY
  | .Z => toBlock pauliZ

/-- What the diagonalizing gates of an operator do to its wire. -/
noncomputable def turnBlock : Pauli → Block
  | .I | .Z => 1
  | .X => toBlock hadamard
  | .Y => toBlock hadamard * toBlock Gate.Matrix.s * toBlock pauliZ

/-- Turning takes an operator to `Z`. -/
theorem turn_mul_pauli {p : Pauli} (h : p ≠ .I) :
    turnBlock p * pauliBlock p = toBlock pauliZ * turnBlock p := by
  cases p with
  | I => exact absurd rfl h
  | X =>
    unfold turnBlock pauliBlock
    rw [toBlock_hadamard, toBlock_pauliX, toBlock_pauliZ, rows_mul, rows_mul]
    congr 1 <;> ring
  | Y =>
    unfold turnBlock pauliBlock
    rw [toBlock_hadamard, toBlock_s, toBlock_pauliZ, toBlock_pauliY]
    simp only [rows_mul]
    congr 1
    · linear_combination (-root) * Complex.I_sq
    · ring
    · linear_combination root * Complex.I_sq
    · ring
  | Z =>
    unfold turnBlock pauliBlock
    rw [one_mul, mul_one]

theorem unitary_turnBlock (p : Pauli) : UnitaryBlock (turnBlock p) := by
  cases p with
  | I | Z => exact one_mem _
  | X => exact unitary_hadamard
  | Y =>
    have hS : UnitaryBlock (toBlock Gate.Matrix.s) := unitary_target .s []
    have hZ : UnitaryBlock (toBlock pauliZ) := unitary_target .pauliZ []
    exact mul_mem (mul_mem unitary_hadamard hS) hZ

/-- A standard gate on one wire, without parameters. -/
theorem acts_gate {g : StandardGate} (hparams : g.paramCount = 0) (hwires : g.wireCount = 1)
    (w : Fin n) : Acts [⟨g.spec, [], [w.val]⟩] (onWire w fun _ => toBlock (g.target [])) :=
  Acts.single (show Places ⟨g.spec, [], [w.val]⟩ g [w] from
    ⟨rfl, rfl, hparams.symm, hwires.symm, List.nodup_singleton w⟩)

/-- The diagonalizing gates of an operator turn its wire. -/
theorem acts_turn (p : Pauli) (w : Fin n) :
    Acts (p.diagonalizingGates w.val) (onWire w fun _ => turnBlock p) := by
  have hnothing : Acts [] (onWire w fun _ => 1) := fun ψ => by
    rw [onWire_one]
    rfl
  cases p with
  | I | Z => exact hnothing
  | X => exact acts_gate (show StandardGate.hadamard.paramCount = 0 from rfl) rfl w
  | Y =>
    have hmaps : ((onWire w fun _ => toBlock hadamard) ∘ₗ
        onWire w fun _ => toBlock Gate.Matrix.s) ∘ₗ (onWire w fun _ => toBlock pauliZ) =
          onWire w fun _ => turnBlock .Y := by
      refine LinearMap.ext fun ψ => ?_
      rw [LinearMap.comp_apply, LinearMap.comp_apply, onWire_onWire (blind_const _ _),
        onWire_onWire (blind_const _ _)]
      rfl
    rw [← hmaps]
    have hflip := acts_gate (show StandardGate.pauliZ.paramCount = 0 from rfl) rfl w
    have hquarter := acts_gate (show StandardGate.s.paramCount = 0 from rfl) rfl w
    have hmix := acts_gate (show StandardGate.hadamard.paramCount = 0 from rfl) rfl w
    exact hflip.append (hquarter.append hmix)

/-- Those of a word turn its wires. -/
theorem acts_turns (factors : List (Fin n × Pauli)) :
    Acts (factors.flatMap fun f => f.2.diagonalizingGates f.1.val) (onWires turnBlock factors) := by
  induction factors with
  | nil => exact .nil
  | cons f rest ih => exact (acts_turn f.2 f.1).append ih

/-! ## Words -/

/-- The operator flips the bit of its wire. -/
def Pauli.flipsBit : Pauli → Bool
  | .X | .Y => true
  | _ => false

/-- The factor that an operator brings to the bit of its wire. -/
noncomputable def pauliFactor : Pauli → Bool → ℂ
  | .Y, true => -Complex.I
  | .Y, false => Complex.I
  | .Z, true => -1
  | _, _ => 1

/-- The basis state with the bit of a factor flipped if its operator does. -/
def flipFactor (f : Fin n × Pauli) (x : Bits n) : Bits n :=
  Function.update x f.1 (x f.1 ^^ Pauli.flipsBit f.2)

/-- An operator on one wire reads one other amplitude, and brings its factor. -/
theorem onWire_pauli (f : Fin n × Pauli) (ψ : Wave n) (x : Bits n) :
    onWire f.1 (fun _ => pauliBlock f.2) ψ x =
      pauliFactor f.2 (flipFactor f x f.1) * ψ (flipFactor f x) := by
  obtain ⟨w, p⟩ := f
  have hself : Function.update x w (x w) = x := Function.update_eq_self w x
  rw [onWire_apply]
  unfold flipFactor
  rw [Function.update_self]
  cases p <;> cases hx : x w <;> rw [hx] at hself <;>
    simp [pauliBlock, pauliFactor, Pauli.flipsBit, toBlock_pauliX, toBlock_pauliY, toBlock_pauliZ,
      rows, hself]

/-- The basis state with the bits of all factors flipped. -/
def flipFactors (factors : List (Fin n × Pauli)) (x : Bits n) : Bits n :=
  factors.foldr flipFactor x

/-- The product of the factors that the operators bring. -/
noncomputable def factorPhase (factors : List (Fin n × Pauli)) (x : Bits n) : ℂ :=
  (factors.map fun f => pauliFactor f.2 (x f.1)).prod

theorem factorPhase_flipFactor {factors : List (Fin n × Pauli)} {f : Fin n × Pauli}
    (h : f.1 ∉ factors.map Prod.fst) (x : Bits n) :
    factorPhase factors (flipFactor f x) = factorPhase factors x := by
  unfold factorPhase flipFactor
  congr 1
  refine List.map_congr_left fun g hg => ?_
  have hne : g.1 ≠ f.1 := fun heq => h (heq ▸ List.mem_map_of_mem hg)
  rw [Function.update_of_ne hne]

theorem onWires_pauli {factors : List (Fin n × Pauli)} (h : (factors.map Prod.fst).Nodup)
    (ψ : Wave n) (x : Bits n) :
    onWires pauliBlock factors ψ x =
      factorPhase factors (flipFactors factors x) * ψ (flipFactors factors x) := by
  induction factors generalizing ψ with
  | nil => exact (one_mul _).symm
  | cons f rest ih =>
    rw [List.map_cons, List.nodup_cons] at h
    obtain ⟨hfirst, hrest⟩ := h
    have hflip : flipFactors (f :: rest) x = flipFactor f (flipFactors rest x) := rfl
    have hphase (y : Bits n) :
        factorPhase (f :: rest) y = pauliFactor f.2 (y f.1) * factorPhase rest y := rfl
    show onWires pauliBlock rest (onWire f.1 (fun _ => pauliBlock f.2) ψ) x = _
    rw [ih hrest, onWire_pauli, hflip, hphase, factorPhase_flipFactor hfirst]
    ring

/-- The word has these factors. -/
def Spells (word : PauliWord) (factors : List (Fin n × Pauli)) : Prop :=
  word.factors = factors.map fun f => (f.1.val, f.2)

theorem exists_spells {word : PauliWord} (h : ∀ w ∈ word.wires, w < n) :
    ∃ factors : List (Fin n × Pauli), Spells word factors := by
  have hfactors : ∀ f ∈ word.factors, f.1 < n := fun f hf => h f.1 (List.mem_map_of_mem hf)
  refine ⟨word.factors.pmap (fun f hf => (⟨f.1, hf⟩, f.2)) hfactors, ?_⟩
  unfold Spells
  simp [List.map_pmap]

section Spelled

variable {word : PauliWord} {factors : List (Fin n × Pauli)}

theorem Spells.wires (h : Spells word factors) :
    word.wires = (factors.map Prod.fst).map (·.val) := by
  unfold PauliWord.wires
  rw [h, List.map_map, List.map_map]
  rfl

theorem Spells.nodup (h : Spells word factors) : (factors.map Prod.fst).Nodup := by
  have hsorted : word.wires.Nodup :=
    List.pairwise_map.mpr (word.sorted.imp fun hlt => Nat.ne_of_lt hlt)
  rw [h.wires] at hsorted
  exact hsorted.of_map _

theorem Spells.proper (h : Spells word factors) : ∀ f ∈ factors, f.2 ≠ .I := by
  intro f hf
  have hmem : (f.1.val, f.2) ∈ word.factors := h ▸ List.mem_map_of_mem hf
  exact word.proper _ hmem

theorem Spells.acts_turns (h : Spells word factors) :
    Acts word.diagonalizingGates (onWires turnBlock factors) := by
  have hgates : (word.diagonalizingGates : List (Operation ℝ)) =
      factors.flatMap fun f => f.2.diagonalizingGates f.1.val := by
    unfold PauliWord.diagonalizingGates
    rw [h, List.flatMap_map]
  rw [hgates]
  exact Proofs.acts_turns factors

theorem toComplex_pauliPhase (x : Bits n) (a : Amplitude ℝ) (f : Fin n × Pauli) :
    toComplex (StateVector.pauliPhase n (index x) a (f.1.val, f.2)) =
      toComplex a * pauliFactor f.2 (x f.1) := by
  obtain ⟨w, p⟩ := f
  unfold StateVector.pauliPhase
  simp only [bit_index]
  cases p <;> cases x w <;> simp [pauliFactor, toComplex_mk]

theorem Spells.wordPhase (h : Spells word factors) (x : Bits n) :
    wordPhase word x = factorPhase factors x := by
  have hfold (fs : List (Fin n × Pauli)) (a : Amplitude ℝ) :
      toComplex (fs.foldl (fun a f => StateVector.pauliPhase n (index x) a (f.1.val, f.2)) a) =
        toComplex a * factorPhase fs x := by
    induction fs generalizing a with
    | nil => exact (mul_one _).symm
    | cons f fs ih =>
      rw [List.foldl_cons, ih, toComplex_pauliPhase, mul_assoc]
      rfl
  unfold Proofs.wordPhase
  rw [h, List.foldl_map, hfold, toComplex_one, one_mul]

theorem flipFactors_apply (h : (factors.map Prod.fst).Nodup) (x : Bits n) (w : Fin n) :
    flipFactors factors x w = (x w ^^ factors.any fun f => f.1 = w && Pauli.flipsBit f.2) := by
  induction factors with
  | nil => exact (Bool.xor_false _).symm
  | cons f rest ih =>
    rw [List.map_cons, List.nodup_cons] at h
    obtain ⟨hfirst, hrest⟩ := h
    show flipFactor f (flipFactors rest x) w = _
    unfold flipFactor
    rw [List.any_cons]
    by_cases hw : f.1 = w
    · subst hw
      -- no later factor is on this wire
      have hnone : (rest.any fun g => g.1 = f.1 && Pauli.flipsBit g.2) = false := by
        rw [List.any_eq_false]
        intro g hg
        have hne : g.1 ≠ f.1 := fun heq => hfirst (heq ▸ List.mem_map_of_mem hg)
        simp [hne]
      rw [Function.update_self, ih hrest, hnone]
      simp
    · rw [Function.update_of_ne (Ne.symm hw), ih hrest]
      simp [hw]

theorem bit_flips (factors : List (Fin n × Pauli)) (acc : ℕ) (w : Fin n) :
    Basis.bit n (factors.foldl (fun acc f => match f.2 with
      | .X | .Y => acc ||| Basis.unit n f.1.val
      | _ => acc) acc) w =
        (Basis.bit n acc w || factors.any fun f => f.1 = w && Pauli.flipsBit f.2) := by
  induction factors generalizing acc with
  | nil => exact (Bool.or_false _).symm
  | cons f rest ih =>
    obtain ⟨v, p⟩ := f
    rw [List.foldl_cons, ih, List.any_cons, ← Bool.or_assoc]
    congr 1
    cases p <;> simp [Pauli.flipsBit, bit_or, bit_unit, eq_comm]

/-- The bits that a word flips are those of its flipping factors. -/
theorem Spells.flipped (h : Spells word factors) (x : Bits n) :
    flipped word x = flipFactors factors x := by
  funext w
  rw [flipFactors_apply h.nodup]
  unfold Proofs.flipped StateVector.flips
  rw [h, List.foldl_map]
  have hbit := bit_flips factors 0 w
  rw [bit_zero, Bool.false_or] at hbit
  exact congrArg (x w ^^ ·) hbit

/-- A word acts by the matrices of its operators. -/
theorem Spells.wordAction (h : Spells word factors) (ψ : Wave n) :
    wordAction word ψ = onWires pauliBlock factors ψ := by
  funext x
  rw [wordAction_apply, onWires_pauli h.nodup, h.flipped, h.wordPhase]

/-- Turning takes a word to the product of `Z` over its wires. -/
theorem turn_word (h : Spells word factors) (ψ : Wave n) :
    onWires turnBlock factors (Proofs.wordAction word ψ) =
      onWires (fun _ => toBlock pauliZ) factors (onWires turnBlock factors ψ) := by
  rw [h.wordAction, onWires_onWires h.nodup, onWires_onWires h.nodup]
  exact onWires_congr (fun f hf => turn_mul_pauli (h.proper f hf)) ψ

end Spelled

/-! ## Signs -/

/-- The sign of a basis state on some wires: one factor of minus one for each
    bit that is set. -/
def signOn (ws : List (Fin n)) (x : Bits n) : ℝ :=
  (ws.map fun w => if x w then (-1 : ℝ) else 1).prod

theorem onWires_pauliZ (factors : List (Fin n × Pauli)) (ψ : Wave n) (x : Bits n) :
    onWires (fun _ => toBlock pauliZ) factors ψ x = signOn (factors.map Prod.fst) x * ψ x := by
  induction factors generalizing ψ with
  | nil => simp [onWires, signOn]
  | cons f rest ih =>
    have hsign : signOn ((f :: rest).map Prod.fst) x =
        (if x f.1 then (-1 : ℝ) else 1) * signOn (rest.map Prod.fst) x := rfl
    have hself : Function.update x f.1 (x f.1) = x := Function.update_eq_self f.1 x
    show onWires (fun _ => toBlock pauliZ) rest (onWire f.1 (fun _ => toBlock pauliZ) ψ) x = _
    rw [ih, onWire_apply, toBlock_pauliZ, hsign]
    cases hx : x f.1 <;> rw [hx] at hself <;> simp [rows, hself]

/-- The mean of the product of `Z` is the sum of the signs, weighted. -/
theorem re_braket_pauliZ (factors : List (Fin n × Pauli)) (ψ : Wave n) :
    (braket ψ (onWires (fun _ => toBlock pauliZ) factors ψ)).re =
      ∑ x, signOn (factors.map Prod.fst) x * Complex.normSq (ψ x) := by
  unfold braket
  rw [Complex.re_sum]
  refine Finset.sum_congr rfl fun x _ => ?_
  rw [onWires_pauliZ, mul_left_comm, mul_comm _ (ψ x), Complex.mul_conj, ← Complex.ofReal_mul,
    Complex.ofReal_re]

theorem foldl_xor {ι : Type} (g : ι → Bool) (c d : Bool) (items : List ι) :
    items.foldl (fun e i => e ^^ g i) (c ^^ d) = (items.foldl (fun e i => e ^^ g i) c ^^ d) := by
  induction items generalizing c with
  | nil => rfl
  | cons i items ih =>
    rw [List.foldl_cons, List.foldl_cons, ← ih]
    congr 1
    rw [Bool.xor_assoc, Bool.xor_assoc, Bool.xor_comm d]

/-- The lowest bit counts, and then the others. -/
theorem evenOnes_succ (k j : ℕ) :
    Simulation.evenOnes (k + 1) j = (Simulation.evenOnes k (j / 2) ^^ j.testBit 0) := by
  unfold Simulation.evenOnes
  rw [List.range_succ_eq_map, List.foldl_cons, List.foldl_map, foldl_xor]
  simp only [Nat.succ_eq_add_one, Nat.testBit_add_one]

/-- The parity that is computed bit by bit is that of the number of ones. -/
theorem evenOnes_eq {k j : ℕ} (h : j < 2 ^ k) :
    Simulation.evenOnes k j = decide (Even (Nat.digits 2 j).sum) := by
  induction k generalizing j with
  | zero =>
    obtain rfl : j = 0 := by simpa using h
    rfl
  | succ k ih =>
    have hdigits : (Nat.digits 2 j).sum = j % 2 + (Nat.digits 2 (j / 2)).sum := by
      rcases Nat.eq_zero_or_pos j with rfl | hpos
      · rfl
      · rw [Nat.digits_def' one_lt_two hpos, List.sum_cons]
    have hhalf : j / 2 < 2 ^ k := by
      rw [pow_succ] at h
      omega
    rw [evenOnes_succ, ih hhalf, hdigits, Nat.testBit_zero]
    rcases Nat.mod_two_eq_zero_or_one j with hj | hj <;> rw [hj]
    · simp
    · simp [Nat.even_add_one, add_comm 1, -Nat.not_even_iff_odd]

/-- The sign of a basis state is the parity of what its wires spell. -/
theorem signOn_eq (ws : List (Fin n)) (x : Bits n) :
    signOn ws x = if Simulation.evenOnes ws.length (spell ws x) then 1 else -1 := by
  induction ws using List.reverseRecOn with
  | nil => rfl
  | append_singleton ws w ih =>
    have hspell : spell (ws ++ [w]) x = 2 * spell ws x + (x w).toNat := List.foldl_append
    have hsign : signOn (ws ++ [w]) x = signOn ws x * if x w then (-1 : ℝ) else 1 := by
      unfold signOn
      rw [List.map_append, List.prod_append, List.map_singleton, List.prod_singleton]
    have hhalf : spell (ws ++ [w]) x / 2 = spell ws x := by
      have := Bool.toNat_lt (x w)
      omega
    have hlow : (spell (ws ++ [w]) x).testBit 0 = x w := by
      rw [hspell, Nat.testBit_zero]
      cases x w <;> simp
    rw [List.length_append, List.length_singleton, evenOnes_succ, hhalf, hlow, hsign, ih]
    cases x w <;> cases Simulation.evenOnes ws.length (spell ws x) <;> simp

/-! ## Sampling and evaluating -/

/-- The sign of an outcome: plus for an even number of ones. -/
noncomputable def outcomeSign (j : ℕ) : ℝ := if Even (Nat.digits 2 j).sum then 1 else -1

/-- The mean of a word is the signed sum of the chances of the turned wave. -/
theorem re_braket_word {word : PauliWord} {factors : List (Fin n × Pauli)}
    (h : Spells word factors) (ψ : Wave n) :
    (braket ψ (wordAction word ψ)).re = ∑ j ∈ Finset.range (2 ^ word.wires.length),
      outcomeSign j * chance word.wires j (onWires turnBlock factors ψ) := by
  have hsign (x : Bits n) : signOn (factors.map Prod.fst) x =
      outcomeSign (Basis.restrict n word.wires (index x)) := by
    have hlt := restrict_lt n word.wires (index x)
    unfold outcomeSign
    rw [h.wires, restrict_index] at hlt ⊢
    rw [List.length_map] at hlt
    rw [signOn_eq, evenOnes_eq hlt]
    simp only [decide_eq_true_eq]
  calc (braket ψ (wordAction word ψ)).re
      = (braket (onWires turnBlock factors ψ)
          (onWires turnBlock factors (wordAction word ψ))).re :=
        (re_braket_of_weight (weight_onWires unitary_turnBlock) _ _).symm
    _ = (braket (onWires turnBlock factors ψ)
          (onWires (fun _ => toBlock pauliZ) factors (onWires turnBlock factors ψ))).re := by
        rw [turn_word h]
    _ = ∑ x, outcomeSign (Basis.restrict n word.wires (index x)) *
          Complex.normSq (onWires turnBlock factors ψ x) := by
        rw [re_braket_pauliZ]
        exact Finset.sum_congr rfl fun x _ => by rw [hsign]
    _ = _ := (sum_chance _ _ _).symm

theorem wordExpectation_ofWave (word : PauliWord) (ψ : Wave n) :
    (ofWave ψ).wordExpectation word = ((ofWave (0 : Wave n)).checkWires word.wires).map fun _ =>
      (braket ψ (wordAction word ψ)).re := by
  unfold StateVector.wordExpectation
  rw [applyWord_ofWave]
  cases (ofWave (0 : Wave n)).checkWires word.wires with
  | error e => rfl
  | ok _ => exact congrArg (fun z => Except.ok z.re) (inner_ofWave ψ _)

/-- For every state, also one that is not normalised, and every word on its
    wires: the weights that the word is sampled from add up to the squared
    length, and their sum with the signs that are sampled, plus for an even
    number of ones and minus for an odd one, is the mean of the word. -/
theorem expectation_eq_signed_sum (s : StateVector ℝ) (word : PauliWord)
    (h : ∀ w ∈ word.wires, w < s.wires) :
    ∃ (rotated : StateVector ℝ) (weights : Array ℝ),
      s.applyAll word.diagonalizingGates = .ok rotated ∧
      rotated.marginal word.wires = .ok weights ∧
      weights.size = 2 ^ word.wires.length ∧
      s.wordExpectation word = .ok (∑ j ∈ Finset.range weights.size,
        outcomeSign j * weights.getD j 0) ∧
      Scalar.sum weights.toList = Scalar.sum s.probabilities.toList ∧
      (∀ (ρ : Type) (sampler : Sampler ℝ ρ) (shots : ℕ),
        Simulation.sampleWord sampler s word shots = do
          let drawn ← sampler.draw weights.toList shots
          return drawn.map fun j =>
            if Simulation.evenOnes word.wires.length j then 1 else -1) ∧
      ∀ j < weights.size,
        (if Simulation.evenOnes word.wires.length j then 1 else -1) = outcomeSign j := by
  obtain ⟨n, ψ, rfl⟩ := eq_ofWave s
  rw [wires_ofWave] at h
  obtain ⟨factors, hspells⟩ := exists_spells h
  have hcheck : (ofWave (0 : Wave n)).checkWires word.wires = .ok () :=
    (stateCheckWires_eq_ok_iff 0 _).mpr h
  have hrotated := hspells.acts_turns ψ
  have hmarginal : (ofWave (onWires turnBlock factors ψ)).marginal word.wires =
      .ok (Array.ofFn fun j : Fin (2 ^ word.wires.length) =>
        chance word.wires j (onWires turnBlock factors ψ)) := by
    rw [marginal_ofWave, hcheck]
    rfl
  refine ⟨_, _, hrotated, hmarginal, Array.size_ofFn, ?_, ?_, fun ρ sampler shots => ?_,
    fun j hj => ?_⟩
  · rw [wordExpectation_ofWave, hcheck, re_braket_word hspells, Array.size_ofFn]
    refine congrArg Except.ok (Finset.sum_congr rfl fun j hj => ?_)
    have hlt := Finset.mem_range.mp hj
    simp [hlt]
  · have hlength : weight (onWires turnBlock factors ψ) = weight ψ :=
      weight_onWires unitary_turnBlock ψ
    rw [probabilities_ofWave, sum_chances, hlength]
  · have hweights : (do (← (ofWave ψ).applyAll word.diagonalizingGates).marginal word.wires) =
        .ok (Array.ofFn fun j : Fin (2 ^ word.wires.length) =>
          chance word.wires j (onWires turnBlock factors ψ)) := by
      rw [hrotated]
      exact hmarginal
    unfold Simulation.sampleWord
    rw [hweights]
    rfl
  · rw [Array.size_ofFn] at hj
    unfold outcomeSign
    rw [evenOnes_eq hj]
    simp only [decide_eq_true_eq]

/-- Two wires, entangled and not normalised, with amplitudes that are not real. -/
noncomputable def skewed : StateVector ℝ := .ofFn 2 fun i => ⟨i, 1⟩

/-- The mean of `Y` on the second wire is the difference of two weights. -/
theorem expectation_eq_signed_sum_skewed :
    (∀ w ∈ (PauliWord.single 1 .Y).wires, w < skewed.wires) ∧
    ∃ (rotated : StateVector ℝ) (weights : Array ℝ),
      skewed.applyAll (PauliWord.single 1 .Y).diagonalizingGates = .ok rotated ∧
      rotated.marginal [1] = .ok weights ∧
      skewed.wordExpectation (PauliWord.single 1 .Y) =
        .ok (weights.getD 0 0 - weights.getD 1 0) := by
  have hwires : ∀ w ∈ (PauliWord.single 1 .Y).wires, w < skewed.wires := by decide
  obtain ⟨rotated, weights, hrotated, hweights, hsize, hmean, -⟩ :=
    expectation_eq_signed_sum skewed (.single 1 .Y) hwires
  refine ⟨hwires, rotated, weights, hrotated, hweights, ?_⟩
  have htwo : weights.size = 2 := hsize
  rw [hmean, htwo, Finset.sum_range_succ, Finset.sum_range_one]
  simp [outcomeSign, sub_eq_add_neg]

end Proofs

end CircuitGrad
