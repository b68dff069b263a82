import Mathlib
import CircuitGrad.StateVector

/-! # Basis states as bit strings

    A basis state of an `n`-wire register is a function that gives each wire
    its bit.  State vectors number the basis states; here the numbering and
    the bit operations on numbers are translated once, so that nothing else
    has to speak of them: a number spells its bits (`bit_index`), and the
    index that an offset leads to is the one of the bit string with some wires
    overwritten (`or_spread_eq`).  Overwriting wires and reading what they
    spell undo each other (`overwrite_spell`, `spell_overwrite`).
-/

namespace CircuitGrad

namespace Proofs

/-- A basis state: one bit for each wire. -/
abbrev Bits (n : ℕ) := Fin n → Bool

variable {n : ℕ}

/-- Position of a basis state in a state vector. -/
def index (x : Bits n) : ℕ := Nat.ofBits (x ∘ Fin.rev)

/-- The basis state at a position. -/
def bits (n i : ℕ) : Bits n := fun w => Basis.bit n i w

theorem index_lt (x : Bits n) : index x < 2 ^ n := Nat.ofBits_lt_two_pow _

@[simp] theorem bit_index (x : Bits n) (w : Fin n) : Basis.bit n (index x) w = x w := by
  have hw : n - 1 - (w : ℕ) < n := by omega
  unfold Basis.bit index
  rw [Nat.testBit_ofBits_lt _ _ hw]
  have hrev : Fin.rev ⟨n - 1 - (w : ℕ), hw⟩ = w := by
    apply Fin.ext
    rw [Fin.val_rev]
    show n - (n - 1 - (w : ℕ) + 1) = w
    omega
  rw [Function.comp_apply, hrev]

/-- Two positions of a register are equal when all their bits are. -/
theorem eq_of_bit_eq {i j : ℕ} (hi : i < 2 ^ n) (hj : j < 2 ^ n)
    (h : ∀ w : Fin n, Basis.bit n i w = Basis.bit n j w) : i = j := by
  apply Nat.eq_of_testBit_eq
  intro k
  by_cases hk : k < n
  -- Wires are numbered from the most significant bit.
  · have hbit := h ⟨n - 1 - k, by omega⟩
    unfold Basis.bit at hbit
    have hpos : n - 1 - (n - 1 - k) = k := by omega
    rw [hpos] at hbit
    exact hbit
  · have hpow : 2 ^ n ≤ 2 ^ k := Nat.pow_le_pow_right (by omega) (by omega)
    rw [Nat.testBit_lt_two_pow (by omega), Nat.testBit_lt_two_pow (by omega)]

theorem bits_index (x : Bits n) : bits n (index x) = x := funext (bit_index x)

theorem index_bits {i : ℕ} (hi : i < 2 ^ n) : index (bits n i) = i :=
  eq_of_bit_eq (index_lt _) hi fun w => bit_index _ w

theorem index_injective : Function.Injective (index (n := n)) := fun x y h => by
  rw [← bits_index x, h, bits_index]

/-- Basis states and positions correspond. -/
theorem sum_range_eq_sum_bits {M : Type} [AddCommMonoid M] (f : ℕ → M) :
    ∑ i ∈ Finset.range (2 ^ n), f i = ∑ x : Bits n, f (index x) := by
  refine (Finset.sum_nbij' index (bits n) ?_ ?_ ?_ ?_ ?_).symm
  · exact fun x _ => Finset.mem_range.mpr (index_lt x)
  · exact fun i _ => Finset.mem_univ _
  · exact fun x _ => bits_index x
  · exact fun i hi => index_bits (Finset.mem_range.mp hi)
  · exact fun x _ => rfl

/-- Only the basis state without ones stands at position zero. -/
theorem index_eq_zero_iff (x : Bits n) : index x = 0 ↔ x = fun _ => false := by
  have hzero : index (fun _ => false : Bits n) = 0 := by
    refine eq_of_bit_eq (index_lt _) (Nat.two_pow_pos n) fun w => ?_
    rw [bit_index, Basis.bit, Nat.zero_testBit]
  constructor
  · intro h
    exact index_injective (h.trans hzero.symm)
  · rintro rfl
    exact hzero

/-! ## Rows and columns of a matrix on some wires -/

/-- The number that some wires spell, the first wire most significant. -/
def spell (ws : List (Fin n)) (x : Bits n) : ℕ :=
  ws.foldl (fun acc w => 2 * acc + (x w).toNat) 0

/-- The basis state with some wires overwritten by the bits of a number. -/
def overwrite : List (Fin n) → ℕ → Bits n → Bits n
  | [], _, x => x
  | w :: rest, c, x => Function.update (overwrite rest c x) w (c.testBit rest.length)

theorem restrict_index (ws : List (Fin n)) (x : Bits n) :
    Basis.restrict n (ws.map (·.val)) (index x) = spell ws x := by
  unfold Basis.restrict spell
  rw [List.foldl_map]
  simp only [bit_index]

theorem bit_or (i j : ℕ) (w : Fin n) :
    Basis.bit n (i ||| j) w = (Basis.bit n i w || Basis.bit n j w) := Nat.testBit_or ..

theorem bit_xor (i j : ℕ) (w : Fin n) :
    Basis.bit n (i ^^^ j) w = (Basis.bit n i w ^^ Basis.bit n j w) := Nat.testBit_xor ..

theorem bit_and (i j : ℕ) (w : Fin n) :
    Basis.bit n (i &&& j) w = (Basis.bit n i w && Basis.bit n j w) := Nat.testBit_and ..

theorem bit_zero (w : Fin n) : Basis.bit n 0 w = false := Nat.zero_testBit _

theorem bit_unit (v w : Fin n) : Basis.bit n (Basis.unit n v) w = decide (w = v) := by
  unfold Basis.bit Basis.unit
  rw [Nat.one_shiftLeft, Nat.testBit_two_pow]
  congr 1
  rw [Fin.ext_iff, eq_iff_iff]
  omega

theorem unit_lt (w : Fin n) : Basis.unit n w < 2 ^ n := by
  unfold Basis.unit
  rw [Nat.one_shiftLeft]
  exact Nat.pow_lt_pow_right (by omega) (by omega)

theorem spread_lt (ws : List (Fin n)) (c : ℕ) : Basis.spread n (ws.map (·.val)) c < 2 ^ n := by
  induction ws with
  | nil => exact Nat.two_pow_pos n
  | cons w rest ih =>
    rw [List.map_cons, Basis.spread]
    refine Nat.or_lt_two_pow ?_ ih
    split
    · exact unit_lt w
    · exact Nat.two_pow_pos n

/-- What is spread over some wires is what overwrites them. -/
theorem bit_spread {ws : List (Fin n)} (hws : ws.Nodup) (c : ℕ) (x : Bits n) (v : Fin n) :
    Basis.bit n (Basis.spread n (ws.map (·.val)) c) v =
      (decide (v ∈ ws) && overwrite ws c x v) := by
  induction ws with
  | nil => simp [Basis.spread, bit_zero]
  | cons w rest ih =>
    obtain ⟨hw, hrest⟩ := List.nodup_cons.mp hws
    rw [List.map_cons, Basis.spread, bit_or, ih hrest, overwrite, List.length_map]
    -- The first wire is set by the highest bit, the others by the lower ones.
    by_cases hv : v = w
    · subst hv
      by_cases hc : c.testBit rest.length <;> simp [hw, hc, bit_unit, bit_zero]
    · by_cases hc : c.testBit rest.length <;> simp [hv, hc, bit_unit, bit_zero]

theorem overwrite_of_notMem {ws : List (Fin n)} {v : Fin n} (hv : v ∉ ws) (c : ℕ) (x : Bits n) :
    overwrite ws c x v = x v := by
  induction ws with
  | nil => rfl
  | cons w rest ih =>
    rw [List.mem_cons, not_or] at hv
    obtain ⟨hne, hrest⟩ := hv
    rw [overwrite, Function.update_of_ne hne, ih hrest]

/-- Overwriting by ones alone sets exactly the given wires. -/
theorem overwrite_ones {ws : List (Fin n)} {v : Fin n} (hv : v ∈ ws) (x : Bits n) {k : ℕ}
    (hk : ws.length ≤ k) : overwrite ws (2 ^ k - 1) x v = true := by
  induction ws with
  | nil => cases hv
  | cons w rest ih =>
    rw [List.length_cons] at hk
    rw [overwrite]
    by_cases hvw : v = w
    · subst hvw
      rw [Function.update_self, Nat.testBit_two_pow_sub_one]
      exact decide_eq_true (by omega)
    · rw [Function.update_of_ne hvw]
      exact ih ((List.mem_cons.mp hv).resolve_left hvw) (by omega)

/-- Only the bits that are written matter. -/
theorem overwrite_congr {ws : List (Fin n)} {c d : ℕ} (x : Bits n)
    (h : ∀ j < ws.length, c.testBit j = d.testBit j) : overwrite ws c x = overwrite ws d x := by
  induction ws with
  | nil => rfl
  | cons w rest ih =>
    rw [overwrite, overwrite, h rest.length (Nat.lt_succ_self _),
      ih fun j hj => h j (Nat.lt_succ_of_lt hj)]

/-- What is overwritten does not matter. -/
theorem overwrite_of_mem {ws : List (Fin n)} {v : Fin n} (hv : v ∈ ws) (c : ℕ) (x y : Bits n) :
    overwrite ws c x v = overwrite ws c y v := by
  induction ws with
  | nil => cases hv
  | cons w rest ih =>
    rw [overwrite, overwrite]
    by_cases hvw : v = w
    · subst hvw
      rw [Function.update_self, Function.update_self]
    · rw [Function.update_of_ne hvw, Function.update_of_ne hvw]
      exact ih ((List.mem_cons.mp hv).resolve_left hvw)

theorem overwrite_overwrite (ws : List (Fin n)) (c d : ℕ) (x : Bits n) :
    overwrite ws c (overwrite ws d x) = overwrite ws c x := by
  funext v
  by_cases hv : v ∈ ws
  · exact overwrite_of_mem hv c _ _
  · rw [overwrite_of_notMem hv, overwrite_of_notMem hv, overwrite_of_notMem hv]

/-- Wires that differ are overwritten in any order. -/
theorem overwrite_comm {vs ws : List (Fin n)} (h : vs.Disjoint ws) (c d : ℕ) (x : Bits n) :
    overwrite vs c (overwrite ws d x) = overwrite ws d (overwrite vs c x) := by
  funext v
  by_cases hv : v ∈ vs
  · rw [overwrite_of_notMem (h hv)]
    exact overwrite_of_mem hv c _ _
  · rw [overwrite_of_notMem hv]
    by_cases hw : v ∈ ws
    · exact overwrite_of_mem hw d _ _
    · rw [overwrite_of_notMem hw, overwrite_of_notMem hw, overwrite_of_notMem hv]

/-- Overwriting by nothing but zeros clears the given wires. -/
theorem overwrite_zero {ws : List (Fin n)} {v : Fin n} (hv : v ∈ ws) (x : Bits n) :
    overwrite ws 0 x v = false := by
  induction ws with
  | nil => cases hv
  | cons w rest ih =>
    rw [overwrite]
    by_cases hvw : v = w
    · subst hvw
      rw [Function.update_self, Nat.zero_testBit]
    · rw [Function.update_of_ne hvw]
      exact ih ((List.mem_cons.mp hv).resolve_left hvw)

/-! ## Numbers that wires spell -/

/-- The first wire is the most significant. -/
theorem spell_cons (w : Fin n) (ws : List (Fin n)) (x : Bits n) :
    spell (w :: ws) x = 2 ^ ws.length * (x w).toNat + spell ws x := by
  have hacc (acc : ℕ) : ws.foldl (fun acc w => 2 * acc + (x w).toNat) acc =
      2 ^ ws.length * acc + spell ws x := by
    unfold spell
    induction ws generalizing acc with
    | nil => simp
    | cons v rest ih =>
      rw [List.foldl_cons, List.foldl_cons, ih, ih (2 * 0 + (x v).toNat), List.length_cons,
        pow_succ]
      ring
  exact (hacc _).trans (by simp)

theorem spell_lt (ws : List (Fin n)) (x : Bits n) : spell ws x < 2 ^ ws.length := by
  induction ws with
  | nil => exact Nat.one_pos
  | cons w rest ih =>
    have hbit : (x w).toNat ≤ 1 := Nat.le_of_lt_succ (Bool.toNat_lt (x w))
    have hhigh : 2 ^ rest.length * (x w).toNat ≤ 2 ^ rest.length * 1 :=
      Nat.mul_le_mul_left _ hbit
    rw [spell_cons, List.length_cons, pow_succ]
    omega

theorem spell_congr {ws : List (Fin n)} {x y : Bits n} (h : ∀ w ∈ ws, x w = y w) :
    spell ws x = spell ws y := by
  induction ws with
  | nil => rfl
  | cons w rest ih =>
    obtain ⟨hfirst, hrest⟩ := List.forall_mem_cons.mp h
    rw [spell_cons, spell_cons, hfirst, ih hrest]

/-- Writing what is spelled changes nothing. -/
theorem overwrite_spell (ws : List (Fin n)) (x : Bits n) : overwrite ws (spell ws x) x = x := by
  induction ws with
  | nil => rfl
  | cons w rest ih =>
    have hbits (j : ℕ) : (spell (w :: rest) x).testBit j =
        if j < rest.length then (spell rest x).testBit j
        else (x w).toNat.testBit (j - rest.length) := by
      rw [spell_cons, Nat.testBit_two_pow_mul_add _ (spell_lt rest x)]
    have hlow : overwrite rest (spell (w :: rest) x) x = x := by
      rw [overwrite_congr x fun j hj => (hbits j).trans (if_pos hj), ih]
    have hhigh : (spell (w :: rest) x).testBit rest.length = x w := by
      rw [hbits, if_neg (Nat.lt_irrefl _), Nat.sub_self]
      cases x w <;> rfl
    rw [overwrite, hlow, hhigh, Function.update_eq_self]

/-- What is written is spelled, but for bits beyond the wires. -/
theorem spell_overwrite {ws : List (Fin n)} (hws : ws.Nodup) (c : ℕ) (x : Bits n) :
    spell ws (overwrite ws c x) = c % 2 ^ ws.length := by
  induction ws with
  | nil => exact (Nat.mod_one c).symm
  | cons w rest ih =>
    obtain ⟨hw, hrest⟩ := List.nodup_cons.mp hws
    have hothers : spell rest (overwrite (w :: rest) c x) = spell rest (overwrite rest c x) :=
      spell_congr fun v hv =>
        Function.update_of_ne (show v ≠ w from fun hvw => hw (hvw ▸ hv)) _ _
    have hself : overwrite (w :: rest) c x w = c.testBit rest.length := Function.update_self ..
    rw [spell_cons, hothers, ih hrest, hself, List.length_cons, Nat.mod_pow_succ,
      Nat.toNat_testBit, Nat.add_comm]

/-! ## Blocks of positions -/

theorem bit_foldl_or (items : List ℕ) (acc : ℕ) (v : Fin n) :
    Basis.bit n (items.foldl (· ||| ·) acc) v =
      (Basis.bit n acc v || items.any fun i => Basis.bit n i v) := by
  induction items generalizing acc with
  | nil => exact (Bool.or_false _).symm
  | cons i items ih => rw [List.foldl_cons, ih, bit_or, List.any_cons, Bool.or_assoc]

/-- The offsets of a block together have ones on the wires and nowhere else. -/
theorem bit_mask {ws : List (Fin n)} (hws : ws.Nodup) (v : Fin n) :
    Basis.bit n (((List.range (2 ^ ws.length)).map
      (Basis.spread n (ws.map (·.val)))).foldl (· ||| ·) 0) v = decide (v ∈ ws) := by
  have hspread (c : ℕ) := bit_spread hws c (fun _ => false) v
  rw [bit_foldl_or, bit_zero, Bool.false_or, List.any_map]
  by_cases hv : v ∈ ws
  · rw [decide_eq_true hv, List.any_eq_true]
    refine ⟨2 ^ ws.length - 1, List.mem_range.mpr (Nat.sub_one_lt (Nat.two_pow_pos _).ne'), ?_⟩
    rw [Function.comp_apply, hspread, overwrite_ones hv _ le_rfl]
    simp [hv]
  · rw [decide_eq_false hv, List.any_eq_false]
    intro c _
    rw [Function.comp_apply, hspread]
    simp [hv]

/-- A position is met by the mask unless it has no ones on the wires. -/
theorem and_mask_eq_zero_iff {mask : ℕ} {ws : List (Fin n)}
    (hmask : ∀ v : Fin n, Basis.bit n mask v = decide (v ∈ ws)) (x : Bits n) :
    index x &&& mask = 0 ↔ ∀ w ∈ ws, x w = false := by
  constructor
  · intro h w hw
    have hbit := bit_and (index x) mask w
    rw [h, bit_zero, bit_index, hmask, decide_eq_true hw, Bool.and_true] at hbit
    exact hbit.symm
  · intro h
    have hlt : index x &&& mask < 2 ^ n := lt_of_le_of_lt Nat.and_le_left (index_lt x)
    refine eq_of_bit_eq hlt (Nat.two_pow_pos n) fun v => ?_
    rw [bit_and, bit_index, hmask, bit_zero]
    by_cases hv : v ∈ ws
    · rw [h v hv, Bool.false_and]
    · rw [decide_eq_false hv, Bool.and_false]

/-- From a position without ones on the wires, an offset leads to what overwrites them. -/
theorem or_spread_eq {ws : List (Fin n)} (hws : ws.Nodup) {x : Bits n}
    (hx : ∀ w ∈ ws, x w = false) (c : ℕ) :
    index x ||| Basis.spread n (ws.map (·.val)) c = index (overwrite ws c x) := by
  refine eq_of_bit_eq (Nat.or_lt_two_pow (index_lt x) (spread_lt _ _)) (index_lt _) fun v => ?_
  rw [bit_or, bit_spread hws c x, bit_index, bit_index]
  by_cases hv : v ∈ ws
  · simp [hv, hx v hv]
  · simp [hv, overwrite_of_notMem hv]

end Proofs

end CircuitGrad
