import Mathlib
import CircuitGrad.Representation

/-! # Unique decoding

    A code decodes when two coded items that start one and the same sequence
    carry the same information and leave the same rest.  Codes of this kind
    compose: one after the other, counted lists, and lists closed by a mark
    that starts no item.

    What an item carries is given by a view, since items may be told apart by
    more than their code is meant to keep.
-/

namespace CircuitGrad.Proofs

variable {β γ δ : Type}

/-- Two good items that start one sequence agree in `view` and leave the same
    rest. -/
def Decodes (code : β → List γ) (good : β → Prop) (view : β → δ) : Prop :=
  ∀ a b : β, good a → good b → ∀ r s : List γ,
    code a ++ r = code b ++ s → view a = view b ∧ r = s

/-- Codes of one fixed length decode as soon as they are injective. -/
theorem decodes_of_length {code : β → List γ} {good : β → Prop} {view : β → δ} {n : Nat}
    (hlen : ∀ a, (code a).length = n)
    (hinj : ∀ a b, good a → good b → code a = code b → view a = view b) :
    Decodes code good view := by
  intro a b ha hb r s h
  have hab : (code a).length = (code b).length := by rw [hlen, hlen]
  obtain ⟨hcode, hrest⟩ := List.append_inj h hab
  exact ⟨hinj a b ha hb hcode, hrest⟩

/-- Items of two lists of one length decode in turn when each pair of items at
    the same place does. -/
theorem decode_flatMap_of_zip {code : β → List γ} {view : β → δ} :
    ∀ (xs ys : List β), xs.length = ys.length →
      (∀ p ∈ xs.zip ys, ∀ r s : List γ,
        code p.1 ++ r = code p.2 ++ s → view p.1 = view p.2 ∧ r = s) →
      ∀ r s : List γ, xs.flatMap code ++ r = ys.flatMap code ++ s →
        xs.map view = ys.map view ∧ r = s := by
  intro xs
  induction xs with
  | nil =>
    intro ys hlen _ r s h
    obtain rfl : ys = [] := List.length_eq_zero_iff.mp (by simpa using hlen.symm)
    exact ⟨rfl, by simpa using h⟩
  | cons x xs ih =>
    intro ys hlen hpair r s h
    cases ys with
    | nil => simp at hlen
    | cons y ys =>
      simp only [List.flatMap_cons, List.append_assoc] at h
      -- The first pair leaves equal rests, in which the other pairs decode.
      obtain ⟨hview, hrest⟩ := hpair (x, y) (by simp) _ _ h
      have htail := ih ys (by simpa using hlen)
        (fun p hp => hpair p (by simp [hp])) r s hrest
      exact ⟨by simp [hview, htail.1], htail.2⟩

/-- Two lists of good items of one length. -/
theorem Decodes.flatMap {code : β → List γ} {good : β → Prop} {view : β → δ}
    (h : Decodes code good view) {xs ys : List β} (hlen : xs.length = ys.length)
    (hx : ∀ x ∈ xs, good x) (hy : ∀ y ∈ ys, good y) {r s : List γ}
    (heq : xs.flatMap code ++ r = ys.flatMap code ++ s) :
    xs.map view = ys.map view ∧ r = s := by
  refine decode_flatMap_of_zip xs ys hlen ?_ r s heq
  intro p hp r s hps
  have hmem := List.of_mem_zip (show (p.1, p.2) ∈ xs.zip ys from hp)
  exact h p.1 p.2 (hx _ hmem.1) (hy _ hmem.2) r s hps

/-- Lists of good items, closed by a mark that starts none of them. -/
theorem Decodes.closed {code : β → List γ} {good : β → Prop} {view : β → δ}
    (h : Decodes code good view) {mark : List γ}
    (hmark : ∀ b, good b → ∀ r s : List γ, mark ++ r ≠ code b ++ s) :
    Decodes (fun xs : List β => xs.flatMap code ++ mark) (fun xs => ∀ x ∈ xs, good x)
      (fun xs => xs.map view) := by
  intro xs
  induction xs with
  | nil =>
    intro ys _ hy r s heq
    cases ys with
    | nil => exact ⟨rfl, by simpa using heq⟩
    | cons y ys =>
      -- the closing mark on the left would have to start an item on the right
      refine absurd ?_ (hmark y (hy y (by simp)) r (ys.flatMap code ++ (mark ++ s)))
      simpa using heq
  | cons x xs ih =>
    intro ys hx hy r s heq
    cases ys with
    | nil =>
      refine absurd ?_ (hmark x (hx x (by simp)) s (xs.flatMap code ++ (mark ++ r)))
      simpa using heq.symm
    | cons y ys =>
      simp only [List.flatMap_cons, List.append_assoc] at heq
      obtain ⟨hview, hrest⟩ := h x y (hx x (by simp)) (hy y (by simp)) _ _ heq
      have htail := ih ys (fun z hz => hx z (by simp [hz])) (fun z hz => hy z (by simp [hz]))
        r s (by simpa using hrest)
      exact ⟨by simp [hview, htail.1], htail.2⟩

/-! ### Words of eight bytes -/

open CircuitGrad.Representation

/-- Byte `i` of a word. -/
theorem wordBytes_getElem? {n i : Nat} (hi : i < 8) :
    (wordBytes n)[i]? = some (UInt8.ofNat (n / 256 ^ i)) := by
  simp [wordBytes, hi]

theorem length_wordBytes (n : Nat) : (wordBytes n).length = 8 := by
  simp [wordBytes]

/-- The lowest `k` bytes determine the remainder by `256 ^ k`. -/
theorem mod_pow_eq_of_bytes {m n : Nat} (k : Nat)
    (h : ∀ i < k, m / 256 ^ i % 256 = n / 256 ^ i % 256) : m % 256 ^ k = n % 256 ^ k := by
  induction k with
  | zero => simp [Nat.mod_one]
  | succ k ih =>
    have hlow := ih fun i hi => h i (by omega)
    -- One more byte is one more digit to the base 256.
    rw [Nat.mod_pow_succ, Nat.mod_pow_succ, hlow, h k (by omega)]

/-- A number below `2 ^ 64` is determined by its eight bytes. -/
theorem wordBytes_injective {m n : Nat} (hm : m < 2 ^ 64) (hn : n < 2 ^ 64)
    (h : wordBytes m = wordBytes n) : m = n := by
  have hbyte : ∀ i < 8, m / 256 ^ i % 256 = n / 256 ^ i % 256 := by
    intro i hi
    have hsome : some (UInt8.ofNat (m / 256 ^ i)) = some (UInt8.ofNat (n / 256 ^ i)) := by
      rw [← wordBytes_getElem? hi, ← wordBytes_getElem? hi, h]
    have hnat := congrArg UInt8.toNat (Option.some.inj hsome)
    simpa [UInt8.toNat_ofNat'] using hnat
  have hmod := mod_pow_eq_of_bytes 8 hbyte
  have h256 : (256 : Nat) ^ 8 = 2 ^ 64 := by decide
  rwa [h256, Nat.mod_eq_of_lt hm, Nat.mod_eq_of_lt hn] at hmod

theorem decodes_wordBytes : Decodes wordBytes (· < 2 ^ 64) id :=
  decodes_of_length length_wordBytes fun _ _ hm hn h => wordBytes_injective hm hn h

/-! ### Texts -/

theorem byteArray_toList_loop (bytes : ByteArray) (i : Nat) (acc : List UInt8) :
    ByteArray.toList.loop bytes i acc = acc.reverse ++ bytes.data.toList.drop i := by
  fun_induction ByteArray.toList.loop bytes i acc with
  | case1 i acc hi ih =>
    have hi' : i < bytes.data.toList.length := by simpa using hi
    have hget : bytes.get! i = bytes.data.toList[i] := by
      simp only [ByteArray.get!, Array.getElem_toList]
      exact getElem!_pos bytes.data i hi'
    rw [ih, List.drop_eq_getElem_cons hi', hget]
    simp
  | case2 i acc hi =>
    have hle : bytes.data.toList.length ≤ i := by simpa using hi
    simp [List.drop_eq_nil_of_le hle]

theorem byteArray_toList (bytes : ByteArray) : bytes.toList = bytes.data.toList := by
  simp [ByteArray.toList, byteArray_toList_loop]

/-- No byte of a character's UTF-8 form is 255. -/
theorem ne_255_of_mem_utf8EncodeChar (c : Char) :
    ∀ b ∈ String.utf8EncodeChar c, b ≠ 255 := by
  intro b hb h255
  have hnat : b.toNat = 255 := by rw [h255]; rfl
  have hval : c.val.toNat = c.toNat := rfl
  -- the four lengths of the form, each with its leading byte first
  unfold String.utf8EncodeChar at hb
  dsimp only at hb
  split_ifs at hb
  all_goals
    simp only [List.mem_cons, List.not_mem_nil, or_false] at hb
    rcases hb with rfl | rfl | rfl | rfl <;> simp at hnat <;> omega

/-- No byte of a text's UTF-8 form is 255. -/
theorem ne_255_of_mem_toUTF8 (text : String) : ∀ b ∈ text.toUTF8.toList, b ≠ 255 := by
  intro b hb
  obtain ⟨chars, hchars⟩ := text.isValidUTF8
  rw [byteArray_toList] at hb
  have hdata : text.toUTF8.data.toList = chars.flatMap String.utf8EncodeChar := by
    have : text.toUTF8 = chars.utf8Encode := hchars
    rw [this, List.utf8Encode, List.toList_data_toByteArray]
  rw [hdata] at hb
  obtain ⟨c, _, hbc⟩ := List.mem_flatMap.mp hb
  exact ne_255_of_mem_utf8EncodeChar c b hbc

theorem toUTF8_toList_injective {a b : String} (h : a.toUTF8.toList = b.toUTF8.toList) :
    a = b := by
  rw [byteArray_toList, byteArray_toList] at h
  have hdata : a.toUTF8.data = b.toUTF8.data := Array.toList_inj.mp h
  exact String.toByteArray_inj.mp (ByteArray.ext hdata)

end CircuitGrad.Proofs
