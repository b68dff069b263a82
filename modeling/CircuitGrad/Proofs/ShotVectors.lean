import Mathlib
import CircuitGrad.Shots
import CircuitGrad.Proofs.Counts

/-! # Shot vectors

    A shot vector is a run-length encoding of the batches to be sampled, and it
    is expanded in three ways: the batches by repetition, their number by
    adding repetitions, the shots by adding products.  The three agree as
    numbers: the list is as long as its number says (`length_batches`), the
    `i`-th batch has the shots of the one pair whose repetitions cover `i`
    (`existsUnique_covers`, `getElem?_batches`), and the products add up to the
    entries of the list (`sampleCount_vector`).

    Counting is done in words, and nothing bounds the numbers of an accepted
    vector.  The total goes through exactly if the shots over all batches fit a
    word, and so does the number of batches on its own; a list that fits the
    memory always has a number (`shotVector_counts`).
-/

namespace CircuitGrad

/-- Repetitions of the first `k` pairs of shots and repetitions. -/
def batchesBefore (pairs : List (ℕ × ℕ)) (k : ℕ) : ℕ := ((pairs.take k).map Prod.snd).sum

/-- The `i`-th batch is one of the repetitions of the `k`-th pair. -/
def Covers (pairs : List (ℕ × ℕ)) (k i : ℕ) : Prop :=
  batchesBefore pairs k ≤ i ∧ i < batchesBefore pairs (k + 1)

/-- Shots of all batches together. -/
def Shots.sampleCount (s : Shots) : ℕ := s.batches.reduceOption.sum

namespace Proofs

variable {pairs : List (ℕ × ℕ)} {s : Shots}

/-! ## Expansion -/

theorem length_batches (shots : Shots) : shots.batches.length = shots.batchCount := by
  cases shots with
  | analytic => rfl
  | finite n => rfl
  | vector batches => simp [Shots.batches, Shots.batchCount, List.length_flatMap]

/-- Products of shots and repetitions add up to the shots of the batches. -/
theorem sampleCount_vector (batches : List ShotBatch) :
    (Shots.vector batches).sampleCount = (batches.map fun b => b.shots * b.repetitions).sum := by
  induction batches with
  | nil => rfl
  | cons b batches ih =>
    have hown : (List.replicate b.repetitions (some b.shots)).reduceOption.sum =
        b.shots * b.repetitions := by
      simp [List.reduceOption, mul_comm]
    rw [List.map_cons, List.sum_cons, ← ih, ← hown]
    simp [Shots.sampleCount, Shots.batches, List.reduceOption_append]

/-- A vector is accepted, as it is, if it has pairs and all of them have shots
    and repetitions. -/
theorem ofPairs_eq_ok_iff :
    Shots.ofPairs pairs = .ok s ↔ pairs ≠ [] ∧ (∀ p ∈ pairs, 0 < p.1 ∧ 0 < p.2) ∧
      s = .vector (pairs.map fun p => ⟨p.1, p.2⟩) := by
  rcases pairs with _ | ⟨first, rest⟩
  · exact iff_of_false nofun fun h => h.1 rfl
  cases hfound : (first :: rest).find? fun p => p.1 == 0 || p.2 == 0 with
  | some p =>
    have hempty := List.find?_some hfound
    have hrefused : Shots.ofPairs (first :: rest) = (ArgumentFault.shotBatch p.1 p.2).error := by
      simp only [Shots.ofPairs, hfound]
    rw [hrefused]
    refine iff_of_false nofun fun ⟨_, hpos, _⟩ => ?_
    obtain ⟨hshots, hrepetitions⟩ := hpos p (List.mem_of_find?_eq_some hfound)
    rw [Bool.or_eq_true_iff, beq_iff_eq, beq_iff_eq] at hempty
    omega
  | none =>
    have hpos : ∀ p ∈ first :: rest, 0 < p.1 ∧ 0 < p.2 := by
      intro p hp
      have hfits := List.find?_eq_none.mp hfound p hp
      rw [Bool.or_eq_true_iff, beq_iff_eq, beq_iff_eq] at hfits
      omega
    have haccepted : Shots.ofPairs (first :: rest) =
        .ok (.vector ((first :: rest).map fun p => ⟨p.1, p.2⟩)) := by
      simp only [Shots.ofPairs, hfound]
    rw [haccepted, Except.ok.injEq, eq_comm]
    exact ⟨fun h => ⟨List.cons_ne_nil _ _, hpos, h⟩, fun h => h.2.2⟩

/-! ## The pair of a batch -/

@[simp] theorem batchesBefore_zero (pairs : List (ℕ × ℕ)) : batchesBefore pairs 0 = 0 := rfl

@[simp] theorem batchesBefore_nil (k : ℕ) : batchesBefore [] k = 0 := by
  simp [batchesBefore]

@[simp] theorem batchesBefore_cons (p : ℕ × ℕ) (pairs : List (ℕ × ℕ)) (k : ℕ) :
    batchesBefore (p :: pairs) (k + 1) = p.2 + batchesBefore pairs k := by
  simp [batchesBefore]

theorem batchesBefore_mono (pairs : List (ℕ × ℕ)) : Monotone (batchesBefore pairs) := by
  intro k l hkl
  exact ((List.take_sublist_take_left hkl).map Prod.snd).sum_le_sum fun _ _ => Nat.zero_le _

/-- Of two pairs the later one starts where the earlier one has ended. -/
theorem le_of_covers {i k l : ℕ} (hk : Covers pairs k i) (hl : Covers pairs l i) : k ≤ l := by
  by_contra hlt
  have hended : batchesBefore pairs (l + 1) ≤ batchesBefore pairs k :=
    batchesBefore_mono pairs (not_le.mp hlt)
  exact absurd (hl.2.trans_le hended) (not_lt.mpr hk.1)

theorem exists_covers {i : ℕ} (hi : i < (pairs.map Prod.snd).sum) : ∃ k, Covers pairs k i := by
  induction pairs generalizing i with
  | nil => simp at hi
  | cons p pairs ih =>
    rw [List.map_cons, List.sum_cons] at hi
    by_cases hfirst : i < p.2
    · exact ⟨0, Nat.zero_le i, by simpa using hfirst⟩
    · -- A batch beyond the first pair is found among the others, counted from its end.
      obtain ⟨k, hbefore, hafter⟩ := ih (i := i - p.2) (by omega)
      refine ⟨k + 1, ?_, ?_⟩
      · rw [batchesBefore_cons]
        omega
      · rw [batchesBefore_cons]
        omega

/-- Every batch is covered by one pair. -/
theorem existsUnique_covers {i : ℕ} (hi : i < (pairs.map Prod.snd).sum) :
    ∃! k, Covers pairs k i := by
  obtain ⟨k, hk⟩ := exists_covers hi
  exact ⟨k, hk, fun l hl => le_antisymm (le_of_covers hl hk) (le_of_covers hk hl)⟩

/-- A batch has the shots of the pair that covers it. -/
theorem getElem?_batches {k i : ℕ} (h : Covers pairs k i) :
    ∃ p, pairs[k]? = some p ∧
      (Shots.vector (pairs.map fun p => ⟨p.1, p.2⟩)).batches[i]? = some (some p.1) := by
  induction pairs generalizing k i with
  | nil => simp [Covers] at h
  | cons p pairs ih =>
    obtain ⟨hbefore, hafter⟩ := h
    simp only [Shots.batches, List.map_cons, List.flatMap_cons]
    cases k with
    | zero =>
      have hi : i < p.2 := by simpa using hafter
      refine ⟨p, rfl, ?_⟩
      rw [List.getElem?_append_left (by simpa using hi)]
      simp [hi]
    | succ k =>
      rw [batchesBefore_cons] at hbefore hafter
      obtain ⟨q, hq, hentry⟩ := ih (k := k) (i := i - p.2) ⟨by omega, by omega⟩
      refine ⟨q, hq, ?_⟩
      rw [List.getElem?_append_right (by rw [List.length_replicate]; omega), List.length_replicate]
      exact hentry

/-! ## Reported counts -/

theorem stopsUnless_total (batches : List ShotBatch) :
    StopsUnless ((Shots.vector batches).sampleCount < 2 ^ (64 : ℕ)) (Shots.vector batches).total
      (some (Shots.vector batches).sampleCount) := by
  rw [sampleCount_vector]
  exact (stopsUnless_sum (fun b => stopsUnless_mul b.shots b.repetitions) batches).then_ok rfl

theorem stopsUnless_batchCountWord (batches : List ShotBatch) :
    StopsUnless ((Shots.vector batches).batchCount < 2 ^ (64 : ℕ))
      (Shots.vector batches).batchCountWord (Shots.vector batches).batchCount :=
  stopsUnless_sum (fun b => stopsUnless_word b.repetitions) batches

theorem stopsUnless_batchList (s : Shots) :
    StopsUnless (s.batchCount * 16 < 2 ^ (63 : ℕ)) s.batchList s.batches :=
  (stopsUnless_room s.batchCount 16).then_ok rfl

/-- What an accepted shot vector says about its batches, and what is counted
    of them.  The batches are as many as their exact number, and each has the
    shots of the one pair that covers it.  The total is the exact one if that
    fits a word, and otherwise there is none; the same holds of the number of
    batches.  Batches that are listed in memory are counted. -/
theorem shotVector_counts (h : Shots.ofPairs pairs = .ok s) :
    s.batches.length = s.batchCount ∧
    (∀ i < s.batches.length, ∃! k, Covers pairs k i) ∧
    (∀ k i, Covers pairs k i → ∃ p, pairs[k]? = some p ∧ s.batches[i]? = some (some p.1)) ∧
    StopsUnless (s.sampleCount < 2 ^ (64 : ℕ)) s.total (some s.sampleCount) ∧
    StopsUnless (s.batches.length < 2 ^ (64 : ℕ)) s.batchCountWord s.batches.length ∧
    StopsUnless (s.batches.length * 16 < 2 ^ (63 : ℕ)) s.batchList s.batches ∧
    ∀ list, s.batchList = .ok list → list = s.batches ∧ s.batchCountWord = .ok list.length := by
  obtain ⟨-, -, rfl⟩ := ofPairs_eq_ok_iff.mp h
  set s : Shots := .vector (pairs.map fun p => ⟨p.1, p.2⟩) with hs
  have hlength : s.batches.length = (pairs.map Prod.snd).sum := by
    rw [length_batches, hs, Shots.batchCount, List.map_map]
    rfl
  have hcount := stopsUnless_batchCountWord (pairs.map fun p => ⟨p.1, p.2⟩)
  have hlist := stopsUnless_batchList s
  rw [← hs] at hcount
  rw [← length_batches] at hcount hlist
  refine ⟨length_batches s, fun i hi => existsUnique_covers (hlength ▸ hi),
    fun k i hcovers => getElem?_batches hcovers, stopsUnless_total _, hcount, hlist, ?_⟩
  intro list h
  by_cases hroom : s.batches.length * 16 < 2 ^ (63 : ℕ)
  · obtain rfl := Except.ok.inj ((hlist.goes hroom).symm.trans h)
    exact ⟨rfl, hcount.goes (lt_word_of_room (by decide) hroom)⟩
  · cases (hlist.stops hroom).symm.trans h

/-- Two batches of ten shots and one of a hundred. -/
theorem shotVector_counts_twoSizes :
    Shots.ofPairs [(10, 2), (100, 1)] = .ok (.vector [⟨10, 2⟩, ⟨100, 1⟩]) ∧
    (Shots.vector [⟨10, 2⟩, ⟨100, 1⟩]).total = .ok (some 120) ∧
    (Shots.vector [⟨10, 2⟩, ⟨100, 1⟩]).batchCountWord = .ok 3 ∧
    (∃! k, Covers [(10, 2), (100, 1)] k 2) ∧
    (Shots.vector [⟨10, 2⟩, ⟨100, 1⟩]).batches[2]? = some (some 100) := by
  have h : Shots.ofPairs [(10, 2), (100, 1)] = .ok (.vector [⟨10, 2⟩, ⟨100, 1⟩]) := rfl
  obtain ⟨-, hcovered, hentries, htotal, hcount, -⟩ := shotVector_counts h
  obtain ⟨p, hp, hentry⟩ := hentries 1 2 ⟨by decide, by decide⟩
  obtain rfl := Option.some.inj hp
  exact ⟨h, htotal.goes (by decide), hcount.goes (by decide), hcovered 2 (by decide), hentry⟩

/-- Two batches of `2 ^ 63` shots have no total, and twice `2 ^ 63` batches of
    one shot have no number. -/
theorem shotVector_overflows :
    (Shots.ofPairs [(2 ^ (63 : ℕ), 2)] = .ok (.vector [⟨2 ^ (63 : ℕ), 2⟩]) ∧
      (Shots.vector [⟨2 ^ (63 : ℕ), 2⟩]).batchList =
        .ok [some (2 ^ (63 : ℕ)), some (2 ^ (63 : ℕ))] ∧
      (Shots.vector [⟨2 ^ (63 : ℕ), 2⟩]).sampleCount = 2 ^ (64 : ℕ) ∧
      (Shots.vector [⟨2 ^ (63 : ℕ), 2⟩]).total = .error .overflow) ∧
    Shots.ofPairs [(1, 2 ^ (63 : ℕ)), (1, 2 ^ (63 : ℕ))] =
      .ok (.vector [⟨1, 2 ^ (63 : ℕ)⟩, ⟨1, 2 ^ (63 : ℕ)⟩]) ∧
      (Shots.vector [⟨1, 2 ^ (63 : ℕ)⟩, ⟨1, 2 ^ (63 : ℕ)⟩]).batches.length = 2 ^ (64 : ℕ) ∧
      (Shots.vector [⟨1, 2 ^ (63 : ℕ)⟩, ⟨1, 2 ^ (63 : ℕ)⟩]).batchCountWord = .error .overflow := by
  refine ⟨⟨rfl, rfl, rfl, rfl⟩, rfl, ?_, rfl⟩
  rw [length_batches]
  rfl

end Proofs

end CircuitGrad
