import Mathlib
import CircuitGrad.Proofs.FittingState
import CircuitGrad.Proofs.LawfulResults
import CircuitGrad.Proofs.Unpacking

/-! # Sampled results

    With a number of shots, measurements are estimated from indices that a
    sampler draws.  Nothing is known about these but that each is in range, so
    what holds of the results holds whatever is drawn.

    An index stands for a sign, so a batch of samples of a Pauli word is a list
    of signs, with the mean and the variance of such a list (`signs_mean`,
    `signs_variance`), and the frequencies of indices are counted among those
    drawn (`frequencies_eq`).  Each readout of each measurement has its own
    rule (`sampledBy_of_yields`), in every batch of every layout
    (`simulate_sampled`).
-/

namespace CircuitGrad

/-- Every batch has a positive number of shots. -/
def Shots.Positive : Shots → Prop
  | .analytic => False
  | .finite shots => 0 < shots
  | .vector batches => ∀ b ∈ batches, 0 < b.shots

/-- A list of the given length with entries one and minus one. -/
structure Signs (n : ℕ) (xs : List ℝ) : Prop where
  length : xs.length = n
  sign   : ∀ x ∈ xs, x = 1 ∨ x = -1

/-- What the result of a measurement in a batch of `n` shots obeys. -/
structure Measurement.SampledBy (m : Measurement ℝ) (n : ℕ) (r : Tensor ℝ) : Prop where
  samples : m.readout = .sample → ∃ xs, Signs n xs ∧ r = .vector xs.toArray
  mean : ∀ word, m.readout = .expectation → m.observable = some (.word word) →
    ∃ xs e, Signs n xs ∧ e = xs.sum / n ∧ r = .scalar e ∧ -1 ≤ e ∧ e ≤ 1
  variance : ∀ word, m.readout = .variance → m.observable = some (.word word) →
    ∃ xs v, Signs n xs ∧ v = (xs.map (· ^ 2)).sum / n - (xs.sum / n) ^ 2 ∧ r = .scalar v ∧
      0 ≤ v ∧ v ≤ 1
  probabilities : m.readout = .probability → ∃ ps, r = .vector ps ∧
    (∀ p ∈ ps, ∃ k : ℕ, p = k / n) ∧ ps.toList.sum = 1

/-- The measurement can be estimated from one batch of samples. -/
def Measurement.Sampleable (m : Measurement ℝ) : Prop :=
  (∃ wires, m = .probs wires) ∨ ∃ readout word,
    (readout = .expectation ∨ readout = .variance ∨ readout = .sample) ∧
      m = .ofObservable readout (.word word)

namespace Proofs

open Simulation

/-! ## Possible results -/

section Yields

variable {ρ β γ : Type}

/-- A step with random choices can have a result, from some state of the sampler. -/
def Yields (x : StateT ρ (Except SimulatorError) β) (r : β) : Prop :=
  ∃ s s', x.run s = .ok (r, s')

theorem eq_of_yields_pure {a r : β} (h : Yields (pure a : StateT ρ (Except SimulatorError) β) r) :
    r = a := by
  obtain ⟨s, s', h⟩ := h
  exact (Prod.mk.inj (Except.ok.inj h)).1.symm

theorem yields_bind {x : StateT ρ (Except SimulatorError) β}
    {f : β → StateT ρ (Except SimulatorError) γ} {r : γ} (h : Yields (x >>= f) r) :
    ∃ a, Yields x a ∧ Yields (f a) r := by
  obtain ⟨s, s', h⟩ := h
  obtain ⟨⟨a, s₁⟩, ha, hr⟩ := bind_eq_ok h
  exact ⟨a, ⟨s, s₁, ha⟩, s₁, s', hr⟩

theorem forall₂_of_yields {f : γ → StateT ρ (Except SimulatorError) β} {items : List γ}
    {rs : List β} (h : Yields (items.mapM f) rs) :
    List.Forall₂ (fun item r => Yields (f item) r) items rs := by
  induction items generalizing rs with
  | nil =>
    obtain rfl := eq_of_yields_pure h
    exact .nil
  | cons item items ih =>
    rw [List.mapM_cons] at h
    obtain ⟨r, hr, h⟩ := yields_bind h
    obtain ⟨rest, hrest, h⟩ := yields_bind h
    obtain rfl := eq_of_yields_pure h
    exact .cons hr (ih hrest)

end Yields

/-! ## Drawn indices -/

section Draws

variable {ρ : Type} (sampler : Sampler ℝ ρ)

/-- One index in range per shot. -/
theorem picks_inRange {weights : List ℝ} (h : weights ≠ []) (n : ℕ) (s : ρ) :
    ((sampler.picks weights n).run s).1.length = n ∧
      ∀ i ∈ ((sampler.picks weights n).run s).1, i < weights.length := by
  induction n generalizing s with
  | zero => exact ⟨rfl, nofun⟩
  | succ n ih =>
    obtain ⟨hlength, hrange⟩ := ih (sampler.pick weights s).2
    exact ⟨congrArg Nat.succ hlength,
      List.forall_mem_cons.mpr ⟨sampler.inRange weights s h, hrange⟩⟩

theorem draw_inRange {weights : List ℝ} {n : ℕ} {drawn : List ℕ}
    (h : Yields (sampler.draw weights n) drawn) :
    drawn.length = n ∧ ∀ i ∈ drawn, i < weights.length := by
  obtain ⟨s, s', h⟩ := h
  unfold Sampler.draw at h
  split at h
  · cases h
  · next haccepted =>
    obtain rfl := (Prod.mk.inj (Except.ok.inj h)).1
    exact picks_inRange sampler ((sampler.accepts weights).mp haccepted).1 n s

theorem signs_of_sampleWord {s : StateVector ℝ} {word : PauliWord} {n : ℕ} {xs : List ℝ}
    (h : Yields (sampleWord sampler s word n) xs) : Signs n xs := by
  obtain ⟨weights, -, h⟩ := yields_bind h
  obtain ⟨drawn, hdrawn, h⟩ := yields_bind h
  obtain rfl := eq_of_yields_pure h
  refine ⟨(List.length_map _).trans (draw_inRange sampler hdrawn).1, fun x hx => ?_⟩
  obtain ⟨j, -, rfl⟩ := List.mem_map.mp hx
  split
  · exact .inl rfl
  · exact .inr rfl

end Draws

/-! ## Statistics of signs -/

section Signs

variable {n : ℕ} {xs : List ℝ}

theorem mean_eq (h : Signs n xs) : Simulation.mean xs = xs.sum / n := by
  unfold Simulation.mean
  rw [sum_eq_sum, h.length]

theorem spread_eq (h : Signs n xs) :
    spread xs = (xs.map (· ^ 2)).sum / n - (xs.sum / n) ^ 2 := by
  unfold spread
  rw [mean_eq h, sum_eq_sum, h.length, ← sq]
  simp only [← sq]

/-- The square of a sign is one. -/
theorem sum_squares (h : Signs n xs) : (xs.map (· ^ 2)).sum = (n : ℝ) := by
  have hone : xs.map (· ^ 2) = List.replicate n (1 : ℝ) := by
    rw [List.eq_replicate_iff, List.length_map, h.length]
    refine ⟨rfl, fun y hy => ?_⟩
    obtain ⟨x, hx, rfl⟩ := List.mem_map.mp hy
    rcases h.sign x hx with rfl | rfl <;> norm_num
  rw [hone, List.sum_replicate, nsmul_one]

theorem abs_sum_le (h : Signs n xs) : |xs.sum| ≤ n := by
  have hle : ∀ x ∈ xs, x ≤ 1 ∧ -1 ≤ x := by
    intro x hx
    rcases h.sign x hx with rfl | rfl <;> norm_num
  have habove := List.sum_le_card_nsmul xs 1 fun x hx => (hle x hx).1
  have hbelow := List.card_nsmul_le_sum xs (-1) fun x hx => (hle x hx).2
  rw [h.length, nsmul_eq_mul] at habove hbelow
  exact abs_le.mpr ⟨by linarith, by linarith⟩

theorem abs_mean_le (hn : 0 < n) (h : Signs n xs) : |xs.sum / n| ≤ 1 := by
  have hpos : (0 : ℝ) < n := Nat.cast_pos.mpr hn
  rw [abs_div, abs_of_pos hpos]
  exact (div_le_one hpos).mpr (abs_sum_le h)

theorem variance_bounds (hn : 0 < n) (h : Signs n xs) :
    0 ≤ (xs.map (· ^ 2)).sum / n - (xs.sum / n) ^ 2 ∧
      (xs.map (· ^ 2)).sum / n - (xs.sum / n) ^ 2 ≤ 1 := by
  have hsquare : (xs.sum / n) ^ 2 ≤ 1 := (sq_le_one_iff_abs_le_one _).mpr (abs_mean_le hn h)
  have hnonneg : 0 ≤ (xs.sum / n) ^ 2 := sq_nonneg _
  rw [sum_squares h, div_self (Nat.cast_ne_zero.mpr hn.ne')]
  exact ⟨by linarith, by linarith⟩

end Signs

/-! ## Relative frequencies -/

section Frequencies

variable {size n : ℕ} {drawn : List ℕ}

theorem sum_ite_eq_count (drawn : List ℕ) (j : ℕ) :
    (drawn.map fun i => if i = j then (1 : ℝ) else 0).sum = drawn.count j := by
  induction drawn with
  | nil => simp
  | cons i drawn ih =>
    rw [List.map_cons, List.sum_cons, ih, List.count_cons]
    by_cases h : i = j <;> simp [h, add_comm]

/-- The frequency of an index is its share of those drawn. -/
theorem frequencies_eq (size n : ℕ) (drawn : List ℕ) :
    frequencies size n drawn = Array.ofFn fun j : Fin size => (drawn.count j.val : ℝ) / n := by
  obtain ⟨hsize, hentry⟩ := foldl_modify_add drawn id (fun _ => 1) (Array.replicate size 0)
  rw [Array.size_replicate] at hsize hentry
  have hcounts : drawn.foldl (fun acc i => acc.modify i (· + 1)) (Array.replicate size (0 : ℝ)) =
      Array.ofFn fun j : Fin size => (drawn.count j.val : ℝ) := by
    refine eq_ofFn (f := fun j => (drawn.count j : ℝ)) hsize fun j hj => ?_
    refine (hentry j hj).trans ?_
    simp only [id]
    rw [sum_ite_eq_count, Array.getD_eq_getD_getElem?, Array.getElem?_replicate, if_pos hj,
      Option.getD_some, zero_add]
  unfold frequencies
  dsimp only
  rw [hcounts, Array.map_ofFn]
  congr 1
  exact funext fun j => mul_one_div _ _

/-- Each index that is drawn is counted once. -/
theorem sum_frequencies (hn : 0 < n) (hlength : drawn.length = n) (hrange : ∀ i ∈ drawn, i < size) :
    (frequencies (α := ℝ) size n drawn).toList.sum = 1 := by
  have hcount : ∑ j ∈ Finset.range size, drawn.count j = n := by
    have h := Multiset.sum_count_eq_card (s := Finset.range size) (m := (drawn : Multiset ℕ))
      fun i hi => Finset.mem_range.mpr (hrange i hi)
    simpa [hlength] using h
  rw [frequencies_eq, Array.toList_ofFn, List.sum_ofFn,
    ← Finset.sum_range fun j => (drawn.count j : ℝ) / n, ← Finset.sum_div, ← Nat.cast_sum, hcount,
    div_self (Nat.cast_ne_zero.mpr hn.ne')]

end Frequencies

/-! ## One measurement -/

section Measurements

variable {ρ : Type} (sampler : Sampler ℝ ρ) {s : StateVector ℝ} {m : Measurement ℝ} {n : ℕ}
  {r : Tensor ℝ}

/-- The result that is made of the samples of a word. -/
noncomputable def ofSamples (readout : Readout) (xs : List ℝ) : Tensor ℝ :=
  match readout with
  | .expectation => .scalar (Simulation.mean xs)
  | .variance => .scalar (spread xs)
  | _ => .vector xs.toArray

theorem sampled_word {word : PauliWord} (hobservable : m.observable = some (.word word))
    (hreadout : m.readout = .expectation ∨ m.readout = .variance ∨ m.readout = .sample) :
    sampled sampler s m n = do
      let xs ← sampleWord sampler s word n
      return ofSamples m.readout xs := by
  unfold sampled
  rw [hobservable]
  rcases hreadout with h | h | h <;> rw [h] <;> rfl

theorem yields_word {word : PauliWord} (hobservable : m.observable = some (.word word))
    (hreadout : m.readout = .expectation ∨ m.readout = .variance ∨ m.readout = .sample)
    (h : Yields (sampled sampler s m n) r) : ∃ xs, Signs n xs ∧ r = ofSamples m.readout xs := by
  rw [sampled_word sampler hobservable hreadout] at h
  obtain ⟨xs, hxs, h⟩ := yields_bind h
  exact ⟨xs, signs_of_sampleWord sampler hxs, eq_of_yields_pure h⟩

/-- Samples are drawn of words only. -/
theorem exists_word_of_sample (hreadout : m.readout = .sample)
    (h : Yields (sampled sampler s m n) r) : ∃ word, m.observable = some (.word word) := by
  obtain ⟨_, _, h⟩ := h
  unfold sampled at h
  rw [hreadout] at h
  cases hobservable : m.observable with
  | none =>
    rw [hobservable] at h
    cases h
  | some o =>
    cases o with
    | word word => exact ⟨word, rfl⟩
    | hamiltonian _ =>
      rw [hobservable] at h
      cases h

theorem yields_frequencies (hreadout : m.readout = .probability)
    (h : Yields (sampled sampler s m n) r) : ∃ size drawn, drawn.length = n ∧
      (∀ i ∈ drawn, i < size) ∧ r = .vector (frequencies size n drawn) := by
  unfold sampled at h
  rw [hreadout] at h
  obtain ⟨weights, -, h⟩ := yields_bind h
  obtain ⟨drawn, hdrawn, h⟩ := yields_bind h
  obtain ⟨hlength, hrange⟩ := draw_inRange sampler hdrawn
  exact ⟨_, drawn, hlength, hrange, eq_of_yields_pure h⟩

/-- Whatever is drawn, the result obeys the rule of its readout. -/
theorem sampledBy_of_yields (hn : 0 < n) (h : Yields (sampled sampler s m n) r) :
    m.SampledBy n r where
  samples := by
    intro hreadout
    obtain ⟨word, hword⟩ := exists_word_of_sample sampler hreadout h
    obtain ⟨xs, hxs, rfl⟩ := yields_word sampler hword (.inr (.inr hreadout)) h
    exact ⟨xs, hxs, by rw [hreadout]; rfl⟩
  mean := by
    intro word hreadout hword
    obtain ⟨xs, hxs, rfl⟩ := yields_word sampler hword (.inl hreadout) h
    obtain ⟨hbelow, habove⟩ := abs_le.mp (abs_mean_le hn hxs)
    refine ⟨xs, _, hxs, rfl, ?_, hbelow, habove⟩
    rw [hreadout, ← mean_eq hxs]
    rfl
  variance := by
    intro word hreadout hword
    obtain ⟨xs, hxs, rfl⟩ := yields_word sampler hword (.inr (.inl hreadout)) h
    obtain ⟨hbelow, habove⟩ := variance_bounds hn hxs
    refine ⟨xs, _, hxs, rfl, ?_, hbelow, habove⟩
    rw [hreadout, ← spread_eq hxs]
    rfl
  probabilities := by
    intro hreadout
    obtain ⟨size, drawn, hlength, hrange, rfl⟩ := yields_frequencies sampler hreadout h
    refine ⟨_, rfl, fun p hp => ?_, sum_frequencies hn hlength hrange⟩
    rw [frequencies_eq] at hp
    obtain ⟨j, rfl⟩ := Array.mem_ofFn.mp hp
    exact ⟨_, rfl⟩

end Measurements

/-! ## Traces -/

section Traces

variable {ρ : Type} {sampler : Sampler ℝ ρ} {t : Trace ℝ} {T : Tensor ℝ}

theorem exists_shots_of_positive {shots : Shots} (h : shots.Positive) {batch : Option ℕ}
    (hbatch : batch ∈ shots.batches) : ∃ n, batch = some n ∧ 0 < n := by
  cases shots with
  | analytic => exact h.elim
  | finite n => exact ⟨n, List.mem_singleton.mp hbatch, h⟩
  | vector batches =>
    obtain ⟨b, hb, hbatch⟩ := List.mem_flatMap.mp hbatch
    exact ⟨b.shots, List.eq_of_mem_replicate hbatch, h b hb⟩

/-- Results of no batch cannot be packed. -/
theorem batches_ne_nil_of_packResults {rs : List (List (Tensor ℝ))}
    (h : t.packResults rs = .ok T) : t.shots.batches ≠ [] := by
  intro hnil
  unfold Trace.packResults at h
  rw [hnil] at h
  cases rs with
  | nil => cases h
  | cons r rs => cases h

/-- The results of a trace, whose final state all batches are measured in. -/
theorem yields_of_results {rs : List (List (Tensor ℝ))} (h : results sampler t = .ok rs) :
    ∃ s : StateVector ℝ, List.Forall₂ (fun batch own =>
      List.Forall₂ (fun m r => Yields (Simulation.measure sampler s m batch) r)
        t.measurements own) t.shots.batches rs := by
  obtain ⟨s, -, h⟩ := bind_eq_ok h
  obtain ⟨⟨rs', state⟩, hrun, h⟩ := bind_eq_ok h
  obtain rfl := Except.ok.inj h
  have hyields := forall₂_of_yields ⟨_, state, hrun⟩
  exact ⟨s, hyields.imp fun _ _ => forall₂_of_yields⟩

/-- **Sampled results.**  Whatever indices a sampler draws, the result of a trace with positive
    numbers of shots has the shape of the output and is taken apart to the results of its batches.
    In a batch of `n` shots samples are `n` signs, the mean of a word is that of `n` signs and
    between minus one and one, its variance is that of `n` signs and between zero and one, and
    probabilities are multiples of `1 / n` and add up to one. -/
theorem simulate_sampled (sampler : Sampler ℝ ρ) (hshots : t.shots.Positive)
    (h : t.simulate sampler = .ok T) :
    t.outputShape = .ok T.shape ∧ ∃ rs, t.unpackResult T = .ok rs ∧
      List.Forall₂ (fun batch own => ∃ n, batch = some n ∧ 0 < n ∧
        List.Forall₂ (fun m r => m.SampledBy n r) t.measurements own) t.shots.batches rs := by
  obtain ⟨rs, hlift, hpack⟩ := bind_eq_ok h
  have hresults : results sampler t = .ok rs := by
    cases hresults : results sampler t with
    | error e =>
      rw [hresults] at hlift
      cases hlift
    | ok rs' =>
      rw [hresults] at hlift
      rw [Except.ok.inj hlift]
  have hne := batches_ne_nil_of_packResults hpack
  obtain ⟨houtput, hunpack⟩ := unpackResult_of_packResults hne hpack
  obtain ⟨s, hyields⟩ := yields_of_results hresults
  refine ⟨houtput, rs, hunpack, ?_⟩
  -- No batch is exact, so each result is one that was sampled.
  have hbatches : ∀ batch ∈ t.shots.batches, ∃ n, batch = some n ∧ 0 < n :=
    fun batch => exists_shots_of_positive hshots
  refine ((List.forall₂_and_left _ _).mpr ⟨hbatches, hyields⟩).imp ?_
  rintro batch own ⟨⟨n, rfl, hn⟩, hown⟩
  exact ⟨n, rfl, hn, hown.imp fun m r hr => sampledBy_of_yields sampler hn hr⟩

/-! ### Existence -/

/-- Whatever has been drawn before, a step succeeds, with a result of a kind. -/
def Succeeds {β : Type} (Q : β → Prop) (x : StateT ρ (Except SimulatorError) β) : Prop :=
  ∀ s, ∃ r s', x.run s = .ok (r, s') ∧ Q r

section Succeeds

variable {β γ : Type} {P : γ → Prop} {Q : β → Prop}

theorem succeeds_pure {r : β} (h : Q r) :
    Succeeds Q (pure r : StateT ρ (Except SimulatorError) β) := fun s => ⟨r, s, rfl, h⟩

theorem Succeeds.bind {x : StateT ρ (Except SimulatorError) γ}
    {f : γ → StateT ρ (Except SimulatorError) β} (hx : Succeeds P x)
    (hf : ∀ a, P a → Succeeds Q (f a)) : Succeeds Q (x >>= f) := by
  intro s
  obtain ⟨a, s₁, ha, hP⟩ := hx s
  obtain ⟨r, s₂, hr, hQ⟩ := hf a hP s₁
  refine ⟨r, s₂, ?_, hQ⟩
  rw [StateT.run_bind, ha]
  exact hr

/-- A step without random choices. -/
theorem succeeds_lift {y : Except SimulatorError β} {r : β} (h : y = .ok r) (hr : Q r) :
    Succeeds Q (liftM y : StateT ρ (Except SimulatorError) β) := by
  subst h
  exact fun s => ⟨r, s, rfl, hr⟩

theorem succeeds_mapM {f : γ → StateT ρ (Except SimulatorError) β} {R : γ → β → Prop}
    {items : List γ} (h : ∀ item ∈ items, Succeeds (R item) (f item)) :
    Succeeds (List.Forall₂ R items) (items.mapM f) := by
  induction items with
  | nil => exact succeeds_pure .nil
  | cons item items ih =>
    obtain ⟨hfirst, hrest⟩ := List.forall_mem_cons.mp h
    rw [List.mapM_cons]
    exact hfirst.bind fun r hr => (ih hrest).bind fun rs hrs => succeeds_pure (.cons hr hrs)

end Succeeds

section Waves

variable {n shots : ℕ} {ψ : Wave n} {m : Measurement ℝ}

/-- Weights that are probabilities can be drawn from. -/
theorem drawable_of_sum {weights : List ℝ} (hnonneg : ∀ w ∈ weights, 0 ≤ w)
    (hsum : weights.sum = 1) : Drawable weights := by
  refine ⟨?_, fun w hw => decide_eq_true (hnonneg w hw), ?_⟩
  · rintro rfl
    exact zero_ne_one hsum
  · by_contra hall
    have hnone : ∀ w ∈ weights, w = 0 := by simpa using hall
    exact zero_ne_one ((List.sum_eq_zero hnone).symm.trans hsum)

theorem succeeds_draw {weights : List ℝ} (h : Drawable weights) :
    Succeeds (·.length = shots) (sampler.draw weights shots) := by
  intro s
  refine ⟨((sampler.picks weights shots).run s).1, ((sampler.picks weights shots).run s).2, ?_,
    (picks_inRange sampler h.1 shots s).1⟩
  unfold Sampler.draw
  rw [(sampler.accepts weights).mpr h]
  rfl

/-- In a state of length one, any wires can be sampled. -/
theorem succeeds_drawWires (hψ : weight ψ = 1) (wires : List ℕ) :
    Succeeds (·.length = shots) (sampler.draw (Array.ofFn fun j : Fin (2 ^ wires.length) =>
      chance wires j ψ).toList shots) := by
  obtain ⟨hnonneg, hsum⟩ := data_chances hψ wires
  rw [sum_eq_sum] at hsum
  exact succeeds_draw (drawable_of_sum (fun w hw => hnonneg w (Array.mem_toList_iff.mp hw)) hsum)

theorem marginal_eq_ok (ψ : Wave n) {wires : List ℕ} (hwires : ∀ w ∈ wires, w < n) :
    (ofWave ψ).marginal wires =
      .ok (Array.ofFn fun j : Fin (2 ^ wires.length) => chance wires j ψ) := by
  rw [marginal_ofWave, (stateCheckWires_eq_ok_iff 0 _).mpr hwires]
  rfl

theorem succeeds_sampleWord (hψ : weight ψ = 1) {word : PauliWord}
    (hwires : ∀ w ∈ word.wires, w < n) :
    Succeeds (·.length = shots) (sampleWord sampler (ofWave ψ) word shots) := by
  obtain ⟨factors, hspells⟩ := exists_spells hwires
  have hturned : weight (onWires turnBlock factors ψ) = 1 :=
    (weight_onWires unitary_turnBlock ψ).trans hψ
  have hweights : (do (← (ofWave ψ).applyAll word.diagonalizingGates).marginal word.wires) =
      Except.ok (Array.ofFn fun j : Fin (2 ^ word.wires.length) =>
        chance word.wires j (onWires turnBlock factors ψ)) := by
    rw [hspells.acts_turns ψ, ok_bind, marginal_eq_ok _ hwires]
  refine (succeeds_lift hweights rfl).bind fun weights hown => ?_
  subst hown
  refine (succeeds_drawWires hturned word.wires).bind fun drawn hdrawn => succeeds_pure ?_
  rw [List.length_map, hdrawn]

/-- In a state of length one, measurements give results of their shapes. -/
theorem succeeds_sampled (hψ : weight ψ = 1) (hm : m.Sampleable) (hwires : ∀ w ∈ m.wires, w < n) :
    Succeeds (fun r => m.outputShape n (some shots) = .ok r.shape)
      (sampled sampler (ofWave ψ) m shots) := by
  obtain ⟨wires, rfl⟩ | ⟨readout, word, hreadout, rfl⟩ := hm
  · have hmeasured := mem_measuredWires (s := ofWave ψ) hwires
    refine (succeeds_lift (marginal_eq_ok ψ hmeasured) rfl).bind fun weights hown => ?_
    subst hown
    refine (succeeds_drawWires hψ _).bind fun drawn _ => succeeds_pure ?_
    show Except.ok [_] = Except.ok [_]
    rw [frequencies_eq, Array.size_ofFn, Array.size_ofFn]
    rfl
  · rw [sampled_word sampler rfl hreadout]
    refine (succeeds_sampleWord hψ hwires).bind fun xs hxs => succeeds_pure ?_
    rcases hreadout with rfl | rfl | rfl
    · rfl
    · rfl
    · exact congrArg (fun k => Except.ok [k]) hxs.symm

/-- A trace over the standard gates can be sampled if its output has a shape. -/
theorem exists_simulate_sampled (sampler : Sampler ℝ ρ) (hvalid : t.Valid)
    (hstandard : ∀ op ∈ t.operations, op.Standard) (hnonempty : t.register ≠ 0)
    (hfits : t.register ≤ StateVector.maxWires) (hshots : t.shots.Positive)
    (hms : ∀ m ∈ t.measurements, m.Sampleable) {shape : List ℕ}
    (houtput : t.outputShape = .ok shape) : ∃ T, t.simulate sampler = .ok T := by
  obtain ⟨ψ, hfinal⟩ := exists_finalState hvalid hstandard hnonempty hfits
  have hψ : weight ψ = 1 := weight_of_finalState hvalid hstandard hfinal
  -- The shapes are known before anything is drawn, so results that have them can be packed.
  have hbatches : Succeeds (List.Forall₂ (fun batch own => List.Forall₂ (fun m r =>
      m.outputShape t.register batch = .ok (Tensor.shape r)) t.measurements own) t.shots.batches)
      (t.shots.batches.mapM fun batch =>
        t.measurements.mapM fun m => Simulation.measure sampler (ofWave ψ) m batch) := by
    refine succeeds_mapM fun batch hbatch => succeeds_mapM fun m hm => ?_
    obtain ⟨n, rfl, -⟩ := exists_shots_of_positive hshots hbatch
    exact succeeds_sampled hψ (hms m hm) (hvalid.measurements m hm)
  obtain ⟨rs, s', hrun, hshapes⟩ := hbatches (sampler.start t.fingerprint)
  have hbatchShapes : t.batchShapes = .ok (rs.map fun r => r.map (·.shape)) := by
    refine mapM_of_forall₂ (List.forall₂_map_right_iff.mpr (hshapes.imp fun batch own hown => ?_))
    exact mapM_of_forall₂ (List.forall₂_map_right_iff.mpr hown)
  obtain ⟨T, hpack, -⟩ := packResults_shape houtput hbatchShapes rfl
  refine ⟨T, ?_⟩
  have hresults : results sampler t = .ok rs := by
    unfold results
    rw [hfinal, ok_bind]
    dsimp only
    rw [hrun]
    rfl
  unfold Trace.simulate
  rw [hresults]
  exact hpack

end Waves

/-- Samples, a mean, a variance and probabilities in two batches of three shots, after a rotation
    and a controlled flip. -/
noncomputable def tossed : Trace ℝ :=
  ⟨[⟨StandardGate.ry.spec, [.constant 1], [0]⟩, ⟨StandardGate.cnot.spec, [], [0, 1]⟩],
    [.ofObservable .sample (.word (.single 1 .Y)),
      .ofObservable .expectation (.word (.single 0 .Z)),
      .ofObservable .variance (.word (.single 1 .X)), .probs [1, 0]],
    2, .vector [⟨3, 2⟩], .empty⟩

theorem simulate_sampled_tossed : tossed.shots.Positive ∧ ∀ sampler : Sampler ℝ Unit, ∃ T rs,
    tossed.simulate sampler = .ok T ∧ T.shape = [2, 9] ∧ tossed.unpackResult T = .ok rs ∧
    rs.length = 2 ∧ ∀ own ∈ rs, ∃ xs e v ps,
      own = [.vector xs.toArray, .scalar e, .scalar v, .vector ps] ∧ Signs 3 xs ∧
      -1 ≤ e ∧ e ≤ 1 ∧ 0 ≤ v ∧ v ≤ 1 ∧ (∀ p ∈ ps, ∃ k : ℕ, p = k / 3) ∧ ps.toList.sum = 1 := by
  have hshots : tossed.shots.Positive := List.forall_mem_singleton.mpr (Nat.succ_pos 2)
  refine ⟨hshots, fun sampler => ?_⟩
  have hvalid : tossed.Valid := by
    refine ⟨List.cons_ne_nil _ _, by simp [tossed], ?_⟩
    have hwords : (∀ w ∈ (PauliWord.single 1 .Y).wires, w < 2) ∧
        (∀ w ∈ (PauliWord.single 0 .Z).wires, w < 2) ∧
        ∀ w ∈ (PauliWord.single 1 .X).wires, w < 2 := by decide
    simpa [tossed, Measurement.ofObservable, Measurement.probs, Observable.wires] using hwords
  have hstandard : ∀ op ∈ tossed.operations, op.Standard :=
    List.forall_mem_cons.mpr ⟨⟨.ry, rfl⟩, List.forall_mem_singleton.mpr ⟨.cnot, rfl⟩⟩
  have hms : ∀ m ∈ tossed.measurements, m.Sampleable := by
    refine List.forall_mem_cons.mpr ⟨.inr ⟨_, _, .inr (.inr rfl), rfl⟩, ?_⟩
    refine List.forall_mem_cons.mpr ⟨.inr ⟨_, _, .inl rfl, rfl⟩, ?_⟩
    refine List.forall_mem_cons.mpr ⟨.inr ⟨_, _, .inr (.inl rfl), rfl⟩, ?_⟩
    exact List.forall_mem_singleton.mpr (.inl ⟨_, rfl⟩)
  have houtput : tossed.outputShape = .ok [2, 9] := rfl
  obtain ⟨T, hT⟩ := exists_simulate_sampled sampler hvalid hstandard (by decide) (by decide) hshots
    hms houtput
  obtain ⟨hshape, rs, hunpack, hrs⟩ := simulate_sampled sampler hshots hT
  refine ⟨T, rs, hT, (Except.ok.inj (houtput.symm.trans hshape)).symm, hunpack,
    hrs.length_eq.symm, fun own hown => ?_⟩
  obtain ⟨batch, hbatch, n, rfl, -, hresults⟩ := exists_of_forall₂ hrs.flip hown
  obtain rfl : n = 3 := Option.some.inj (List.eq_of_mem_replicate (n := 2) hbatch)
  -- One result for each of the four measurements.
  obtain ⟨_, _, hsamples, hrs₁, rfl⟩ := List.forall₂_cons_left_iff.mp hresults
  obtain ⟨_, _, hmean, hrs₂, rfl⟩ := List.forall₂_cons_left_iff.mp hrs₁
  obtain ⟨_, _, hvariance, hrs₃, rfl⟩ := List.forall₂_cons_left_iff.mp hrs₂
  obtain ⟨_, _, hprobs, hrs₄, rfl⟩ := List.forall₂_cons_left_iff.mp hrs₃
  obtain rfl := List.forall₂_nil_left_iff.mp hrs₄
  obtain ⟨xs, hxs, rfl⟩ := hsamples.samples rfl
  obtain ⟨-, e, -, -, rfl, he, heone⟩ := hmean.mean _ rfl rfl
  obtain ⟨-, v, -, -, rfl, hv, hvone⟩ := hvariance.variance _ rfl rfl
  obtain ⟨ps, rfl, hps, hsum⟩ := hprobs.probabilities rfl
  exact ⟨xs, e, v, ps, rfl, hxs, he, heone, hv, hvone, hps, hsum⟩

end Traces

end Proofs

end CircuitGrad
