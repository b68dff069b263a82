import Mathlib
import CircuitGrad.Proofs.RisingLists
import CircuitGrad.Proofs.SpectrumStability

/-! # Spectra as sums

    The frequencies of a circuit are found parameter by parameter: those found
    so far are added to those of the next one, and the sums are rounded,
    sorted, and rid of repetitions.  What comes out at the end is what one
    would get at once, the sums of one term from each parameter
    (`Spectrum.IsSum`), a term being a difference of two eigenvalues of the
    generator times the slope of the parameter, rounded.

    A sum of rounded terms is a multiple of `1e-8`, which rounding leaves as
    it is (`nearest_of_isMultiple`), so rounding the intermediate sums changes
    nothing, and neither does removing repetitions.  One parameter adds its
    terms (`tally_addParameter`), and by induction so do all.  As rounding is
    odd (`nearest_neg`), the differences in the other order give the negative
    sums (`spectrum_is_sums`).
-/

namespace CircuitGrad

/-! ## Sums -/

namespace Spectrum

/-- The multiple of `1e-8` nearest to a number, of two the one farther from zero. -/
noncomputable def nearest (x : ℝ) : ℝ := SignType.sign x * ⌊|x| * 10 ^ 8 + 1 / 2⌋ / 10 ^ 8

def IsMultiple (x : ℝ) : Prop := ∃ k : ℤ, x = k / 10 ^ 8

/-- A parameter that depends on an input: how strongly it does, and the eigenvalues of the
    generator of its gate. -/
structure Source where
  slope       : ℝ
  eigenvalues : List ℝ

/-- A frequency of the parameter itself. -/
def Source.Term (s : Source) (f : ℝ) : Prop :=
  ∃ a ∈ s.eigenvalues, ∃ b ∈ s.eigenvalues, f = nearest ((a - b) * s.slope)

/-- The sum of one term from each source. -/
def IsSum (sources : List Source) (f : ℝ) : Prop :=
  ∃ terms, List.Forall₂ Source.Term sources terms ∧ terms.sum = f

open Classical in
/-- The parameter as a source, if it depends on the input. -/
noncomputable def source? (op : Operation ℝ) (input : ℕ) (x : Jet ℝ) : Option Source :=
  if x.slope input = 0 then none
  else some ⟨x.slope input, (op.spec.generator.map (·.eigenvalues)).getD []⟩

/-- The parameters that depend on an input. -/
noncomputable def sources (ops : List (Operation ℝ)) (input : ℕ) : List Source :=
  ops.flatMap fun op => op.params.filterMap (source? op input)

/-- The parameter is an affine function of the inputs, and the generator of its gate has an
    eigenvalue. -/
def Contributes (op : Operation ℝ) (x : Jet ℝ) : Prop :=
  x.isAffine ∧ ∃ g, op.spec.generator = some g ∧ g.eigenvalues ≠ []

/-- The frequencies rise and are exactly the sums of the sources. -/
structure Tally (frequencies : List ℝ) (sources : List Source) : Prop where
  rising  : frequencies.Pairwise (· < ·)
  members : ∀ f, f ∈ frequencies ↔ IsSum sources f

end Spectrum

namespace Proofs

open Spectrum

/-! ## Rounding -/

theorem scalarRound_eq (x : ℝ) :
    (Scalar.round x : ℝ) = SignType.sign x * ⌊|x| + 1 / 2⌋ := by
  show (if 0 ≤ x then ((⌊x + 1 / 2⌋ : ℤ) : ℝ) else ((⌈x - 1 / 2⌉ : ℤ) : ℝ)) = _
  rcases lt_trichotomy x 0 with hneg | rfl | hpos
  · have hceil : ⌈x - 1 / 2⌉ = -⌊-x + 1 / 2⌋ := by
      rw [← Int.ceil_neg]
      congr 1
      ring
    rw [if_neg (not_le.mpr hneg), hceil, sign_neg hneg, abs_of_neg hneg]
    simp
  · norm_num
  · rw [if_pos hpos.le, sign_pos hpos, abs_of_pos hpos]
    simp

/-- The rounding of frequencies is rounding to the nearest multiple. -/
theorem round_eq_nearest (x : ℝ) : Spectrum.round x = nearest x := by
  have hscale : (1e8 : ℝ) = 10 ^ 8 := by norm_num
  have hsame : Spectrum.round x = Scalar.round (x * 1e8) / 1e8 := by
    unfold Spectrum.round
    dsimp only
    split
    · next hzero => exact (eq_of_beq hzero).symm
    · rfl
  have hsign : SignType.sign (x * 10 ^ 8) = SignType.sign x := by
    rw [sign_mul, sign_pos (by positivity : (0 : ℝ) < 10 ^ 8), mul_one]
  rw [hsame, hscale, scalarRound_eq, hsign, abs_mul, abs_of_pos (by positivity : (0 : ℝ) < 10 ^ 8)]
  rfl

theorem nearest_neg (x : ℝ) : nearest (-x) = -nearest x := by
  unfold nearest
  rw [abs_neg, Left.sign_neg]
  push_cast
  ring

theorem isMultiple_nearest (x : ℝ) : IsMultiple (nearest x) :=
  ⟨SignType.sign x * ⌊|x| * 10 ^ 8 + 1 / 2⌋, by unfold nearest; push_cast; rfl⟩

/-- Rounding leaves multiples as they are. -/
theorem nearest_of_isMultiple {x : ℝ} (h : IsMultiple x) : nearest x = x := by
  obtain ⟨k, hk⟩ := h
  have hscaled : |x| * 10 ^ 8 = (|k| : ℤ) := by
    rw [hk, abs_div, abs_of_pos (by positivity : (0 : ℝ) < 10 ^ 8)]
    push_cast
    field_simp
  have hfloor : ⌊((|k| : ℤ) : ℝ) + 1 / 2⌋ = |k| := by
    rw [Int.floor_intCast_add]
    norm_num
  unfold nearest
  rw [hscaled, hfloor, ← hscaled, ← mul_assoc, sign_mul_abs]
  field_simp

theorem isMultiple_add {x y : ℝ} (hx : IsMultiple x) (hy : IsMultiple y) : IsMultiple (x + y) := by
  obtain ⟨j, rfl⟩ := hx
  obtain ⟨k, rfl⟩ := hy
  exact ⟨j + k, by push_cast; ring⟩

/-! ## Normal forms -/

theorem mem_normalize {f : ℝ} {fs : List ℝ} :
    f ∈ Spectrum.normalize fs ↔ ∃ g ∈ fs, f = nearest g := by
  unfold Spectrum.normalize
  rw [mem_eraseReps_iff, List.mem_mergeSort, List.mem_map]
  simp only [round_eq_nearest, eq_comm]

theorem rising_normalize (fs : List ℝ) : (Spectrum.normalize fs).Pairwise (· < ·) := by
  have hsorted : ((fs.map Spectrum.round).mergeSort Scalar.totalLe).Pairwise
      fun a b => (Scalar.totalLe a b : Bool) = true := by
    refine List.pairwise_mergeSort ?_ ?_ _
    · intro a b c hab hbc
      exact decide_eq_true ((of_decide_eq_true hab).trans (of_decide_eq_true hbc))
    · intro a b
      show (decide (a ≤ b) || decide (b ≤ a)) = true
      simpa using le_total a b
  exact rising_eraseReps (hsorted.imp fun h => of_decide_eq_true h)

theorem mem_sums {f : ℝ} {fs others : List ℝ} (hfs : ∀ a ∈ fs, IsMultiple a)
    (hothers : ∀ b ∈ others, IsMultiple b) :
    f ∈ Spectrum.sums fs others ↔ ∃ a ∈ fs, ∃ b ∈ others, f = a + b := by
  unfold Spectrum.sums
  rw [mem_normalize]
  constructor
  · rintro ⟨g, hg, rfl⟩
    obtain ⟨a, ha, hg⟩ := List.mem_flatMap.mp hg
    obtain ⟨b, hb, rfl⟩ := List.mem_map.mp hg
    exact ⟨a, ha, b, hb, nearest_of_isMultiple (isMultiple_add (hfs a ha) (hothers b hb))⟩
  · rintro ⟨a, ha, b, hb, rfl⟩
    refine ⟨a + b, List.mem_flatMap.mpr ⟨a, ha, List.mem_map_of_mem hb⟩, ?_⟩
    exact (nearest_of_isMultiple (isMultiple_add (hfs a ha) (hothers b hb))).symm

/-! ## Sums of terms -/

section Sums

variable {s : Source} {ss ss' : List Source} {f : ℝ}

theorem isSum_nil : IsSum [] f ↔ f = 0 := by
  unfold IsSum
  simp [eq_comm]

theorem isSum_cons : IsSum (s :: ss) f ↔ ∃ a, s.Term a ∧ ∃ g, IsSum ss g ∧ f = a + g := by
  constructor
  · rintro ⟨_, hterms, rfl⟩
    cases hterms with
    | cons ha hterms => exact ⟨_, ha, _, ⟨_, hterms, rfl⟩, List.sum_cons⟩
  · rintro ⟨a, ha, _, ⟨terms, hterms, rfl⟩, rfl⟩
    exact ⟨a :: terms, .cons ha hterms, List.sum_cons⟩

theorem isSum_perm (h : ss.Perm ss') (f : ℝ) : IsSum ss f ↔ IsSum ss' f := by
  induction h generalizing f with
  | nil => rfl
  | cons s _ ih => simp only [isSum_cons, ih]
  | swap s s' ss =>
    simp only [isSum_cons]
    constructor
    all_goals
      rintro ⟨a, ha, _, ⟨b, hb, g, hg, rfl⟩, rfl⟩
      exact ⟨b, hb, a + g, ⟨a, ha, g, hg, rfl⟩, by ring⟩
  | trans _ _ ih ih' => rw [ih, ih']

theorem isMultiple_term (h : s.Term f) : IsMultiple f := by
  obtain ⟨a, -, b, -, rfl⟩ := h
  exact isMultiple_nearest _

theorem isMultiple_of_isSum (h : IsSum ss f) : IsMultiple f := by
  induction ss generalizing f with
  | nil => exact ⟨0, by simpa using isSum_nil.mp h⟩
  | cons s ss ih =>
    obtain ⟨a, ha, g, hg, rfl⟩ := isSum_cons.mp h
    exact isMultiple_add (isMultiple_term ha) (ih hg)

theorem term_neg (h : s.Term f) : s.Term (-f) := by
  obtain ⟨a, ha, b, hb, rfl⟩ := h
  refine ⟨b, hb, a, ha, ?_⟩
  rw [← nearest_neg]
  congr 1
  ring

/-- The differences in the other order have the negative sum. -/
theorem isSum_neg (h : IsSum ss f) : IsSum ss (-f) := by
  induction ss generalizing f with
  | nil =>
    obtain rfl := isSum_nil.mp h
    exact isSum_nil.mpr neg_zero
  | cons s ss ih =>
    obtain ⟨a, ha, g, hg, rfl⟩ := isSum_cons.mp h
    exact isSum_cons.mpr ⟨-a, term_neg ha, -g, ih hg, neg_add a g⟩

/-- Each eigenvalue minus itself makes the sum zero. -/
theorem isSum_zero (h : ∀ s ∈ ss, s.eigenvalues ≠ []) : IsSum ss 0 := by
  induction ss with
  | nil => exact isSum_nil.mpr rfl
  | cons s ss ih =>
    obtain ⟨hfirst, hrest⟩ := List.forall_mem_cons.mp h
    obtain ⟨a, ha⟩ := List.exists_mem_of_ne_nil _ hfirst
    have hzero : nearest ((a - a) * s.slope) = 0 := by simp [nearest]
    exact isSum_cons.mpr ⟨0, ⟨a, ha, a, ha, hzero.symm⟩, 0, ih hrest, (add_zero 0).symm⟩

theorem tally_perm (h : ss.Perm ss') {frequencies : List ℝ} (hall : Tally frequencies ss) :
    Tally frequencies ss' where
  rising := hall.rising
  members := fun f => (hall.members f).trans (isSum_perm h f)

/-- The sums of the same sources are listed in one way. -/
theorem tally_unique {frequencies frequencies' : List ℝ} (h : Tally frequencies ss)
    (h' : Tally frequencies' ss) : frequencies = frequencies' :=
  eq_of_rising (fun _ _ => lt_asymm) h.rising h'.rising fun f =>
    (h.members f).trans (h'.members f).symm

end Sums

/-! ## One parameter after the other -/

section Parameters

variable {op : Operation ℝ} {x : Jet ℝ} {input : ℕ} {frequencies : List ℝ} {done : List Source}

theorem mem_ownFrequencies (g : Generator ℝ) (slope f : ℝ) :
    f ∈ Spectrum.normalize (g.frequencies.map fun d => d * slope) ↔
      Source.Term ⟨slope, g.eigenvalues⟩ f := by
  rw [mem_normalize]
  constructor
  · rintro ⟨_, hmem, rfl⟩
    obtain ⟨d, hd, rfl⟩ := List.mem_map.mp hmem
    obtain ⟨a, ha, hd⟩ := List.mem_flatMap.mp hd
    obtain ⟨b, hb, rfl⟩ := List.mem_map.mp hd
    exact ⟨a, ha, b, hb, rfl⟩
  · rintro ⟨a, ha, b, hb, rfl⟩
    exact ⟨_, List.mem_map_of_mem (List.mem_flatMap.mpr ⟨a, ha, List.mem_map_of_mem hb⟩), rfl⟩

/-- A source adds each of its terms to each frequency found so far. -/
theorem tally_sums (h : Tally frequencies done) (g : Generator ℝ) (slope : ℝ) :
    Tally (Spectrum.sums frequencies (Spectrum.normalize (g.frequencies.map fun f => f * slope)))
      (⟨slope, g.eigenvalues⟩ :: done) where
  rising := rising_normalize _
  members := by
    intro f
    have hown := mem_ownFrequencies g slope
    rw [mem_sums (fun a ha => isMultiple_of_isSum ((h.members a).mp ha))
      (fun b hb => isMultiple_term ((hown b).mp hb)), isSum_cons]
    constructor
    · rintro ⟨a, ha, b, hb, rfl⟩
      exact ⟨b, (hown b).mp hb, a, (h.members a).mp ha, add_comm a b⟩
    · rintro ⟨b, hb, a, ha, rfl⟩
      exact ⟨a, (h.members a).mpr ha, b, (hown b).mpr hb, add_comm b a⟩

/-- One parameter is added as a source, or passed over. -/
theorem tally_addParameter (h : Tally frequencies done)
    (hx : x.slope input ≠ 0 → Contributes op x) :
    ∃ frequencies', Spectrum.addParameter op input frequencies x = .ok frequencies' ∧
      Tally frequencies' ((source? op input x).toList ++ done) := by
  by_cases hslope : x.slope input = 0
  · refine ⟨frequencies, by simp [Spectrum.addParameter, hslope], ?_⟩
    simpa [source?, hslope] using h
  · obtain ⟨haffine, g, hg, -⟩ := hx hslope
    refine ⟨Spectrum.sums frequencies
      (Spectrum.normalize (g.frequencies.map fun f => f * x.slope input)), ?_, ?_⟩
    · simp [Spectrum.addParameter, hslope, haffine, hg]
    · simpa [source?, hslope, hg] using tally_sums h g (x.slope input)

theorem tally_params {params : List (Jet ℝ)} (h : Tally frequencies done)
    (hparams : ∀ x ∈ params, x.slope input ≠ 0 → Contributes op x) :
    ∃ frequencies', params.foldlM (Spectrum.addParameter op input) frequencies =
        .ok frequencies' ∧
      Tally frequencies' (params.filterMap (source? op input) ++ done) := by
  induction params generalizing frequencies done with
  | nil => exact ⟨frequencies, rfl, h⟩
  | cons x rest ih =>
    obtain ⟨hfirst, hrest⟩ := List.forall_mem_cons.mp hparams
    obtain ⟨next, hnext, htally⟩ := tally_addParameter h hfirst
    obtain ⟨last, hlast, htally⟩ := ih htally hrest
    have hsplit : (x :: rest).filterMap (source? op input) =
        (source? op input x).toList ++ rest.filterMap (source? op input) := by
      rw [List.filterMap_cons]
      cases source? op input x <;> rfl
    refine ⟨last, by rw [List.foldlM_cons, hnext, ok_bind, hlast], tally_perm ?_ htally⟩
    rw [hsplit, ← List.append_assoc]
    exact List.perm_append_comm.append_right done

theorem tally_operations {ops : List (Operation ℝ)} (h : Tally frequencies done)
    (hops : ∀ op ∈ ops, ∀ x ∈ op.params, x.slope input ≠ 0 → Contributes op x) :
    ∃ frequencies', ops.foldlM (fun frequencies op =>
        op.params.foldlM (Spectrum.addParameter op input) frequencies) frequencies =
        .ok frequencies' ∧
      Tally frequencies' (sources ops input ++ done) := by
  induction ops generalizing frequencies done with
  | nil => exact ⟨frequencies, rfl, h⟩
  | cons op rest ih =>
    obtain ⟨hfirst, hrest⟩ := List.forall_mem_cons.mp hops
    obtain ⟨next, hnext, htally⟩ := tally_params h hfirst
    obtain ⟨last, hlast, htally⟩ := ih htally hrest
    refine ⟨last, by rw [List.foldlM_cons, hnext, ok_bind, hlast], tally_perm ?_ htally⟩
    have hsplit : sources (op :: rest) input =
        op.params.filterMap (source? op input) ++ sources rest input := List.flatMap_cons
    rw [hsplit, ← List.append_assoc]
    exact List.perm_append_comm.append_right done

/-- The frequencies in an input are the sums of the parameters that depend on it. -/
theorem tally_ofInput {ops : List (Operation ℝ)}
    (hops : ∀ op ∈ ops, ∀ x ∈ op.params, x.slope input ≠ 0 → Contributes op x) :
    ∃ frequencies, Spectrum.ofInput ops input = .ok frequencies ∧
      Tally frequencies (sources ops input) := by
  have hstart : Tally [0] [] :=
    ⟨List.pairwise_singleton _ _, fun f => List.mem_singleton.trans isSum_nil.symm⟩
  obtain ⟨frequencies, hfrequencies, htally⟩ := tally_operations hstart hops
  rw [List.append_nil] at htally
  exact ⟨frequencies, hfrequencies, htally⟩

end Parameters

/-! ## Traces -/

theorem mapM_perm {ε β γ : Type} {f : β → Except ε γ} {xs ys : List β} (hperm : xs.Perm ys)
    {rs : List γ} (h : xs.mapM f = .ok rs) : ∃ rs', ys.mapM f = .ok rs' ∧ rs.Perm rs' := by
  induction hperm generalizing rs with
  | nil => exact ⟨rs, h, .refl _⟩
  | cons x _ ih =>
    obtain ⟨r, rest, hr, hrest, rfl⟩ := mapM_cons_eq_ok h
    obtain ⟨rest', hrest', hperm⟩ := ih hrest
    refine ⟨r :: rest', ?_, hperm.cons r⟩
    rw [List.mapM_cons, hr, hrest']
    rfl
  | swap x y xs =>
    obtain ⟨r, inner, hr, hinner, rfl⟩ := mapM_cons_eq_ok h
    obtain ⟨r', rest, hr', hrest, rfl⟩ := mapM_cons_eq_ok hinner
    have hswapped : (y :: xs).mapM f = .ok (r :: rest) := by
      rw [List.mapM_cons, hr, hrest]
      rfl
    refine ⟨r' :: r :: rest, ?_, .swap r' r rest⟩
    rw [List.mapM_cons, hr', hswapped]
    rfl
  | trans _ _ ih ih' =>
    obtain ⟨rs', hrs', hperm⟩ := ih h
    obtain ⟨rs'', hrs'', hperm'⟩ := ih' hrs'
    exact ⟨rs'', hrs'', hperm.trans hperm'⟩

section Traces

variable {table : GateTable ℝ} {t u : Trace ℝ} {argument start count : ℕ}

/-- Operations are expanded one by one, so the expansion is permuted as they are. -/
theorem expand_perm {depth : ℕ} {stop : Criterion ℝ} (hexpand : t.expand table depth stop = .ok u)
    {ops : List (Operation ℝ)} (hops : ops.Perm t.operations) :
    ∃ u', ({ t with operations := ops } : Trace ℝ).expand table depth stop = .ok u' ∧
      u'.operations.Perm u.operations := by
  by_cases hdepth : depth = 0
  · subst hdepth
    obtain rfl : t = u := Except.ok.inj hexpand
    exact ⟨_, rfl, hops⟩
  · obtain ⟨hzero, -⟩ | ⟨results, hresults, rfl, hvalid⟩ := expand_cases hexpand
    · exact absurd hzero hdepth
    · obtain ⟨results', hresults', hperm⟩ := mapM_perm hops.symm hresults
      have hflat : results'.flatten.Perm results.flatten := hperm.symm.flatten
      refine ⟨{ t with operations := results'.flatten }, ?_, hflat⟩
      unfold Trace.expand GateTable.expandOperations
      rw [if_neg hdepth, hresults']
      exact check_eq_ok_iff.mpr ⟨rfl, hvalid.measured,
        fun op hop => hvalid.operations op (hflat.mem_iff.mp hop), hvalid.measurements⟩

theorem sources_perm {ops ops' : List (Operation ℝ)} (h : ops.Perm ops') (input : ℕ) :
    (sources ops input).Perm (sources ops' input) := h.flatMap_right _

theorem eigenvalues_sources {ops : List (Operation ℝ)} {input : ℕ}
    (hops : ∀ op ∈ ops, ∀ x ∈ op.params, x.slope input ≠ 0 → Contributes op x) :
    ∀ s ∈ sources ops input, s.eigenvalues ≠ [] := by
  intro s hs
  obtain ⟨op, hop, hs⟩ := List.mem_flatMap.mp hs
  obtain ⟨x, hx, hs⟩ := List.mem_filterMap.mp hs
  unfold source? at hs
  split at hs
  · exact nomatch hs
  · next hslope =>
    obtain rfl := Option.some.inj hs
    obtain ⟨-, g, hg, heigenvalues⟩ := hops op hop x hx hslope
    simpa [hg] using heigenvalues

/-- Where every parameter that depends on the argument contributes, the spectrum lists for
    each of its entries the sums of one term from each parameter that depends on the entry, in
    rising order; zero is among them, and with each its negative.  The operations may come in
    any order. -/
theorem spectrum_is_sums (hinputs : t.layout.inputs? argument = some (start, count))
    (hexpand : t.expand table defaultGradientDepth Spectrum.criterion = .ok u)
    (hparams : ∀ op ∈ u.operations, ∀ x ∈ op.params, ∀ i < count,
      x.slope (start + i) ≠ 0 → Contributes op x) :
    ∃ S, t.spectrum table argument = .ok S ∧ S.length = count ∧
      (∀ i < count, ∃ frequencies, S[i]? = some frequencies ∧
        frequencies.Pairwise (· < ·) ∧
        (∀ f, f ∈ frequencies ↔ IsSum (sources u.operations (start + i)) f) ∧
        0 ∈ frequencies ∧ ∀ f ∈ frequencies, -f ∈ frequencies) ∧
      ∀ ops, ops.Perm t.operations →
        ({ t with operations := ops } : Trace ℝ).spectrum table argument = .ok S := by
  have hentry : ∀ i < count, ∀ op ∈ u.operations, ∀ x ∈ op.params,
      x.slope (start + i) ≠ 0 → Contributes op x :=
    fun i hi op hop x hx => hparams op hop x hx i hi
  have htally := fun i hi => tally_ofInput (hentry i hi)
  obtain ⟨S, hS⟩ : ∃ S, (List.range count).mapM
      (fun i => Spectrum.ofInput u.operations (start + i)) = .ok S := by
    refine exists_mapM_eq_ok fun i hi => ?_
    obtain ⟨frequencies, hfrequencies, -⟩ := htally i (List.mem_range.mp hi)
    exact ⟨frequencies, hfrequencies⟩
  rw [spectrum_eq hinputs hexpand]
  refine ⟨S, hS, by simpa using length_of_mapM hS, fun i hi => ?_, fun ops hops => ?_⟩
  · have hindex : (List.range count)[i]? = some i := by simp [hi]
    obtain ⟨frequencies, hget, hown⟩ :=
      getElem?_of_forall₂ (forall₂_of_mapM (fun _ _ _ => id) hS) hindex
    obtain ⟨_, hfrequencies, hall⟩ := htally i hi
    obtain rfl := Except.ok.inj (hown.symm.trans hfrequencies)
    refine ⟨frequencies, hget, hall.rising, hall.members, ?_, fun f hf => ?_⟩
    · exact (hall.members 0).mpr (isSum_zero (eigenvalues_sources (hentry i hi)))
    · exact (hall.members (-f)).mpr (isSum_neg ((hall.members f).mp hf))
  · obtain ⟨u', hexpand', hperm⟩ := expand_perm hexpand hops
    have hinputs' : ({ t with operations := ops } : Trace ℝ).layout.inputs? argument =
        some (start, count) := hinputs
    rw [spectrum_eq hinputs' hexpand', ← hS]
    refine mapM_congr fun i hi => ?_
    have hlt := List.mem_range.mp hi
    -- Both lists are those of the same sums.
    obtain ⟨frequencies, hfrequencies, hall⟩ := htally i hlt
    obtain ⟨frequencies', hfrequencies', hall'⟩ := tally_ofInput fun op hop =>
      hentry i hlt op (hperm.mem_iff.mp hop)
    rw [hfrequencies, hfrequencies',
      tally_unique (tally_perm (sources_perm hperm (start + i)) hall') hall]

end Traces

/-! ## Rounded terms -/

/-- A third of the only input, to nine decimals. -/
noncomputable def third : Jet ℝ := (Jet.constant 0.333333333).mul (.seed 0.1 0 1 false)

/-- Two rotations by a third of the input. -/
noncomputable def thirds : Trace ℝ :=
  { rotation third with
    operations := [⟨StandardGate.rx.spec, [third], [0]⟩, ⟨StandardGate.ry.spec, [third], [0]⟩] }

theorem slope_third : third.slope 0 = 0.333333333 := by
  have hseed : (Jet.seed (0.1 : ℝ) 0 1 false).slope 0 = 1 := rfl
  have hconstant : (Jet.constant (0.333333333 : ℝ)).slope 0 = 0 := rfl
  have hvalue : (Jet.constant (0.333333333 : ℝ)).value = 0.333333333 := rfl
  unfold third
  rw [slope_mul, hseed, hconstant, hvalue, mul_one, mul_zero, add_zero]

theorem nearest_third : nearest 0.333333333 = 33333333 / 10 ^ 8 := by
  have hfloor : ⌊|(0.333333333 : ℝ)| * 10 ^ 8 + 1 / 2⌋ = 33333333 := by
    rw [abs_of_pos (by norm_num), Int.floor_eq_iff]
    norm_num
  unfold nearest
  rw [hfloor, sign_pos (by norm_num)]
  norm_num

/-- Each third is rounded before it is added, so their sum is not the nearest multiple to two
    thirds. -/
theorem spectrum_is_sums_thirds : ∃ S frequencies, thirds.spectrum ⟨#[]⟩ 0 = .ok S ∧
    S[0]? = some frequencies ∧ frequencies.Pairwise (· < ·) ∧
    (66666666 / 10 ^ 8 : ℝ) ∈ frequencies ∧ (-(66666666 / 10 ^ 8) : ℝ) ∈ frequencies := by
  have hgenerator : ∀ op ∈ thirds.operations,
      op.spec.generator = some ⟨[-0.5, 0.5], true⟩ ∧ op.params = [third] :=
    List.forall_mem_cons.mpr ⟨⟨rfl, rfl⟩, List.forall_mem_singleton.mpr ⟨rfl, rfl⟩⟩
  have hcontributes : ∀ op ∈ thirds.operations, ∀ x ∈ op.params, ∀ i < 1,
      x.slope (0 + i) ≠ 0 → Contributes op x := by
    intro op hop x hx _ _ _
    obtain ⟨hspec, hparams⟩ := hgenerator op hop
    obtain rfl := List.mem_singleton.mp (hparams ▸ hx)
    exact ⟨rfl, _, hspec, List.cons_ne_nil _ _⟩
  have hinputs : thirds.layout.inputs? 0 = some (0, 1) := rfl
  have hexpand : thirds.expand ⟨#[]⟩ defaultGradientDepth Spectrum.criterion = .ok thirds := rfl
  obtain ⟨S, hS, -, hentries, -⟩ := spectrum_is_sums hinputs hexpand hcontributes
  obtain ⟨frequencies, hget, hrising, hmembers, -, hneg⟩ := hentries 0 one_pos
  have hsources : sources thirds.operations 0 =
      [⟨0.333333333, [-0.5, 0.5]⟩, ⟨0.333333333, [-0.5, 0.5]⟩] := by
    have hne : (0.333333333 : ℝ) ≠ 0 := by norm_num
    simp [sources, source?, thirds, slope_third, hne, StandardGate.spec, StandardGate.generator]
  have hterm : Source.Term ⟨0.333333333, [-0.5, 0.5]⟩ (33333333 / 10 ^ 8) := by
    refine ⟨0.5, by simp, -0.5, by simp, ?_⟩
    rw [← nearest_third]
    norm_num
  have hsum : (66666666 / 10 ^ 8 : ℝ) ∈ frequencies := by
    rw [hmembers, Nat.add_zero, hsources]
    refine ⟨_, .cons hterm (.cons hterm .nil), ?_⟩
    norm_num
  exact ⟨S, frequencies, hS, hget, hrising, hsum, hneg _ hsum⟩

end Proofs

end CircuitGrad
