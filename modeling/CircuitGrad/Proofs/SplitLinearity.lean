import Mathlib
import CircuitGrad.Proofs.DecomposedState
import CircuitGrad.Proofs.ParameterDerivative
import CircuitGrad.Proofs.SplitExactness
import CircuitGrad.Proofs.TrailingDimensions

/-! # Splittings are linear

    A splitting folds results by weighted sums whose weights do not depend on
    the results.  So what weighted sums keep passes from the parts to the trace:
    if each entry of the parts' results is related to the exact output of its
    part, as a derivative is to a function, then each entry of the folded
    result is related to the exact output of the trace (`recombine_reads`,
    and slice by slice `fold_reads`).
-/

namespace CircuitGrad

/-- A relation between functions and numbers that is kept by weighted sums. -/
structure Linear {V : Type} (R : (V → ℝ) → ℝ → Prop) : Prop where
  zero : R (fun _ => 0) 0
  add  : ∀ {f g x y} (k : ℝ), R f x → R g y → R (fun v => k * f v + g v) (k * x + y)

theorem Linear.sum {V ι : Type} {R : (V → ℝ) → ℝ → Prop} (hR : Linear R) {items : List ι}
    (weight : ι → ℝ) {f : ι → V → ℝ} {x : ι → ℝ} (h : ∀ i ∈ items, R (f i) (x i)) :
    R (fun v => (items.map fun i => weight i * f i v).sum)
      ((items.map fun i => weight i * x i).sum) := by
  induction items with
  | nil => exact hR.zero
  | cons i items ih =>
    obtain ⟨hi, hrest⟩ := List.forall_mem_cons.mp h
    simpa only [List.map_cons, List.sum_cons] using hR.add (weight i) hi (ih hrest)

namespace Proofs

variable {V : Type} {n : ℕ} {R : (V → ℝ) → ℝ → Prop} {ψ : V → Wave n}

/-- The entries of a result are related to those of the measurement in a family of
    waves. -/
structure Matches (R : (V → ℝ) → ℝ → Prop) (ψ : V → Wave n) (m : Measurement ℝ)
    (r : Tensor ℝ) : Prop where
  shape : r.shape = shapeOf n m
  entry : ∀ q < Tensor.volume (shapeOf n m), R (fun v => (outcome m (ψ v)).entry q) (r.entry q)

/-! ## Packed results -/

section Packed

variable {ms : List (Measurement ℝ)} {rs : List (Tensor ℝ)}

/-- Results that match are packed to entries related to the readings. -/
theorem reading_of_matches (hR : Linear R) (hms : ∀ m ∈ ms, m.Differentiable)
    (h : List.Forall₂ (Matches R ψ) ms rs) (o : ℕ) :
    R (fun v => reading ms o (ψ v)) ((rs.flatMap (·.data.toList)).getD o 0) := by
  induction h generalizing o with
  | nil => exact hR.zero
  | @cons m r ms rs hr _ ih =>
    obtain ⟨hm, hrest⟩ := List.forall_mem_cons.mp hms
    simp only [reading_cons hm, getD_data_cons, hr.shape]
    by_cases ho : o < Tensor.volume (shapeOf n m)
    · simpa only [if_pos ho] using hr.entry o ho
    · simpa only [if_neg ho] using ih hrest _

/-- Results whose packed entries are related to the readings match. -/
theorem matches_of_reading (hms : ∀ m ∈ ms, m.Differentiable)
    (hshapes : rs.map (·.shape) = ms.map (shapeOf n))
    (h : ∀ o, R (fun v => reading ms o (ψ v)) ((rs.flatMap (·.data.toList)).getD o 0)) :
    List.Forall₂ (Matches R ψ) ms rs := by
  induction ms generalizing rs with
  | nil =>
    obtain rfl := List.map_eq_nil_iff.mp hshapes
    exact .nil
  | cons m ms ih =>
    obtain ⟨r, rs, rfl, hr, hrs⟩ := List.map_eq_cons_iff.mp hshapes
    obtain ⟨hm, hrest⟩ := List.forall_mem_cons.mp hms
    simp only [reading_cons hm, getD_data_cons, hr] at h
    refine .cons ⟨hr, fun q hq => ?_⟩ (ih hrest hrs fun o => ?_)
    · simpa only [if_pos hq] using h q
    · have hshift := h (Tensor.volume (shapeOf n m) + o)
      simpa using hshift

end Packed

/-! ## Contributions -/

/-- The contributions come from the shares, and each matches its share's measurement. -/
structure Supplies (R : (V → ℝ) → ℝ → Prop) (ψ : V → Wave n) (shares : List (Share ℝ))
    (cs : List (Splitting.Contribution ℝ)) : Prop where
  shares  : (cs.map (·.share)).Perm shares
  matched : ∀ c ∈ cs, c.batch = 0 ∧ Matches R ψ c.share.measurement c.result

theorem Supplies.append {shares more : List (Share ℝ)}
    {cs others : List (Splitting.Contribution ℝ)} (h : Supplies R ψ shares cs)
    (h' : Supplies R ψ more others) : Supplies R ψ (shares ++ more) (cs ++ others) := by
  refine ⟨?_, fun c hc => (List.mem_append.mp hc).elim (h.matched c) (h'.matched c)⟩
  rw [List.map_append]
  exact h.shares.append h'.shares

/-- Shares of a differentiable measurement are differentiable and of its shape. -/
theorem differentiable_of_sharedAs {m : Measurement ℝ} (hm : m.Differentiable) {parent : ℕ}
    {own : List (Share ℝ)} (h : m.SharedAs parent own) :
    ∀ share ∈ own, share.measurement.Differentiable ∧
      shapeOf n share.measurement = shapeOf n m := by
  cases h with
  | whole => exact List.forall_mem_singleton.mpr ⟨hm, rfl⟩
  | terms hreadout _ =>
    refine List.forall_mem_map.mpr fun e _ => ⟨.inl ⟨_, rfl⟩, ?_⟩
    unfold shapeOf
    rw [hreadout]
    rfl

section Recombination

variable {t : Trace ℝ} {ψ : V → Wave t.register} {shares : List (Share ℝ)}
  {parts : List (Splitting.Part ℝ)}

/-- The entries of a result are related to the readings of its trace in the family. -/
def Reads (R : (V → ℝ) → ℝ → Prop) (ψ : V → Wave t.register) (ms : List (Measurement ℝ))
    (r : Tensor ℝ) : Prop :=
  r.shape = (Packing.ofShapes (ms.map (shapeOf t.register))).shape ∧
    ∀ o, R (fun v => reading ms o (ψ v)) (r.entry o)

/-- Beyond the packed entries there is nothing to read. -/
theorem reading_eq_zero {n : ℕ} {ms : List (Measurement ℝ)} (hms : ∀ m ∈ ms, m.Differentiable)
    (ψ : Wave n) {o : ℕ} (ho : Tensor.volume (Packing.ofShapes (ms.map (shapeOf n))).shape ≤ o) :
    reading ms o ψ = 0 := by
  have hshapes : (ms.map fun m => outcome m ψ).map (·.shape) = ms.map (shapeOf n) := by
    rw [List.map_map]
    exact List.map_congr_left fun m hm => shape_outcome (hms m hm) ψ
  obtain ⟨T, -, hshape, hdata⟩ := pack_ofShapes hshapes
  have hreading : reading ms o ψ = T.data.toList.getD o 0 := by
    rw [hdata, List.flatMap_map]
    rfl
  rw [hreading, ← entry_eq_getD]
  refine entry_eq_zero ?_
  rwa [hshape]

/-- Only the packed entries matter. -/
theorem reads_of_entries (hR : Linear R) {ms : List (Measurement ℝ)}
    (hms : ∀ m ∈ ms, m.Differentiable) {r : Tensor ℝ}
    (hshape : r.shape = (Packing.ofShapes (ms.map (shapeOf t.register))).shape)
    (h : ∀ o < Tensor.volume r.shape, R (fun v => reading ms o (ψ v)) (r.entry o)) :
    Reads R ψ ms r := by
  refine ⟨hshape, fun o => ?_⟩
  by_cases ho : o < Tensor.volume r.shape
  · exact h o ho
  · have hzero : ∀ v, reading ms o (ψ v) = 0 := fun v =>
      reading_eq_zero hms (ψ v) (by rw [← hshape]; omega)
    simp only [hzero, entry_eq_zero (Nat.le_of_not_lt ho)]
    exact hR.zero

theorem differentiable_of_shared (hms : ∀ m ∈ t.measurements, m.Differentiable)
    (hshared : t.Shared shares) : ∀ share ∈ shares, share.measurement.Differentiable := by
  intro share hshare
  have hk := hshared.parents share hshare
  have he : (t.measurements[share.parent], share.parent) ∈ t.measurements.zipIdx :=
    List.mem_zipIdx_iff_getElem?.mpr (List.getElem?_eq_getElem hk)
  have hmem : share ∈ shares.filter fun s => s.parent == share.parent :=
    List.mem_filter.mpr ⟨hshare, beq_self_eq_true _⟩
  exact (differentiable_of_sharedAs (n := t.register) (hms _ (List.getElem_mem hk))
    (hshared.own _ he) share hmem).1

/-- A part's result is taken apart to contributions of its shares. -/
theorem supplies_contributions {part : Splitting.Part ℝ} {r : Tensor ℝ}
    (hshots : t.shots = .analytic)
    (htrace : part.trace = { t with measurements := part.shares.map (·.measurement) })
    (hms : ∀ share ∈ part.shares, share.measurement.Differentiable)
    (hr : Reads R ψ (part.shares.map (·.measurement)) r) :
    ∃ cs, part.contributions r = .ok cs ∧ Supplies R ψ part.shares cs := by
  have hms' : ∀ m ∈ part.trace.measurements, m.Differentiable := by
    rw [htrace]
    exact List.forall_mem_map.mpr hms
  have hanalytic : part.trace.shots = .analytic := by
    rw [htrace]
    exact hshots
  have hshape : r.shape = (layoutOf part.trace).shape := by
    rw [htrace]
    exact hr.1
  obtain ⟨rs, hunpack, hshapes, hdata⟩ := unpackResult_eq hms' hanalytic hshape
  rw [htrace] at hms' hshapes
  have hmatches : List.Forall₂ (Matches R ψ) (part.shares.map (·.measurement)) rs := by
    refine matches_of_reading hms' hshapes fun o => ?_
    rw [hdata, ← entry_eq_getD]
    exact hr.2 o
  rw [List.forall₂_map_left_iff] at hmatches
  refine ⟨(part.shares.zip rs).map fun e => ⟨0, e.1, e.2⟩, ?_, ?_, ?_⟩
  · unfold Splitting.Part.contributions
    rw [hunpack, ok_bind]
    exact congrArg Except.ok (List.append_nil _)
  · rw [List.map_map]
    exact .of_eq (List.map_fst_zip hmatches.length_eq.le)
  · refine List.forall_mem_map.mpr fun e he => ⟨rfl, ?_⟩
    exact (List.forall₂_iff_zip.mp hmatches).2 he

/-- All parts' results are taken apart to contributions of all shares. -/
theorem mapM_supplies (hshots : t.shots = .analytic) {rs : List (Tensor ℝ)}
    (htraces : ∀ part ∈ parts,
      part.trace = { t with measurements := part.shares.map (·.measurement) })
    (hms : ∀ part ∈ parts, ∀ share ∈ part.shares, share.measurement.Differentiable)
    (hrs : List.Forall₂ (fun part r => Reads R ψ (part.shares.map (·.measurement)) r) parts rs) :
    ∃ css, ((parts.zip rs).mapM fun (p, r) => p.contributions r) = .ok css ∧
      Supplies R ψ (parts.flatMap (·.shares)) css.flatten := by
  induction hrs with
  | nil => exact ⟨[], rfl, .refl _, by simp⟩
  | cons hr _ ih =>
    obtain ⟨hfirst, hothers⟩ := List.forall_mem_cons.mp htraces
    obtain ⟨hown, hmore⟩ := List.forall_mem_cons.mp hms
    obtain ⟨cs, hcs, hsupplied⟩ := supplies_contributions hshots hfirst hown hr
    obtain ⟨css, hcss, hrest⟩ := ih hothers hmore
    refine ⟨cs :: css, ?_, ?_⟩
    · rw [List.zip_cons_cons, List.mapM_cons]
      simp only [hcs, hcss]
      rfl
    · rw [List.flatMap_cons, List.flatten_cons]
      exact hsupplied.append hrest

/-- The contributions to a measurement are those of its shares. -/
theorem shares_of_collected {cs : List (Splitting.Contribution ℝ)} (hcs : Supplies R ψ shares cs)
    (parent : ℕ) :
    ((cs.filter fun c => c.batch == 0 && c.share.parent == parent).map (·.share)).Perm
      (shares.filter fun share => share.parent == parent) := by
  have hfilter : (cs.filter fun c => c.batch == 0 && c.share.parent == parent) =
      cs.filter fun c => c.share.parent == parent := by
    refine List.filter_congr fun c hc => ?_
    rw [(hcs.matched c hc).1, beq_self_eq_true, Bool.true_and]
  have hmap : ((cs.filter fun c => c.share.parent == parent).map (·.share)) =
      (cs.map (·.share)).filter fun share => share.parent == parent := by
    rw [List.filter_map]
    rfl
  rw [hfilter, hmap]
  exact hcs.shares.filter _

/-- In a wave, a measurement is the weighted sum of its shares, in any order. -/
theorem entry_outcome_of_shares {m : Measurement ℝ} (hm : m.Differentiable) (hterms : m.HasTerms)
    (hwires : ∀ w ∈ m.wires, w < n) {parent : ℕ} {own : List (Share ℝ)}
    (hshared : m.SharedAs parent own) {others : List (Share ℝ)} (hperm : others.Perm own)
    (φ : Wave n) {q : ℕ} (hq : q < Tensor.volume (shapeOf n m)) :
    (outcome m φ).entry q = (others.map fun share =>
      share.coefficient * (outcome share.measurement φ).entry q).sum := by
  have hevaluates : m.Evaluates (ofWave φ) :=
    evaluates_of_analytic (analytic_of_differentiable hm) hwires φ
  have hdiff : ∀ share ∈ others, share.measurement.Differentiable ∧
      shapeOf n share.measurement = shapeOf n m := fun share hshare =>
    differentiable_of_sharedAs hm hshared share (hperm.mem_iff.mp hshare)
  have hresults : (others.map fun share => share.measurement.resultIn (ofWave φ)) =
      others.map fun share => outcome share.measurement φ := by
    refine List.map_congr_left fun share hshare => ?_
    exact resultIn_of_statistical (statistical_of_differentiable (hdiff share hshare).1)
      ((evaluates_shares_iff hshared).mpr hevaluates share (hperm.mem_iff.mp hshare))
  have hwhole := linearCombination_shares hshared (ne_nil_of_sharedAs hterms hshared) hevaluates
    hperm
  rw [resultIn_of_statistical (statistical_of_differentiable hm) hevaluates, hresults] at hwhole
  have hne : others ≠ [] := fun hnil =>
    ne_nil_of_sharedAs hterms hshared (List.nil_perm.mp (hnil ▸ hperm))
  have hweighted : Tensor.linearCombination (others.map (·.coefficient))
      (others.map fun share => outcome share.measurement φ) =
        .ok (.ofFn (shapeOf n m) fun o => (others.map fun share =>
          share.coefficient * (outcome share.measurement φ).entry o).sum) :=
    linearCombination_eq hne fun share hshare =>
      (shape_outcome (hdiff share hshare).1 φ).trans (hdiff share hshare).2
  rw [← Except.ok.inj (hweighted.symm.trans hwhole), Tensor.entry_ofFn hq]

/-- What is contributed to a measurement is summed to a result that matches it. -/
theorem collect_matches (hR : Linear R) (hvalid : t.Valid)
    (hms : ∀ m ∈ t.measurements, m.Differentiable) (hterms : ∀ m ∈ t.measurements, m.HasTerms)
    (hshared : t.Shared shares) {cs : List (Splitting.Contribution ℝ)}
    (hcs : Supplies R ψ shares cs) {e : Measurement ℝ × ℕ} (he : e ∈ t.measurements.zipIdx) :
    ∃ T, Splitting.collect cs 0 e.2 = .ok T ∧ Matches R ψ e.1 T := by
  have hmem : e.1 ∈ t.measurements := List.fst_mem_of_mem_zipIdx he
  have hsharedAs := hshared.own e he
  let own := cs.filter fun c => c.batch == 0 && c.share.parent == e.2
  have hperm : (own.map (·.share)).Perm (shares.filter fun share => share.parent == e.2) :=
    shares_of_collected hcs e.2
  have hne : own ≠ [] := by
    intro hnil
    refine ne_nil_of_sharedAs (hterms _ hmem) hsharedAs ?_
    rw [hnil] at hperm
    exact List.nil_perm.mp hperm
  have hown : ∀ c ∈ own, Matches R ψ c.share.measurement c.result := fun c hc =>
    (hcs.matched c (List.mem_filter.mp hc).1).2
  have hshapes : ∀ c ∈ own, shapeOf t.register c.share.measurement = shapeOf t.register e.1 :=
    fun c hc => (differentiable_of_sharedAs (hms _ hmem) hsharedAs c.share
      (hperm.mem_iff.mp (List.mem_map_of_mem hc))).2
  have hcollect : Splitting.collect cs 0 e.2 = .ok (.ofFn (shapeOf t.register e.1) fun o =>
      (own.map fun c => c.share.coefficient * c.result.entry o).sum) :=
    linearCombination_eq hne fun c hc => (hown c hc).shape.trans (hshapes c hc)
  refine ⟨_, hcollect, Tensor.shape_ofFn _ _, fun q hq => ?_⟩
  -- In each wave of the family the measurement is the same sum of its shares.
  have hsum : ∀ v, (outcome e.1 (ψ v)).entry q =
      (own.map fun c => c.share.coefficient * (outcome c.share.measurement (ψ v)).entry q).sum := by
    intro v
    rw [entry_outcome_of_shares (hms _ hmem) (hterms _ hmem) (hvalid.measurements _ hmem)
      hsharedAs hperm (ψ v) hq, List.map_map]
    rfl
  rw [Tensor.entry_ofFn hq]
  simp only [hsum]
  exact hR.sum _ fun c hc => (hown c hc).entry q (by rwa [hshapes c hc])

/-- All measurements' results are collected, and match the measurements. -/
theorem mapM_matches (hR : Linear R) (hvalid : t.Valid)
    (hms : ∀ m ∈ t.measurements, m.Differentiable) (hterms : ∀ m ∈ t.measurements, m.HasTerms)
    (hshared : t.Shared shares) {cs : List (Splitting.Contribution ℝ)}
    (hcs : Supplies R ψ shares cs) : ∃ results,
      (List.range t.measurements.length).mapM (Splitting.collect cs 0) = .ok results ∧
        List.Forall₂ (Matches R ψ) t.measurements results := by
  have hcollect := fun e he => collect_matches hR hvalid hms hterms hshared hcs (e := e) he
  obtain ⟨results, hresults⟩ : ∃ results,
      (t.measurements.zipIdx.mapM fun e => Splitting.collect cs 0 e.2) = .ok results :=
    exists_mapM_eq_ok fun e he => (hcollect e he).imp fun _ h => h.1
  have hmatches : List.Forall₂ (fun e r => Matches R ψ e.1 r) t.measurements.zipIdx results :=
    forall₂_of_mapM (fun e he r hr => by
      obtain ⟨T, hT, hmatch⟩ := hcollect e he
      obtain rfl := Except.ok.inj (hr.symm.trans hT)
      exact hmatch) hresults
  refine ⟨results, ?_, ?_⟩
  · rw [range_length_eq_zipIdx, List.mapM_map]
    exact hresults
  · rw [← List.zipIdx_map_fst 0 t.measurements]
    exact List.forall₂_map_left_iff.mpr hmatches

/-- Results of the parts that are related to the readings of the parts are recombined to
    a result that is related to the readings of the trace. -/
theorem recombine_reads (hR : Linear R) (hvalid : t.Valid)
    (hms : ∀ m ∈ t.measurements, m.Differentiable) (hterms : ∀ m ∈ t.measurements, m.HasTerms)
    (hshots : t.shots = .analytic) (hshared : t.Shared shares) (hparts : t.Distributes shares parts)
    {rs : List (Tensor ℝ)}
    (hrs : List.Forall₂ (fun part r => Reads R ψ (part.shares.map (·.measurement)) r) parts rs) :
    ∃ T, Splitting.recombine t parts rs = .ok T ∧ Reads R ψ t.measurements T := by
  have hdiff : ∀ part ∈ parts, ∀ share ∈ part.shares, share.measurement.Differentiable :=
    fun part hpart share hshare =>
      differentiable_of_shared hms hshared share (mem_shares hparts hpart hshare)
  obtain ⟨css, hcss, hsupplied⟩ := mapM_supplies hshots hparts.traces hdiff hrs
  have hall : Supplies R ψ shares css.flatten :=
    ⟨hsupplied.shares.trans hparts.complete, hsupplied.matched⟩
  obtain ⟨results, hresults, hmatches⟩ : ∃ results,
      (List.range t.measurements.length).mapM (Splitting.collect css.flatten 0) = .ok results ∧
        List.Forall₂ (Matches R ψ) t.measurements results :=
    mapM_matches hR hvalid hms hterms hshared hall
  have hshapes : results.map (·.shape) = t.measurements.map (shapeOf t.register) :=
    map_of_forall₂ (fun _ _ h => h.shape) hmatches
  obtain ⟨T, hpack, hshape, hdata⟩ := packResults_eq hms hshots hshapes
  refine ⟨T, (recombine_analytic hshots hcss hresults).trans hpack, hshape, fun o => ?_⟩
  rw [entry_eq_getD, hdata]
  exact reading_of_matches hR hms hmatches o

/-- Slices of the parts' results that are related to the readings of the parts are folded
    to a result whose slices are related to the readings of the trace. -/
theorem fold_reads {trailing : List ℕ} {R : ℕ → (V → ℝ) → ℝ → Prop} (hR : ∀ j, Linear (R j))
    (hvalid : t.Valid) (hms : ∀ m ∈ t.measurements, m.Differentiable)
    (hterms : ∀ m ∈ t.measurements, m.HasTerms) (hshots : t.shots = .analytic)
    (hshared : t.Shared shares) (hparts : t.Distributes shares parts) {rs : List (Tensor ℝ)}
    (hrs : List.Forall₂ (fun part r => part.trace.Carries trailing r ∧
      ∀ j < Tensor.volume trailing,
        Reads (R j) ψ (part.shares.map (·.measurement)) (r.slice trailing j)) parts rs) :
    ∃ T, Splitting.fold t parts rs = .ok T ∧ T.shape = (layoutOf t).shape ++ trailing ∧
      ∀ j < Tensor.volume trailing, Reads (R j) ψ t.measurements (T.slice trailing j) := by
  have hrecombine : ∀ j, ∃ T, j < Tensor.volume trailing →
      Splitting.recombine t parts (rs.map (·.slice trailing j)) = .ok T ∧
        Reads (R j) ψ t.measurements T := by
    intro j
    by_cases hj : j < Tensor.volume trailing
    · obtain ⟨T, hT⟩ := recombine_reads (hR j) hvalid hms hterms hshots hshared hparts
        (List.forall₂_map_right_iff.mpr (hrs.imp fun _ _ h => h.2 j hj))
      exact ⟨T, fun _ => hT⟩
    · exact ⟨.zeros [], fun h => absurd h hj⟩
  choose f hf using hrecombine
  obtain ⟨part, hpart⟩ := exists_part hvalid hterms hshared hparts
  obtain ⟨T, hfold, hT, hslices⟩ := fold_slices (List.ne_nil_of_mem hpart)
    (traceOutputShape_eq hms hshots) (hrs.imp fun _ _ h => h.1)
    fun j hj => ⟨(hf j hj).1, (hf j hj).2.1⟩
  refine ⟨T, hfold, hT, fun j hj => ?_⟩
  rw [hslices j hj]
  exact (hf j hj).2

end Recombination

end Proofs

end CircuitGrad
