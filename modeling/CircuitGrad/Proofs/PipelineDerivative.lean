import CircuitGrad.Proofs.DerivativeShape
import CircuitGrad.Proofs.PreparedTrace
import CircuitGrad.Proofs.SplitLinearity

/-! # Derivatives through the pipeline

    Before a prepared trace is differentiated its measurements are split, and
    the traces that its derivative asks for are decomposed before they are
    executed.  Neither is seen in the result: what the pipeline computes is the
    tensor of partial derivatives of the exact outputs of the prepared trace
    in its trainable parameters (`pipeline_isDerivative`).
-/

namespace CircuitGrad

/-- The tensor of the iterated partial derivatives of the outputs of a trace, `k` times
    in each of the selected parameters. -/
structure IsDerivative (u : Trace ℝ) (selected : List ℕ) (k : ℕ) (T : Tensor ℝ) : Prop where
  shape : T.shape = (Proofs.layoutOf u).shape ++ List.replicate k selected.length
  entry : ∀ o < Tensor.volume (Proofs.layoutOf u).shape,
    ∀ indices : List (Fin selected.length), indices.length = k →
      ∃ g, IsIteratedPartial (Proofs.output u o) (indices.map selected.get) g ∧
        T.entry (position selected.length o (indices.map (·.val))) = g u.point

/-- What is differentiated: standard operations and measurements with exact
    derivatives, evaluated exactly. -/
structure Trace.Admissible (t : Trace ℝ) : Prop where
  placed       : t.Placed
  measurements : ∀ m ∈ t.measurements, m.Differentiable ∧ m.HasTerms
  analytic     : t.shots = .analytic
  nonempty     : t.register ≠ 0

theorem Trace.Admissible.exact {t : Trace ℝ} (h : t.Admissible)
    (hfits : t.register ≤ StateVector.maxWires) : t.Exact :=
  ⟨h.placed.valid, h.placed.standard, fun m hm => (h.measurements m hm).1, h.analytic,
    h.nonempty, hfits⟩

/-! ## Partial derivatives of sums -/

theorem IsPartial.add {f f' g g' : (ℕ → ℝ) → ℝ} {i : ℕ} (c : ℝ) (hf : IsPartial f i f')
    (hg : IsPartial g i g') : IsPartial (fun v => c * f v + g v) i fun v => c * f' v + g' v :=
  fun v => ((hf v).const_mul c).add (hg v)

theorem IsIteratedPartial.zero (is : List ℕ) :
    IsIteratedPartial (fun _ => 0) is fun _ => 0 := by
  induction is with
  | nil => rfl
  | cons i is ih => exact ⟨fun _ => 0, fun v => HasPartialAt.const 0 i v, ih⟩

theorem IsIteratedPartial.add {f f' g g' : (ℕ → ℝ) → ℝ} {is : List ℕ} (c : ℝ)
    (hf : IsIteratedPartial f is f') (hg : IsIteratedPartial g is g') :
    IsIteratedPartial (fun v => c * f v + g v) is fun v => c * f' v + g' v := by
  induction is generalizing f g with
  | nil =>
    obtain rfl := hf
    obtain rfl := hg
    rfl
  | cons i is ih =>
    obtain ⟨f₁, hf₁, hf⟩ := hf
    obtain ⟨g₁, hg₁, hg⟩ := hg
    exact ⟨_, hf₁.add c hg₁, ih hf hg⟩

namespace Proofs

/-- The number is the derivative of the function in the parameters that slice `j` of a
    tensor of derivatives stands for. -/
def Differentiates (selected : List ℕ) (k : ℕ) (v : ℕ → ℝ) (j : ℕ) (f : (ℕ → ℝ) → ℝ) (x : ℝ) :
    Prop :=
  ∀ indices : List (Fin selected.length), indices.length = k →
    position selected.length 0 (indices.map (·.val)) = j →
      ∃ g, IsIteratedPartial f (indices.map selected.get) g ∧ x = g v

theorem linear_differentiates (selected : List ℕ) (k : ℕ) (v : ℕ → ℝ) (j : ℕ) :
    Linear (Differentiates selected k v j) where
  zero _ _ _ := ⟨_, .zero _, rfl⟩
  add c hf hg indices hcount hj := by
    obtain ⟨f', hf, hx⟩ := hf indices hcount hj
    obtain ⟨g', hg, hy⟩ := hg indices hcount hj
    exact ⟨_, hf.add c hg, by rw [hx, hy]⟩

/-! ## Derivatives by slices -/

theorem position_eq_add (m o : ℕ) (indices : List ℕ) :
    position m o indices = o * m ^ indices.length + position m 0 indices := by
  have hstep : ∀ o i is, position m o (i :: is) = position m (o * m + i) is := fun _ _ _ => rfl
  induction indices generalizing o with
  | nil => simp [position]
  | cons i is ih =>
    rw [hstep, hstep, ih, ih (0 * m + i), List.length_cons, Nat.pow_succ']
    ring

section Slices

variable {u : Trace ℝ} {selected : List ℕ} {k : ℕ} {T : Tensor ℝ}

theorem volume_replicate (k m : ℕ) : Tensor.volume (List.replicate k m) = m ^ k := by
  simpa using volume_append_replicate [] k m

/-- The entries of a slice of a tensor of derivatives. -/
theorem entry_slice (hshape : T.shape = (layoutOf u).shape ++ List.replicate k selected.length)
    {o : ℕ} (ho : o < Tensor.volume (layoutOf u).shape) {indices : List (Fin selected.length)}
    (hcount : indices.length = k) :
    (T.slice (List.replicate k selected.length)
        (position selected.length 0 (indices.map (·.val)))).entry o =
      T.entry (position selected.length o (indices.map (·.val))) := by
  rw [slice_eq hshape, Tensor.entry_ofFn ho, volume_replicate, position_eq_add _ o,
    List.length_map, hcount]

/-- The slices of a tensor of derivatives are related to the readings of the trace. -/
theorem reads_of_isDerivative (h : IsDerivative u selected k T)
    (hms : ∀ m ∈ u.measurements, m.Differentiable) (j : ℕ) :
    Reads (t := u) (Differentiates selected k u.point j) (waveAt u) u.measurements
      (T.slice (List.replicate k selected.length) j) := by
  have hshape := shape_slice h.shape j
  refine reads_of_entries (linear_differentiates _ _ _ _) hms hshape
    fun o ho indices hcount hj => ?_
  rw [hshape] at ho
  obtain ⟨g, hg, hvalue⟩ := h.entry o ho indices hcount
  subst hj
  exact ⟨g, hg, (entry_slice h.shape ho hcount).trans hvalue⟩

/-- A tensor whose slices are related to the readings of the trace holds derivatives. -/
theorem isDerivative_of_reads
    (hshape : T.shape = (layoutOf u).shape ++ List.replicate k selected.length)
    (h : ∀ j < Tensor.volume (List.replicate k selected.length),
      Reads (t := u) (Differentiates selected k u.point j) (waveAt u) u.measurements
        (T.slice (List.replicate k selected.length) j)) : IsDerivative u selected k T := by
  refine ⟨hshape, fun o ho indices hcount => ?_⟩
  have hj : position selected.length 0 (indices.map (·.val)) <
      Tensor.volume (List.replicate k selected.length) := by
    rw [volume_replicate]
    have hindices : ∀ i ∈ indices.map (·.val), i < selected.length :=
      List.forall_mem_map.mpr fun i _ => i.isLt
    have hlt := position_lt Nat.one_pos hindices
    rwa [List.length_map, hcount, Nat.one_mul] at hlt
  obtain ⟨g, hg, hvalue⟩ := (h _ hj).2 o indices hcount rfl
  exact ⟨g, hg, (entry_slice hshape ho hcount).symm.trans hvalue⟩

end Slices

/-! ## Splitting -/

theorem parts_of_splitFor {t : Trace ℝ} {c : Capabilities} {p : Plan ℝ}
    (h : t.splitFor c = .ok p) : p = .identity t ∨ ∃ shares parts, t.Shared shares ∧
      t.Distributes shares parts ∧ p = ⟨parts.map (·.trace), Splitting.fold t parts⟩ := by
  unfold Trace.splitFor at h
  split at h
  · exact .inr (parts_of_splitTerms h)
  · split at h
    · exact parts_of_splitNonCommuting h
    · exact .inl (Except.ok.inj h).symm

section Splitting

variable {u : Trace ℝ} {c : Capabilities} {p : Plan ℝ} {k : ℕ}

theorem valid_of_mem_plan {t : Trace ℝ} {shares : List (Share ℝ)} {groups : List (List ℕ)}
    (h : Splitting.plan t shares groups = .ok p) {w : Trace ℝ} (hw : w ∈ p.traces) : w.Valid := by
  obtain ⟨parts, hparts, h⟩ := bind_eq_ok h
  obtain rfl := Except.ok.inj h
  obtain ⟨part, hpart, rfl⟩ := List.mem_map.mp hw
  obtain ⟨group, -, hgroup⟩ := mem_of_mapM hparts hpart
  obtain ⟨v, hv, hgroup⟩ := bind_eq_ok hgroup
  obtain rfl := Except.ok.inj hgroup
  obtain ⟨rfl, hvalid⟩ := check_eq_ok_iff.mp hv
  exact hvalid

theorem valid_of_mem_split (hvalid : u.Valid) (hp : u.splitFor c = .ok p) {w : Trace ℝ}
    (hw : w ∈ p.traces) : w.Valid := by
  unfold Trace.splitFor at hp
  split at hp
  · obtain ⟨shares, -, hp⟩ := bind_eq_ok hp
    obtain ⟨groups, -, hp⟩ := bind_eq_ok hp
    exact valid_of_mem_plan hp hw
  · split at hp
    · obtain ⟨groups, -, hp⟩ := bind_eq_ok hp
      split at hp
      · obtain rfl := Except.ok.inj hp
        obtain rfl := List.mem_singleton.mp hw
        exact hvalid
      · exact valid_of_mem_plan hp hw
    · obtain rfl := Except.ok.inj hp
      obtain rfl := List.mem_singleton.mp hw
      exact hvalid

/-- A trace of a splitting is the split trace with other measurements. -/
theorem of_mem_split (hu : u.Admissible) (hp : u.splitFor c = .ok p) {w : Trace ℝ}
    (hw : w ∈ p.traces) : w = { u with measurements := w.measurements } ∧
      ∀ m ∈ w.measurements, m.Differentiable := by
  have hms := fun m hm => (hu.measurements m hm).1
  rcases parts_of_splitFor hp with rfl | ⟨shares, parts, hshared, hparts, rfl⟩
  · obtain rfl := List.mem_singleton.mp hw
    exact ⟨rfl, hms⟩
  · obtain ⟨part, hpart, rfl⟩ := List.mem_map.mp hw
    rw [hparts.traces part hpart]
    refine ⟨rfl, List.forall_mem_map.mpr fun share hshare => ?_⟩
    exact differentiable_of_shared hms hshared share (mem_shares hparts hpart hshare)

theorem exact_of_mem_split (hu : u.Admissible) (hfits : u.register ≤ StateVector.maxWires)
    (hp : u.splitFor c = .ok p) {w : Trace ℝ} (hw : w ∈ p.traces) : w.Exact := by
  have hvalid := valid_of_mem_split hu.placed.valid hp hw
  obtain ⟨hsame, hms⟩ := of_mem_split hu hp hw
  rw [hsame] at hvalid ⊢
  exact ⟨hvalid, hu.placed.standard, hms, hu.analytic, hu.nonempty, hfits⟩

/-- The derivative of a part carries the derivatives of its shares of the measurements. -/
theorem reads_of_part (hu : u.Admissible) {shares : List (Share ℝ)}
    {parts : List (Splitting.Part ℝ)} (hshared : u.Shared shares)
    (hparts : u.Distributes shares parts) {part : Splitting.Part ℝ} (hpart : part ∈ parts)
    {T : Tensor ℝ}
    (hT : IsDerivative part.trace part.trace.trainableIndices k T) :
    part.trace.Carries (List.replicate k u.trainableIndices.length) T ∧
      ∀ j < Tensor.volume (List.replicate k u.trainableIndices.length),
        Reads (t := u) (Differentiates u.trainableIndices k u.point j) (waveAt u)
          (part.shares.map (·.measurement))
          (T.slice (List.replicate k u.trainableIndices.length) j) := by
  have hown : ∀ m ∈ part.shares.map (·.measurement), m.Differentiable :=
    List.forall_mem_map.mpr fun share hshare =>
      differentiable_of_shared (fun m hm => (hu.measurements m hm).1) hshared share
        (mem_shares hparts hpart hshare)
  rw [hparts.traces part hpart] at hT ⊢
  exact ⟨⟨_, traceOutputShape_eq hown hu.analytic, hT.shape⟩,
    fun j _ => reads_of_isDerivative hT hown j⟩

/-- Derivatives of the parts are folded to those of the trace. -/
theorem split_isDerivative (hu : u.Admissible) (hp : u.splitFor c = .ok p) {rs : List (Tensor ℝ)}
    (hrs : List.Forall₂ (fun w T => IsDerivative w w.trainableIndices k T) p.traces rs) :
    ∃ T, p.combine rs = .ok T ∧ IsDerivative u u.trainableIndices k T := by
  rcases parts_of_splitFor hp with rfl | ⟨shares, parts, hshared, hparts, rfl⟩
  · obtain ⟨T, rest, hT, hrest, rfl⟩ := List.forall₂_cons_left_iff.mp hrs
    obtain rfl := List.forall₂_nil_left_iff.mp hrest
    exact ⟨T, rfl, hT⟩
  · have hms := fun m hm => (hu.measurements m hm).1
    have hcount : rs.length = (parts.map (·.trace)).length := hrs.length_eq.symm
    rw [List.forall₂_map_left_iff] at hrs
    have hresults : List.Forall₂ (fun part r =>
        part.trace.Carries (List.replicate k u.trainableIndices.length) r ∧
          ∀ j < Tensor.volume (List.replicate k u.trainableIndices.length),
            Reads (t := u) (Differentiates u.trainableIndices k u.point j) (waveAt u)
              (part.shares.map (·.measurement))
              (r.slice (List.replicate k u.trainableIndices.length) j)) parts rs :=
      List.forall₂_iff_zip.mpr ⟨hrs.length_eq, fun hpart =>
        reads_of_part hu hshared hparts (List.of_mem_zip hpart).1
          ((List.forall₂_iff_zip.mp hrs).2 hpart)⟩
    obtain ⟨T, hfold, hshape, hreads⟩ :=
      fold_reads (linear_differentiates u.trainableIndices k u.point) hu.placed.valid hms
        (fun m hm => (hu.measurements m hm).2) hu.analytic hshared hparts hresults
    exact ⟨T, (combine_of_length hcount).trans hfold, isDerivative_of_reads hshape hreads⟩

end Splitting

/-! ## Executed traces -/

section Execution

variable {ρ σ : Type} {d : Differentiator ℝ} {c : ShiftConfig ℝ} {t : Trace ℝ} {p : Plan ℝ}

/-- First derivatives of an exact trace are taken from exact traces. -/
theorem exact_of_mem_firstOrder (hmethod : d.method = .parameterShift c) (ht : t.Exact)
    (hp : d.firstOrder t = .ok p) {w : Trace ℝ} (hw : w ∈ p.traces) : w.Exact := by
  have hplan : ParameterShift.plan t c = .ok p := by
    unfold Differentiator.firstOrder at hp
    rwa [hmethod] at hp
  obtain ⟨selected, -, -, -, -, -, hselected, -⟩ := plan_eq_ok hplan
  by_cases hne : selected = []
  · subst hne
    have hparameters : d.method.parameters = c.parameters := by
      rw [hmethod]
      rfl
    rw [traces_of_nothing hp (hparameters ▸ hselected)] at hw
    cases hw
  · obtain ⟨rules, vs, h⟩ := selects_of_plan ht hselected hne hplan
    rw [← assign_point t] at hplan
    obtain ⟨v, rfl⟩ := exists_assign_of_mem h hplan hw
    exact exact_assign (exact_meansOf ht) v

theorem exact_of_mem_nested (hmethod : d.method = .parameterShift c) (ht : t.Exact) {more : ℕ}
    (hp : d.nested more t = .ok p) {w : Trace ℝ} (hw : w ∈ p.traces) : w.Exact := by
  induction more generalizing t p with
  | zero => exact exact_of_mem_firstOrder hmethod ht hp hw
  | succ more ih =>
    obtain ⟨q, hq, hp⟩ := bind_eq_ok hp
    obtain ⟨v, hv, r, hr, hw⟩ := (mem_andThen_iff hp).mp hw
    exact ih (exact_of_mem_firstOrder hmethod ht hq hv) hr hw

theorem exact_of_mem_derivative (hmethod : d.method = .parameterShift c) (ht : t.Exact)
    {more : ℕ} (hp : d.derivative t (more + 1) = .ok p) {w : Trace ℝ} (hw : w ∈ p.traces) :
    w.Exact := by
  obtain ⟨u, selected, hexpand, -, -, hp⟩ := derivative_succ_eq_ok hp
  split at hp
  · obtain ⟨shape, -, hp⟩ := bind_eq_ok hp
    obtain rfl := Except.ok.inj hp
    cases hw
  · exact exact_of_mem_nested hmethod (exact_of_expandDifferentiable ht hexpand) hp hw

/-- Without trainable parameters nothing is executed. -/
theorem derivative_of_nothing (hparameters : d.method.parameters = none)
    (hexpand : d.expand t = .ok t) (hms : ∀ m ∈ t.measurements, m.Differentiable)
    (hshots : t.shots = .analytic) (hnone : t.trainableIndices = []) {more : ℕ}
    (hp : d.derivative t (more + 1) = .ok p) :
    p = .known (.zeros ((layoutOf t).shape ++ List.replicate (more + 1) 0)) := by
  obtain ⟨u, selected, hexpand', hselected, -, hp⟩ := derivative_succ_eq_ok hp
  obtain rfl := Except.ok.inj (hexpand.symm.trans hexpand')
  rw [hparameters] at hselected
  obtain rfl : [] = selected := hnone.symm.trans (Except.ok.inj hselected)
  rw [if_pos List.isEmpty_nil, traceOutputShape_eq hms hshots] at hp
  exact (Except.ok.inj hp).symm

theorem exact_of_expands {u : Trace ℝ} (h : Expands t u) (ht : t.Exact) : u.Exact := by
  have hplaced := h.placed ⟨ht.valid, ht.standard⟩
  have hsame := h.same
  refine ⟨hplaced.valid, hplaced.standard, ?_, ?_, ?_, ?_⟩ <;> rw [hsame]
  · exact ht.measurements
  · exact ht.analytic
  · exact ht.nonempty
  · exact ht.fits

/-- What is decomposed has the results of what it was decomposed from. -/
theorem run_decompositionPlan {b : Backend ℝ σ} (sampler : Sampler ℝ ρ) (ht : t.Exact)
    (hp : b.decompositionPlan t = .ok p) :
    p.run (·.simulate sampler) = t.simulate sampler ∧ ∀ w ∈ p.traces, w.Exact := by
  obtain ⟨u, hu, hp⟩ := bind_eq_ok hp
  obtain rfl := Except.ok.inj hp
  have hexpands := Expands.of_decompose ⟨ht.valid, ht.standard⟩ hu
  have hsame : u.simulate sampler = t.simulate sampler := by
    rw [hexpands.same]
    exact simulate_of_standsIn sampler ht.analytic
      (fun m hm => statistical_of_differentiable (ht.measurements m hm)) hexpands.stands
  exact ⟨(run_identity u _).trans hsame,
    List.forall_mem_singleton.mpr (exact_of_expands hexpands ht)⟩

end Execution

/-! ## The pipeline -/

section Pipeline

variable {ρ σ : Type} {b : Binding ℝ σ} {d : Differentiator ℝ} {c : ShiftConfig ℝ} {u : Trace ℝ}
  {main : Plan ℝ} {more : ℕ}

/-- Only how the traces of a plan are executed matters. -/
theorem run_congr {p : Plan ℝ} {execute execute' : Trace ℝ → Except Error (Tensor ℝ)}
    (h : ∀ w ∈ p.traces, execute w = execute' w) : p.run execute = p.run execute' := by
  unfold Plan.run
  rw [mapM_congr h]

/-- The stages of the pipeline of derivatives, one after the other. -/
theorem pipeline_eq (hd : b.differentiator = some d) (u : Trace ℝ) (more : ℕ) :
    (b.pipeline (more + 1)).apply u = (do
      let first ← (Plan.identity u).andThen b.backend.split
      let second ← first.andThen (d.derivative · (more + 1))
      second.andThen b.backend.decompositionPlan) := by
  unfold Binding.pipeline
  rw [hd]
  show ((Plan.identity u).andThen b.backend.split >>= fun first =>
    first.andThen (d.derivative · (more + 1)) >>= fun second =>
    second.andThen b.backend.decompositionPlan >>= pure) = _
  simp only [bind_pure]

theorem pipeline_eq_ok (hd : b.differentiator = some d)
    (hmain : (b.pipeline (more + 1)).apply u = .ok main) : ∃ p first second,
      b.backend.split u = .ok p ∧ (Plan.identity u).andThen b.backend.split = .ok first ∧
        first.traces = p.traces ∧ first.andThen (d.derivative · (more + 1)) = .ok second ∧
        second.andThen b.backend.decompositionPlan = .ok main := by
  rw [pipeline_eq hd] at hmain
  obtain ⟨first, hfirst, hmain⟩ := bind_eq_ok hmain
  obtain ⟨second, hsecond, hmain⟩ := bind_eq_ok hmain
  obtain ⟨inner, hinner, hfirst'⟩ := bind_eq_ok hfirst
  obtain ⟨p, rest, hp, hrest, rfl⟩ := mapM_cons_eq_ok hinner
  cases hrest
  refine ⟨p, first, second, hp, hfirst, ?_, hsecond, hmain⟩
  rw [← Except.ok.inj hfirst']
  exact List.append_nil _

/-- The pipeline succeeds on what needs no splitting, when its derivative is planned and the
    traces of that plan are decomposed. -/
theorem pipeline_succeeds {P : Trace ℝ → Prop} (hd : b.differentiator = some d)
    (hsplit : b.backend.split u = .ok (.identity u)) {q : Plan ℝ}
    (hq : d.derivative u (more + 1) = .ok q)
    (hP : ∀ w ∈ q.traces, ∃ v, b.backend.decompose w = .ok v ∧ P v) :
    ∃ p, (b.pipeline (more + 1)).apply u = .ok p ∧ ∀ w ∈ p.traces, P w := by
  have hself : ∀ w ∈ (Plan.identity u).traces, w = u := fun w hw => List.mem_singleton.mp hw
  obtain ⟨first, hfirst⟩ := exists_andThen (p := .identity u) fun w hw =>
    ⟨_, (congrArg b.backend.split (hself w hw)).trans hsplit⟩
  have hfirstSelf : ∀ w ∈ first.traces, w = u := by
    intro w hw
    obtain ⟨v, hv, r, hr, hw⟩ := (mem_andThen_iff hfirst).mp hw
    obtain rfl := hself v hv
    obtain rfl := Except.ok.inj (hsplit.symm.trans hr)
    exact hself w hw
  obtain ⟨second, hsecond⟩ := exists_andThen (p := first) fun w hw =>
    ⟨q, (congrArg (d.derivative · (more + 1)) (hfirstSelf w hw)).trans hq⟩
  have hsecondPlanned : ∀ w ∈ second.traces, w ∈ q.traces := by
    intro w hw
    obtain ⟨v, hv, r, hr, hw⟩ := (mem_andThen_iff hsecond).mp hw
    obtain rfl := hfirstSelf v hv
    obtain rfl := Except.ok.inj (hq.symm.trans hr)
    exact hw
  have hdecomposed : ∀ w ∈ second.traces, ∃ v,
      b.backend.decompositionPlan w = .ok (.identity v) ∧ P v := by
    intro w hw
    obtain ⟨v, hv, hPv⟩ := hP w (hsecondPlanned w hw)
    unfold Backend.decompositionPlan
    rw [hv]
    exact ⟨v, rfl, hPv⟩
  obtain ⟨third, hthird⟩ := exists_andThen (p := second) fun w hw =>
    (hdecomposed w hw).elim fun v hv => ⟨_, hv.1⟩
  refine ⟨third, ?_, fun w hw => ?_⟩
  · rw [pipeline_eq hd, hfirst, ok_bind, hsecond, ok_bind, hthird]
  · obtain ⟨w', hw', r, hr, hw⟩ := (mem_andThen_iff hthird).mp hw
    obtain ⟨v, hv, hPv⟩ := hdecomposed w' hw'
    obtain rfl := Except.ok.inj (hv.symm.trans hr)
    exact List.mem_singleton.mp hw ▸ hPv

/-- Derivatives of the parts of a splitting. -/
theorem derivative_of_mem_split (sampler : Sampler ℝ ρ) (hmethod : d.method = .parameterShift c)
    (hparameters : c.parameters = none) (hu : u.Admissible)
    (hdiff : ∀ op ∈ u.operations, op.isDifferentiable)
    (hfits : u.register ≤ StateVector.maxWires ∨ u.trainableIndices = []) {p : Plan ℝ}
    (hp : b.backend.split u = .ok p) {w : Trace ℝ} (hw : w ∈ p.traces) {r : Plan ℝ}
    (hr : d.derivative w (more + 1) = .ok r) :
    (∃ T, r.run (·.simulate sampler) = .ok T ∧ IsDerivative w w.trainableIndices (more + 1) T) ∧
      ∀ v ∈ r.traces, v.Exact := by
  obtain ⟨hsame, hms⟩ := of_mem_split hu hp hw
  have hoperations : w.operations = u.operations := by rw [hsame]
  have hexpand : d.expand w = .ok w :=
    expand_of_isDifferentiable d (by rwa [hoperations])
  have hselected : w.selectTrainable c.parameters = .ok w.trainableIndices := by
    rw [hparameters]
    rfl
  by_cases hnone : u.trainableIndices = []
  · -- Nothing is trained, so the derivative is known.
    have hshots : w.shots = .analytic := by
      rw [hsame]
      exact hu.analytic
    have hnone' : w.trainableIndices = [] := by
      rw [hsame]
      exact hnone
    obtain rfl := derivative_of_nothing (by rw [hmethod]; exact hparameters) hexpand hms hshots
      hnone' hr
    obtain ⟨T, hrun, hshape, hentry⟩ := computes_empty (u := w) sampler more
    rw [hnone']
    exact ⟨⟨T, hrun, hshape, hentry⟩, fun v hv => absurd hv List.not_mem_nil⟩
  · have hexact := exact_of_mem_split hu (hfits.resolve_right hnone) hp hw
    obtain ⟨T, hrun, hshape, hentry⟩ :=
      computes_derivative hmethod hexact sampler hexpand hselected hr
    exact ⟨⟨T, hrun, hshape, hentry⟩, fun v hv => exact_of_mem_derivative hmethod hexact hr hv⟩

/-- The derivatives of the parts of a splitting are folded to that of the whole. -/
theorem run_split_derivative (sampler : Sampler ℝ ρ) (hmethod : d.method = .parameterShift c)
    (hparameters : c.parameters = none) (hu : u.Admissible)
    (hdiff : ∀ op ∈ u.operations, op.isDifferentiable)
    (hfits : u.register ≤ StateVector.maxWires ∨ u.trainableIndices = []) {p : Plan ℝ}
    (hp : b.backend.split u = .ok p)
    (hplanned : ∀ w ∈ p.traces, ∃ r, d.derivative w (more + 1) = .ok r) :
    ∃ T, p.run (fun w => do (← d.derivative w (more + 1)).run (·.simulate sampler)) = .ok T ∧
      IsDerivative u u.trainableIndices (more + 1) T := by
  have hpart : ∀ w ∈ p.traces, ∃ T,
      (do (← d.derivative w (more + 1)).run (·.simulate sampler)) = .ok T ∧
        IsDerivative w w.trainableIndices (more + 1) T := by
    intro w hw
    obtain ⟨r, hr⟩ := hplanned w hw
    rw [hr]
    exact (derivative_of_mem_split sampler hmethod hparameters hu hdiff hfits hp hw hr).1
  obtain ⟨Ts, hTs⟩ := exists_mapM_eq_ok fun w hw => (hpart w hw).imp fun _ h => h.1
  have hderivatives := forall₂_of_mapM (R := fun w T =>
    IsDerivative w w.trainableIndices (more + 1) T) (fun w hw T hT => by
      obtain ⟨T', hT', hderivative⟩ := hpart w hw
      obtain rfl := Except.ok.inj (hT.symm.trans hT')
      exact hderivative) hTs
  obtain ⟨T, hcombine, hderivative⟩ := split_isDerivative hu hp hderivatives
  refine ⟨T, ?_, hderivative⟩
  show (p.traces.mapM _ >>= p.combine) = _
  rw [hTs]
  exact hcombine

/-- Decomposing the traces of a plan changes none of its results. -/
theorem run_decomposed (sampler : Sampler ℝ ρ) {p q : Plan ℝ} (hexact : ∀ w ∈ p.traces, w.Exact)
    (h : p.andThen b.backend.decompositionPlan = .ok q) :
    q.run (·.simulate sampler) = p.run (·.simulate sampler) ∧ ∀ w ∈ q.traces, w.Exact := by
  have hdecomposed : ∀ w ∈ p.traces, ∀ r, b.backend.decompositionPlan w = .ok r →
      r.run (·.simulate sampler) = w.simulate sampler ∧ ∀ v ∈ r.traces, v.Exact :=
    fun w hw r hr => run_decompositionPlan sampler (hexact w hw) hr
  constructor
  · rw [run_andThen h fun w hw r hr => ?_]
    · refine run_congr fun w hw => ?_
      obtain ⟨r, hr⟩ := ok_of_andThen h hw
      rw [hr]
      exact (hdecomposed w hw r hr).1
    · obtain ⟨T, hT, -⟩ := simulate_assign (hexact w hw) sampler w.point
      rw [assign_point] at hT
      exact ⟨T, (hdecomposed w hw r hr).1.trans hT⟩
  · intro w hw
    obtain ⟨v, hv, r, hr, hw⟩ := (mem_andThen_iff h).mp hw
    exact (hdecomposed v hv r hr).2 w hw

/-- The pipeline computes the partial derivatives of the prepared trace, from exact traces. -/
theorem pipeline_isDerivative (sampler : Sampler ℝ ρ) (hd : b.differentiator = some d)
    (hmethod : d.method = .parameterShift c) (hparameters : c.parameters = none)
    (hu : u.Admissible) (hdiff : ∀ op ∈ u.operations, op.isDifferentiable)
    (hfits : u.register ≤ StateVector.maxWires ∨ u.trainableIndices = [])
    (hmain : (b.pipeline (more + 1)).apply u = .ok main) :
    (∃ T, main.run (·.simulate sampler) = .ok T ∧
      IsDerivative u u.trainableIndices (more + 1) T) ∧ ∀ w ∈ main.traces, w.Exact := by
  obtain ⟨p, first, second, hp, hfirst, htraces, hsecond, hthird⟩ := pipeline_eq_ok hd hmain
  have hplanned : ∀ w ∈ p.traces, ∃ r, d.derivative w (more + 1) = .ok r :=
    fun w hw => ok_of_andThen hsecond (htraces ▸ hw)
  have hpart : ∀ w ∈ p.traces, ∀ r, d.derivative w (more + 1) = .ok r →
      (∃ T, r.run (·.simulate sampler) = .ok T ∧
        IsDerivative w w.trainableIndices (more + 1) T) ∧ ∀ v ∈ r.traces, v.Exact :=
    fun w hw r hr => derivative_of_mem_split sampler hmethod hparameters hu hdiff hfits hp hw hr
  -- What is decomposed is exact.
  have hshifted : ∀ w ∈ second.traces, w.Exact := by
    intro w hw
    obtain ⟨v, hv, r, hr, hw⟩ := (mem_andThen_iff hsecond).mp hw
    exact (hpart v (htraces ▸ hv) r hr).2 w hw
  obtain ⟨hdecomposed, hexact⟩ := run_decomposed sampler hshifted hthird
  obtain ⟨T, hT, hderivative⟩ :=
    run_split_derivative sampler hmethod hparameters hu hdiff hfits hp hplanned
  refine ⟨⟨T, ?_, hderivative⟩, hexact⟩
  rw [hdecomposed, run_andThen hsecond fun w hw r hr => ?_, run_andThen hfirst fun w hw r hr => ?_,
    run_identity, hp]
  · exact hT
  · obtain rfl := List.mem_singleton.mp hw
    obtain rfl := Except.ok.inj (hp.symm.trans hr)
    exact ⟨T, hT⟩
  · obtain ⟨⟨S, hS, -⟩, -⟩ := hpart w (htraces ▸ hw) r hr
    exact ⟨S, hS⟩

end Pipeline

end Proofs

end CircuitGrad
