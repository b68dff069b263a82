import CircuitGrad.Proofs.DecompositionTree
import CircuitGrad.Proofs.PlanResults
import CircuitGrad.Proofs.Unpacking

/-! # Shapes through the pipeline

    What is executed for a value or for derivatives are traces of many shapes:
    operations were replaced, measurements distributed over several traces, and
    parameters shifted.  What their results are folded to has the shape of the
    trace's output (`outputShape_of_callPlan`), and for first derivatives one
    more dimension, of the trainable parameters (`shape_of_pipeline`).

    Nothing is asked of the results but that each has the shape that its own
    trace calls for.
-/

namespace CircuitGrad

namespace Proofs

variable {σ : Type} {b : Binding ℝ σ} {d : Differentiator ℝ} {t u w : Trace ℝ}

/-! ## Replaced operations -/

section Replaced

/-- Only operations are replaced, and what replaces them lies in the register. -/
theorem replaced_of_decompose (h : b.backend.decompose t = .ok u) :
    u = { t with operations := u.operations } ∧ (t.Valid → u.Valid) := by
  obtain ⟨-, rfl⟩ | ⟨results, -, rfl, hvalid⟩ := expand_cases (expand_of_decompose h)
  · exact ⟨rfl, id⟩
  · exact ⟨rfl, fun _ => hvalid⟩

/-- What was expanded for differentiation can be differentiated. -/
theorem replaced_of_expand (h : d.expand t = .ok u) :
    (u = { t with operations := u.operations } ∧ (t.Valid → u.Valid)) ∧
      ∀ op ∈ u.operations, op.isDifferentiable := by
  refine ⟨replaced_of_expandDifferentiable h, fun op hop => ?_⟩
  obtain ⟨trees, -, rfl, htrees⟩ := trees_of_expandDifferentiable h
  obtain ⟨tree, htree, hop⟩ := List.mem_flatMap.mp hop
  exact isDifferentiable_of_mem_leaves (htrees tree htree).1 op hop

/-- A prepared trace measures what the trace measures, and is ready to be differentiated. -/
theorem replaced_of_prepare (h : b.prepare t (some d) = .ok u) :
    (u = { t with operations := u.operations } ∧ (t.Valid → u.Valid)) ∧
      ∀ op ∈ u.operations, op.isDifferentiable := by
  unfold Binding.prepare at h
  cases hstrategy : b.config.strategy with
  | gradient =>
    simp only [hstrategy] at h
    exact replaced_of_expand h
  | device =>
    simp only [hstrategy] at h
    obtain ⟨native, hnative, h⟩ := bind_eq_ok h
    obtain ⟨hfirst, hvalid⟩ := replaced_of_decompose hnative
    obtain ⟨⟨hsecond, hvalid'⟩, hdiff⟩ := replaced_of_expand h
    refine ⟨⟨?_, hvalid' ∘ hvalid⟩, hdiff⟩
    rw [hsecond, hfirst]

end Replaced

/-! ## Split measurements -/

section Split

variable {c : Capabilities} {p : Plan ℝ} {rs : List (Tensor ℝ)} {T : Tensor ℝ}

theorem operations_of_mem_split (hp : u.splitFor c = .ok p) (hw : w ∈ p.traces) :
    w.operations = u.operations := by
  rcases parts_of_splitFor hp with rfl | ⟨shares, parts, -, hparts, rfl⟩
  · obtain rfl := List.mem_singleton.mp hw
    rfl
  · obtain ⟨part, hpart, rfl⟩ := List.mem_map.mp hw
    rw [hparts.traces part hpart]

/-- Results of the parts' shapes are folded to a result of the trace's shape. -/
theorem outputShape_of_split (hvalid : u.Valid) (hterms : ∀ m ∈ u.measurements, m.HasTerms)
    (hp : u.splitFor c = .ok p) (hrs : List.Forall₂ Suits p.traces rs)
    (hT : p.combine rs = .ok T) : u.outputShape = .ok T.shape := by
  rcases parts_of_splitFor hp with rfl | ⟨shares, parts, hshared, hparts, rfl⟩
  · exact result_of_identity hrs hT
  · rw [combine_of_length hrs.length_eq.symm] at hT
    have hsuits := List.forall₂_map_left_iff.mp hrs
    have hrecombined := (fold_eq_recombine hsuits).symm.trans hT
    obtain ⟨css, -, hT⟩ := bind_eq_ok hrecombined
    obtain ⟨perBatch, -, hT⟩ := bind_eq_ok hT
    -- There is a part, and its shots have a batch.
    obtain ⟨part, hpart⟩ := exists_part hvalid hterms hshared hparts
    obtain ⟨r, -, hr⟩ := exists_of_forall₂ hsuits hpart
    have hne : u.shots.batches ≠ [] := by
      intro hnone
      unfold Suits at hr
      rw [hparts.traces part hpart] at hr
      unfold Trace.outputShape at hr
      simp only [hnone] at hr
      cases hr
    obtain ⟨-, -, -, houtput⟩ := shapes_of_packResults hne hT
    exact houtput

end Split

/-! ## Values -/

section Values

variable {outcome : Trace ℝ → Except Error (Tensor ℝ)} {p : Plan ℝ} {y : Tensor ℝ}

/-- A value has the shape of the trace's output. -/
theorem outputShape_of_callPlan (hvalid : t.Valid) (hterms : ∀ m ∈ t.measurements, m.HasTerms)
    (hp : b.callPlan t = .ok p) (h : p.Gives b.backend outcome y) :
    t.outputShape = .ok y.shape := by
  obtain ⟨u, hu, hp⟩ := bind_eq_ok hp
  have hu : b.backend.decompose t = .ok u := hu
  obtain ⟨hsame, hvalid'⟩ := replaced_of_decompose hu
  have hstages : (Plan.identity u).andThen b.backend.split = .ok p := by
    unfold Binding.pipeline at hp
    cases hd : b.differentiator with
    | none =>
      rw [hd] at hp
      exact (bind_pure _).symm.trans hp
    | some d =>
      rw [hd] at hp
      exact (bind_pure _).symm.trans hp
  obtain ⟨-, results, hresults, hy⟩ := h
  obtain ⟨outputs, houtputs, hy⟩ := results_of_andThen hstages hresults hy
  obtain ⟨r, own, hr, hown, hy⟩ := result_of_identity houtputs hy
  have hterms' : ∀ m ∈ u.measurements, m.HasTerms := by
    rw [hsame]
    exact hterms
  have hshape := outputShape_of_split (hvalid' hvalid) hterms' hr
    (hown.imp fun _ _ h => h.2) hy
  rw [hsame] at hshape
  exact hshape

end Values

/-! ## First derivatives -/

section Derivatives

variable {outcome : Trace ℝ → Except Error (Tensor ℝ)} {main : Plan ℝ} {D : Tensor ℝ}
  {out : List ℕ}

/-- First derivatives in the parameters of a part of a splitting. -/
theorem carries_of_derivative (hparameters : d.method.parameters = none)
    (hdiff : ∀ op ∈ w.operations, op.isDifferentiable) {r : Plan ℝ}
    (hr : d.derivative w 1 = .ok r) {own : List (Tensor ℝ)} (hown : List.Forall₂ Suits r.traces own)
    (hD : r.combine own = .ok D) : w.Carries [w.trainable.length] D := by
  obtain ⟨u, selected, lead, hexpand, hselected, hlead, hiff⟩ := derivative_shape_iff d w hr
  obtain rfl := Except.ok.inj ((expand_of_isDifferentiable d hdiff).symm.trans hexpand)
  rw [hparameters] at hselected
  obtain rfl := Except.ok.inj hselected
  obtain ⟨D', hD', hshape⟩ := (hiff own hown).mpr trivial
  obtain rfl := Except.ok.inj (hD.symm.trans hD')
  rw [length_trainableIndices] at hshape
  exact ⟨lead, hlead, hshape⟩

/-- The results of decomposed traces have the shapes of the traces. -/
theorem suits_of_decomposed {p q : Plan ℝ}
    (h : p.andThen b.backend.decompositionPlan = .ok q) {results : List (Tensor ℝ)}
    (hresults : List.Forall₂ Suits q.traces results) {T : Tensor ℝ}
    (hT : q.combine results = .ok T) :
    ∃ outputs, List.Forall₂ Suits p.traces outputs ∧ p.combine outputs = .ok T := by
  obtain ⟨outputs, houtputs, hT⟩ := results_of_andThen h hresults hT
  refine ⟨outputs, houtputs.imp ?_, hT⟩
  rintro w out ⟨r, own, hr, hown, hout⟩
  obtain ⟨v, hv, hr⟩ := bind_eq_ok hr
  obtain rfl := Except.ok.inj hr
  have hsuits : Suits v out := result_of_identity hown hout
  obtain ⟨hsame, -⟩ := replaced_of_decompose hv
  unfold Suits at hsuits ⊢
  rw [hsame] at hsuits
  exact hsuits

/-- First derivatives of a prepared trace have one dimension after those of its output. -/
theorem shape_of_pipeline (hd : b.differentiator = some d)
    (hparameters : d.method.parameters = none) (hvalid : u.Valid)
    (hterms : ∀ m ∈ u.measurements, m.HasTerms)
    (hdiff : ∀ op ∈ u.operations, op.isDifferentiable)
    (hmain : (b.pipeline 1).apply u = .ok main) (h : main.Gives b.backend outcome D)
    (hout : u.outputShape = .ok out) : D.shape = out ++ [u.trainable.length] := by
  -- The results are followed back through decomposing, differentiating and splitting.
  obtain ⟨p, first, second, hp, hfirst, htraces, hsecond, hthird⟩ := pipeline_eq_ok hd hmain
  obtain ⟨-, results, hresults, hD⟩ := h
  obtain ⟨shifted, hshifted, hD⟩ :=
    suits_of_decomposed hthird (hresults.imp fun _ _ h => h.2) hD
  obtain ⟨parts, hparts, hD⟩ := results_of_andThen hsecond hshifted hD
  have hcarries : List.Forall₂ (·.Carries [u.trainable.length]) first.traces parts := by
    refine (forall₂_with (fun w hw => hw) (fun _ _ => trivial) hparts).imp ?_
    rintro w part ⟨⟨r, own, hr, hown, hpart⟩, hw, -⟩
    rw [htraces] at hw
    have hoperations := operations_of_mem_split hp hw
    have hcount : w.trainable = u.trainable := by
      unfold Trace.trainable Trace.params
      rw [hoperations]
    rw [← hcount]
    exact carries_of_derivative hparameters (hoperations ▸ hdiff) hr hown hpart
  -- The derivatives of the parts are folded slice by slice.
  obtain ⟨whole, hwhole, hD⟩ := results_of_andThen hfirst hcarries hD
  obtain ⟨p', own, hp', hown, hD⟩ := result_of_identity hwhole hD
  have hfolds : p'.FoldsSlices u := by
    rcases parts_of_splitFor hp' with rfl | ⟨shares, parts, hshared, hdistributes, rfl⟩
    · exact foldsSlices_identity u
    · exact foldsSlices_parts hvalid hterms hshared hdistributes hout
  obtain ⟨T, hT, ⟨out', hout', hshape⟩, -⟩ := hfolds _ own hown
  obtain rfl := Except.ok.inj (hD.symm.trans hT)
  obtain rfl := Except.ok.inj (hout.symm.trans hout')
  exact hshape

end Derivatives

end Proofs

end CircuitGrad
