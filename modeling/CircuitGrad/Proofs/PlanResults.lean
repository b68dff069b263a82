import CircuitGrad.Proofs.DeterministicBackend
import CircuitGrad.Proofs.PlanAlgebra
import CircuitGrad.Proofs.RequestSteps

/-! # What plans give

    On a deterministic backend a plan gives the same whenever it is executed:
    what its fold makes of the results of its traces, provided that they are
    validated and have results (`evaluate_eq_ok_iff`).  Where a plan was
    composed of others, the results are cut back into stretches, one for each
    inner plan (`results_of_andThen`).  A request without batched arguments
    executes one plan (`run_of_construct`, `vjp_run`).
-/

namespace CircuitGrad

variable {α σ : Type} [Scalar α]

/-- Execute the traces of a plan and fold what comes back. -/
def Backend.evaluate (b : Backend α σ) (s : Session α σ) (p : Plan α) :
    Except Error (Tensor α) := do
  p.combine (← ((b.submit p.traces none).perform s).1)

/-- The traces are validated, have results, and these are folded to the tensor. -/
def Plan.Gives (p : Plan α) (b : Backend α σ) (outcome : Trace α → Except Error (Tensor α))
    (T : Tensor α) : Prop :=
  (∀ t ∈ p.traces, b.validate t = .ok ()) ∧
    ∃ results, List.Forall₂ (HasResult outcome) p.traces results ∧ p.combine results = .ok T

/-- The product of a cotangent with the derivatives in all inputs, cut into arguments. -/
def ArgumentLayout.product (layout : ArgumentLayout) (cotangent jacobian : Tensor α) :
    Except Error (List (Tensor α)) :=
  let shape := jacobian.shape.dropLast
  if cotangent.shape ≠ shape then
    .error (.shapeMismatch (.cotangentShape cotangent.shape shape))
  else
    let product := (Binding.pullBack cotangent jacobian layout.inputCount).toArray
    .ok <| layout.slots.map fun slot =>
      match slot.offset with
      | none => .zeros slot.shape
      | some start => .ofFn slot.shape fun p => product.getD (start + p) 0

namespace Proofs

/-! ## Composed plans -/

section Composed

variable {α : Type} {R : Trace α → Tensor α → Prop} {plans : List (Plan α)}
  {results outputs : List (Tensor α)}

theorem forall₂_comp {β γ δ : Type} {S : β → γ → Prop} {S' : γ → δ → Prop} {xs : List β}
    {ys : List γ} {zs : List δ} (h : List.Forall₂ S xs ys) (h' : List.Forall₂ S' ys zs) :
    List.Forall₂ (fun x z => ∃ y, S x y ∧ S' y z) xs zs := by
  induction h generalizing zs with
  | nil =>
    cases h'
    exact .nil
  | cons hxy _ ih =>
    obtain ⟨z, rest, hyz, hrest, rfl⟩ := List.forall₂_cons_left_iff.mp h'
    exact .cons ⟨_, hxy, hyz⟩ (ih hrest)

/-- The only result is that of the only trace. -/
theorem result_of_identity {t : Trace α} {T : Tensor α}
    (hresults : List.Forall₂ R (Plan.identity t).traces results)
    (hT : (Plan.identity t).combine results = .ok T) : R t T := by
  obtain ⟨r, rest, hr, hnone, rfl⟩ := List.forall₂_cons_left_iff.mp hresults
  obtain rfl := List.forall₂_nil_left_iff.mp hnone
  obtain rfl := Except.ok.inj hT
  exact hr

/-- The results are cut into stretches that belong to the traces of one plan each. -/
theorem results_of_foldEach (hresults : List.Forall₂ R (plans.flatMap (·.traces)) results)
    (h : Plan.foldEach plans results = .ok outputs) :
    List.Forall₂ (fun p out => ∃ own, List.Forall₂ R p.traces own ∧ p.combine own = .ok out)
      plans outputs := by
  induction plans generalizing results outputs with
  | nil =>
    cases h
    exact .nil
  | cons p plans ih =>
    obtain ⟨out, hout, h⟩ := bind_eq_ok h
    obtain ⟨rest, hrest, h⟩ := bind_eq_ok h
    obtain rfl := Except.ok.inj h
    rw [List.flatMap_cons] at hresults
    have hown := List.forall₂_take p.size hresults
    have hothers := List.forall₂_drop p.size hresults
    rw [show p.size = p.traces.length from rfl, List.take_left] at hown
    rw [show p.size = p.traces.length from rfl, List.drop_left] at hothers
    exact .cons ⟨_, hown, hout⟩ (ih hothers hrest)

/-- Every trace of a plan gets what the plan that it was turned into makes of its results. -/
theorem results_of_andThen {p q : Plan α} {stage : Trace α → Except Error (Plan α)}
    (h : p.andThen stage = .ok q) (hresults : List.Forall₂ R q.traces results) {T : Tensor α}
    (hT : q.combine results = .ok T) : ∃ outputs,
      List.Forall₂ (fun t out => ∃ r own, stage t = .ok r ∧ List.Forall₂ R r.traces own ∧
        r.combine own = .ok out) p.traces outputs ∧ p.combine outputs = .ok T := by
  rw [andThen_eq] at h
  obtain ⟨inner, hinner, h⟩ := bind_eq_ok h
  obtain rfl := Except.ok.inj h
  rw [combine_of_length hresults.length_eq.symm] at hT
  obtain ⟨outputs, houtputs, hT⟩ := bind_eq_ok hT
  have hcount : outputs.length = p.size :=
    (length_of_foldEach houtputs).trans (length_of_mapM hinner)
  refine ⟨outputs, ?_, (combine_of_length hcount).trans hT⟩
  -- Each trace became a plan, and each plan got a stretch of the results.
  have hplans : List.Forall₂ (fun t r => stage t = .ok r) p.traces inner :=
    forall₂_of_mapM (fun _ _ _ h => h) hinner
  refine (forall₂_comp hplans (results_of_foldEach hresults houtputs)).imp ?_
  rintro t out ⟨r, hr, own, hown, hout⟩
  exact ⟨r, own, hr, hown, hout⟩

end Composed

/-! ## Plans on a deterministic backend -/

section Deterministic

variable {b : Backend α σ} {family : Set (Trace α)} {outcome : Trace α → Except Error (Tensor α)}
  {s : Session α σ} {p : Plan α} {T T' : Tensor α}

/-- A step after the fold is a step after what the plan gives. -/
theorem evaluate_map (s : Session α σ) (p : Plan α) (f : Tensor α → Except Error (Tensor α)) :
    b.evaluate s (p.map f) = (do f (← b.evaluate s p)) := by
  unfold Backend.evaluate
  rw [show (p.map f).traces = p.traces from rfl]
  cases ((b.submit p.traces none).perform s).1 with
  | error e => rfl
  | ok results => exact combine_map p f results

/-- Whatever was executed before, a plan gives the same. -/
theorem evaluate_eq_ok_iff (hb : b.Deterministic family outcome) (hs : b.Reached family s)
    (hfamily : ∀ t ∈ p.traces, t ∈ family) :
    b.evaluate s p = .ok T ↔ p.Gives b outcome T := by
  unfold Backend.evaluate Plan.Gives
  constructor
  · intro h
    obtain ⟨results, hresults, hT⟩ := bind_eq_ok h
    obtain ⟨hvalid, hresults⟩ := (submit_eq_ok_iff hb hs hfamily).mp hresults
    exact ⟨hvalid, results, hresults, hT⟩
  · rintro ⟨hvalid, results, hresults, hT⟩
    rw [(submit_eq_ok_iff hb hs hfamily).mpr ⟨hvalid, hresults⟩]
    exact hT

end Deterministic

/-! ## Requests for one plan -/

section Requests

variable {b : Binding α σ} {args : List (Argument α)} {s s₁ s' : BindingState α σ} {t : Trace α}

section Unbatched

variable {α : Type} {args : List (Argument α)}

theorem commonBatchSize_of_not_batched (h : ∀ a ∈ args, a.batched = false) :
    Argument.commonBatchSize args = .ok none := by
  unfold Argument.commonBatchSize
  dsimp only
  rw [List.filterMap_eq_nil_iff.mpr]
  intro e he
  have hbatched := h e.1 (List.fst_mem_of_mem_zipIdx he)
  simp [Argument.batchSize?, hbatched]

theorem unbatch_of_not_batched (h : ∀ a ∈ args, a.batched = false) :
    Argument.unbatch args = .ok [args] := by
  unfold Argument.unbatch
  rw [commonBatchSize_of_not_batched h]
  rfl

/-- All results go to the only plan. -/
theorem combine_singleton (p : Plan α) (results : List (Tensor α)) :
    PlanBatch.combine ⟨[p]⟩ results = (do return [← p.combine results]) := by
  have htraces : (PlanBatch.mk [p]).traces.length = p.size :=
    congrArg List.length (List.flatMap_singleton ..)
  unfold PlanBatch.combine
  rw [htraces]
  by_cases hlength : results.length = p.size
  · have harity : Plan.checkArity p.size results.length = .ok () := if_pos hlength.symm
    rw [harity, ok_bind, Plan.foldEach, List.take_of_length_le hlength.le]
    rfl
  · have harity : Plan.checkArity p.size results.length =
        (ShapeFault.foldArity p.size results.length).error := if_neg (Ne.symm hlength)
    rw [harity, combine_of_length_ne hlength]
    rfl

end Unbatched

/-- A request for the results of one plan. -/
theorem run_of_construct (hargs : ∀ a ∈ args, a.batched = false)
    (h : (b.construct args).run.run s = (.ok t, s₁)) (shots : Option Shots)
    (plan : Trace α → Except Error (Plan α)) : ((b.run args shots plan).run.run s).1 =
      (do b.backend.evaluate s₁.session (← plan (shots.elim t t.withShots))) := by
  unfold Binding.run
  rw [bind_run_of_ok (by rw [lift_run, commonBatchSize_of_not_batched hargs]),
    bind_run_of_ok (by rw [lift_run, unbatch_of_not_batched hargs])]
  cases hplan : plan (shots.elim t t.withShots) with
  | error e =>
    have hfails : ([args].mapM fun own => do
        let t ← b.construct own
        plan (shots.elim t t.withShots)).run.run s = (.error e, s₁) := by
      rw [List.mapM_cons]
      refine bind_run_of_error ?_
      rw [bind_run_of_ok h, hplan, lift_run]
    rw [bind_run_of_error hfails]
    rfl
  | ok p =>
    have hplans : ([args].mapM fun own => do
        let t ← b.construct own
        plan (shots.elim t t.withShots)).run.run s = (.ok [p], s₁) := by
      rw [List.mapM_cons, bind_run_of_ok (a := p) (by rw [bind_run_of_ok h, hplan, lift_run])]
      rfl
    have htraces : (PlanBatch.mk [p]).traces = p.traces := List.flatMap_singleton ..
    rw [bind_run_of_ok hplans, ok_bind]
    dsimp only
    rw [htraces, bind_run, execute_run]
    unfold Backend.evaluate
    cases ((b.backend.submit p.traces none).perform s₁.session).1 with
    | error e => rfl
    | ok results =>
      dsimp only
      rw [ok_bind, combine_singleton]
      cases p.combine results with
      | error e => rfl
      | ok T => rfl

/-- A request for the product of a cotangent with the derivatives executes one plan. -/
theorem vjp_run {d : Differentiator α} (hd : b.requireOrder 1 = .ok d)
    (hargs : ∀ a ∈ args, a.batched = false) (h : (b.construct args).run.run s = (.ok t, s₁))
    {p : Plan α} (hp : b.derivativePlan d t t.layout.allInputs 1 = .ok p) (cotangent : Tensor α) :
    (b.vjp args cotangent).run.run s =
      (do t.layout.product cotangent (← b.backend.evaluate s₁.session p),
        { s₁ with session := ((b.backend.submit p.traces none).perform s₁.session).2 }) := by
  unfold Binding.vjp
  rw [bind_run_of_ok (by rw [lift_run, hd]),
    bind_run_of_ok (by rw [lift_run, commonBatchSize_of_not_batched hargs])]
  show ((b.construct args >>= _ : Request α σ (List (Tensor α))).run.run s) = _
  rw [bind_run_of_ok h, bind_run_of_ok (by rw [lift_run, hp]), bind_run, execute_run]
  unfold Backend.evaluate
  cases ((b.backend.submit p.traces none).perform s₁.session).1 with
  | error e => rfl
  | ok results =>
    dsimp only
    rw [ok_bind]
    cases hT : p.combine results with
    | error e =>
      rw [bind_run_of_error (by rw [lift_run])]
      rfl
    | ok T =>
      rw [bind_run_of_ok (by rw [lift_run]), ok_bind]
      unfold ArgumentLayout.product
      dsimp only
      split
      · rfl
      · rfl

/-- A request that succeeds constructs a trace and executes its plan. -/
theorem run_eq_ok (hargs : ∀ a ∈ args, a.batched = false) {shots : Option Shots}
    {plan : Trace α → Except Error (Plan α)} {y : Tensor α}
    (h : ((b.run args shots plan).run.run s).1 = .ok y) : ∃ t s₁ p,
      (b.construct args).run.run s = (.ok t, s₁) ∧ plan (shots.elim t t.withShots) = .ok p ∧
        b.backend.evaluate s₁.session p = .ok y := by
  obtain ⟨size, s₀, hcommon, hbatch⟩ := bind_run_ok (Prod.ext h rfl)
  obtain ⟨owns, s₀', howns, hplanned⟩ := bind_run_ok hbatch
  obtain ⟨plans, _, hplans, -⟩ := bind_run_ok hplanned
  obtain ⟨-, rfl⟩ := lift_run_ok hcommon
  obtain ⟨hunbatch, rfl⟩ := lift_run_ok howns
  obtain rfl := Except.ok.inj ((unbatch_of_not_batched hargs).symm.trans hunbatch)
  rw [List.mapM_cons] at hplans
  obtain ⟨p, _, hp, -⟩ := bind_run_ok hplans
  obtain ⟨t, s₁, ht, hp⟩ := bind_run_ok hp
  obtain ⟨hplan, -⟩ := lift_run_ok hp
  rw [run_of_construct hargs ht, hplan] at h
  exact ⟨t, s₁, p, ht, hplan, h⟩

theorem vjp_eq_ok (hargs : ∀ a ∈ args, a.batched = false) {cotangent : Tensor α}
    {ts : List (Tensor α)} (h : (b.vjp args cotangent).run.run s = (.ok ts, s')) : ∃ d t s₁ p T,
      b.requireOrder 1 = .ok d ∧ (b.construct args).run.run s = (.ok t, s₁) ∧
        b.derivativePlan d t t.layout.allInputs 1 = .ok p ∧
        b.backend.evaluate s₁.session p = .ok T ∧ t.layout.product cotangent T = .ok ts ∧
        s' = { s₁ with session := ((b.backend.submit p.traces none).perform s₁.session).2 } := by
  obtain ⟨d, s₀, horder, hcommon⟩ := bind_run_ok h
  obtain ⟨size, s₀', hsize, hunbatched⟩ := bind_run_ok hcommon
  obtain ⟨hd, rfl⟩ := lift_run_ok horder
  obtain ⟨hnone, rfl⟩ := lift_run_ok hsize
  obtain rfl := Except.ok.inj ((commonBatchSize_of_not_batched hargs).symm.trans hnone)
  -- Nothing is batched, so the request goes on to construct its trace.
  have hplanned : (b.construct args >>= _ : Request α σ (List (Tensor α))).run.run s₀' =
    (.ok ts, s') := hunbatched
  obtain ⟨t, s₁, ht, hplan⟩ := bind_run_ok hplanned
  obtain ⟨p, _, hlifted, -⟩ := bind_run_ok hplan
  obtain ⟨hp, -⟩ := lift_run_ok hlifted
  rw [vjp_run hd hargs ht hp] at h
  obtain ⟨houtcome, rfl⟩ := Prod.mk.inj h
  obtain ⟨T, hT, hts⟩ := bind_eq_ok houtcome
  exact ⟨d, t, s₁, p, T, hd, ht, hp, hT, hts, rfl⟩

end Requests

end Proofs

end CircuitGrad
