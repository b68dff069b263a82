import CircuitGrad.Binding.Basic
import CircuitGrad.Proofs.ResultCache
import CircuitGrad.Proofs.Steps

/-! # Steps of a request

    A request is a chain of steps that each may fail and may change the state
    of the binding; it is taken apart step by step (`bind_run`,
    `bind_run_ok`).  What a mutable binding plans depends on nothing but the
    arguments, and its requests touch the session of the backend in one place
    only: they plan, submit all planned traces once, and fold what comes back
    (`run_of_mutable`).
-/

namespace CircuitGrad

variable {α σ : Type} [Scalar α]

/-- The result of a request, from one result for each batch index. -/
def Tensor.ofBatch {α : Type} [Zero α] (size : Option ℕ) (outputs : List (Tensor α)) :
    Except Error (Tensor α) :=
  match size, outputs with
  | some _, outputs => Tensor.stackBatch outputs []
  | none, output :: _ => .ok output
  | none, [] => ShapeFault.noResult.error

namespace Binding

/-- The plan of the derivatives of a trace in one argument. -/
def argumentPlan {α σ : Type} [Scalar α] (b : Binding α σ) (argument order : ℕ) (t : Trace α) :
    Except Error (Plan α) := do
  let d ← b.requireOrder order
  b.derivativePlan d t (← t.layout.range argument) order

/-- The plan that a new recording at some arguments is turned into. -/
def freshPlan (b : Binding α σ) (shots : Option Shots) (plan : Trace α → Except Error (Plan α))
    (args : List (Argument α)) : Except Error (Plan α) := do
  let t ← Trace.record b.circuit args b.register b.config.shots b.config.maxOrder
  plan (shots.elim t t.withShots)

/-- The batch size, if any, and one such plan for each batch index. -/
def freshPlans (b : Binding α σ) (shots : Option Shots) (plan : Trace α → Except Error (Plan α))
    (args : List (Argument α)) : Except Error (Option ℕ × List (Plan α)) := do
  let size ← Argument.commonBatchSize args
  return (size, ← (← Argument.unbatch args).mapM (b.freshPlan shots plan))

end Binding

namespace Proofs

variable {β γ ι : Type} {s s' : BindingState α σ}

/-! ## Chains of steps -/

/-- The second step runs on what the first one leaves, unless that fails. -/
theorem bind_run (x : Request α σ β) (f : β → Request α σ γ)
    (s : BindingState α σ) : (x >>= f).run.run s =
      match x.run.run s with
      | (.ok a, s') => (f a).run.run s'
      | (.error e, s') => (.error e, s') := by
  show StateT.run (ExceptT.run x >>= ExceptT.bindCont f) s = _
  rw [StateT.run_bind]
  rcases StateT.run (ExceptT.run x) s with ⟨_ | _, s'⟩ <;> rfl

theorem get_run (s : BindingState α σ) :
    (get : Request α σ (BindingState α σ)).run.run s = (.ok s, s) := rfl

theorem lift_run (x : Except Error β) (s : BindingState α σ) :
    (liftM x : Request α σ β).run.run s = (x, s) := by
  cases x <;> rfl

/-- A chain of two steps succeeds when both steps do. -/
theorem bind_run_ok {x : Request α σ β} {f : β → Request α σ γ} {r : γ}
    (h : (x >>= f).run.run s = (.ok r, s')) : ∃ a s₁, x.run.run s = (.ok a, s₁) ∧
      (f a).run.run s₁ = (.ok r, s') := by
  rw [bind_run] at h
  rcases hx : x.run.run s with ⟨_ | a, s₁⟩
  · rw [hx] at h
    cases h
  · rw [hx] at h
    exact ⟨a, s₁, rfl, h⟩

/-- After a step that succeeds the next one runs. -/
theorem bind_run_of_ok {x : Request α σ β} {f : β → Request α σ γ} {a : β}
    (h : x.run.run s = (.ok a, s')) : (x >>= f).run.run s = (f a).run.run s' := by
  rw [bind_run, h]

/-- After a step that fails there is nothing more to run. -/
theorem bind_run_of_error {x : Request α σ β} {f : β → Request α σ γ} {e : Error}
    (h : x.run.run s = (.error e, s')) : (x >>= f).run.run s = (.error e, s') := by
  rw [bind_run, h]

theorem lift_run_ok {x : Except Error β} {r : β} (h : (liftM x : Request α σ β).run.run s =
    (.ok r, s')) : x = .ok r ∧ s' = s := by
  rw [lift_run] at h
  exact ⟨congrArg Prod.fst h, (congrArg Prod.snd h).symm⟩

/-- A step that each keeps an invariant, done for every item of a list. -/
theorem mapM_run_ok {f : ι → Request α σ β} {invariant : BindingState α σ → Prop} {post : β → Prop}
    (hf : ∀ i s a s', invariant s → (f i).run.run s = (.ok a, s') → invariant s' ∧ post a)
    {items : List ι} {results : List β} (hs : invariant s)
    (h : (items.mapM f).run.run s = (.ok results, s')) :
    invariant s' ∧ ∀ r ∈ results, post r := by
  induction items generalizing s results with
  | nil =>
    cases h
    exact ⟨hs, by simp⟩
  | cons i items ih =>
    rw [List.mapM_cons] at h
    obtain ⟨a, s₁, hfirst, h⟩ := bind_run_ok h
    obtain ⟨rest, s₂, hrest, h⟩ := bind_run_ok h
    cases h
    obtain ⟨hs₁, ha⟩ := hf i s a s₁ hs hfirst
    obtain ⟨hs₂, hothers⟩ := ih hs₁ hrest
    exact ⟨hs₂, List.forall_mem_cons.mpr ⟨ha, hothers⟩⟩

/-- What follows each step and cannot touch the state can be done after all steps. -/
theorem mapM_bind_run_ok_iff {f : ι → Request α σ β} {g : β → Except Error γ} {items : List ι}
    {results : List γ} : (items.mapM fun i => do g (← f i)).run.run s = (.ok results, s') ↔
    ∃ firsts, (items.mapM f).run.run s = (.ok firsts, s') ∧ firsts.mapM g = .ok results := by
  induction items generalizing s results with
  | nil =>
    constructor
    · intro h
      cases h
      exact ⟨[], rfl, rfl⟩
    · rintro ⟨firsts, hfirsts, hresults⟩
      cases hfirsts
      cases hresults
      rfl
  | cons i items ih =>
    rw [List.mapM_cons, List.mapM_cons]
    constructor
    · intro h
      obtain ⟨c, s₁, hfirst, h⟩ := bind_run_ok h
      obtain ⟨rest, s₂, hrest, h⟩ := bind_run_ok h
      cases h
      obtain ⟨a, s₃, ha, hfirst⟩ := bind_run_ok hfirst
      obtain ⟨hc, rfl⟩ := lift_run_ok hfirst
      obtain ⟨firsts, hfirsts, hresults⟩ := ih.mp hrest
      refine ⟨a :: firsts, ?_, ?_⟩
      · rw [bind_run_of_ok ha, bind_run_of_ok hfirsts]
        rfl
      · rw [List.mapM_cons, hc, hresults]
        rfl
    · rintro ⟨firsts, hfirsts, hresults⟩
      obtain ⟨a, s₁, ha, hfirsts⟩ := bind_run_ok hfirsts
      obtain ⟨rest, s₂, hrest, hfirsts⟩ := bind_run_ok hfirsts
      cases hfirsts
      obtain ⟨c, cs, hc, hcs, rfl⟩ := mapM_cons_eq_ok hresults
      have hfirst : (do g (← f i) : Request α σ γ).run.run s = (.ok c, s₁) := by
        rw [bind_run_of_ok ha, hc]
        rfl
      rw [bind_run_of_ok hfirst, bind_run_of_ok (ih.mpr ⟨rest, hrest, hcs⟩)]
      rfl

/-! ## Recording and executing -/

variable {b : Binding α σ} {args : List (Argument α)} {shots : Option Shots}

theorem record_run (args : List (Argument α)) (s : BindingState α σ) :
    (b.record args).run.run s =
      (Trace.record b.circuit args b.register b.config.shots b.config.maxOrder,
        { s with recordings := s.recordings + 1 }) := by
  unfold Binding.record
  rw [bind_run]
  cases Trace.record b.circuit args b.register b.config.shots b.config.maxOrder <;> rfl

theorem execute_run (ts : List (Trace α)) (s : BindingState α σ) :
    (b.execute ts).run.run s = (((b.backend.submit ts none).perform s.session).1,
      { s with session := ((b.backend.submit ts none).perform s.session).2 }) := by
  exact lift_run _ _

/-! ## Requests for derivatives -/

section Derivatives

variable {argument order : ℕ} {x : Tensor α}

/-- A request for derivatives is a request for the results of their plans. -/
theorem derivative_run {d : Differentiator α} (horder : order ≠ 0)
    (hd : b.requireOrder order = .ok d) (s : BindingState α σ) :
    (b.derivative args argument order shots).run.run s =
      (b.run args shots (b.argumentPlan argument order)).run.run s := by
  unfold Binding.derivative Binding.argumentPlan
  rw [bind_run_of_ok (by rw [lift_run, hd]), if_neg horder, hd]
  rfl

theorem requireOrder_of_derivative
    (h : (b.derivative args argument order shots).run.run s = (.ok x, s')) :
    ∃ d, b.requireOrder order = .ok d := by
  obtain ⟨d, s₁, hd, -⟩ := bind_run_ok h
  exact ⟨d, (lift_run_ok hd).1⟩

end Derivatives

/-! ## Requests of a mutable binding -/

section Mutable

variable {plan : Trace α → Except Error (Plan α)}

/-- One recording after the other, as long as their plans can be made. -/
theorem mapM_freshPlan_run (hb : b.config.mutable = true) (owns : List (List (Argument α)))
    (s : BindingState α σ) : ∃ n, (owns.mapM fun own => do
      let t ← b.construct own
      plan (shots.elim t t.withShots)).run.run s =
        (owns.mapM (b.freshPlan shots plan), { s with recordings := n }) := by
  induction owns generalizing s with
  | nil => exact ⟨s.recordings, rfl⟩
  | cons own owns ih =>
    have hfirst : (do
        let t ← b.construct own
        plan (shots.elim t t.withShots) : Request α σ (Plan α)).run.run s =
          (b.freshPlan shots plan own, { s with recordings := s.recordings + 1 }) := by
      unfold Binding.construct Binding.freshPlan
      rw [if_pos hb, bind_run, record_run]
      cases Trace.record b.circuit own b.register b.config.shots b.config.maxOrder with
      | error e => rfl
      | ok t => exact lift_run _ _
    obtain ⟨n, hrest⟩ := ih { s with recordings := s.recordings + 1 }
    rw [List.mapM_cons, List.mapM_cons]
    cases hplan : b.freshPlan shots plan own with
    | error e =>
      rw [hplan] at hfirst
      exact ⟨_, bind_run_of_error hfirst⟩
    | ok p =>
      rw [hplan] at hfirst
      refine ⟨n, ?_⟩
      rw [bind_run_of_ok hfirst, bind_run, hrest]
      cases owns.mapM (b.freshPlan shots plan) <;> rfl

theorem ofBatch_run (size : Option ℕ) (outputs : List (Tensor α)) (s : BindingState α σ) :
    (match size, outputs with
      | some _, outputs => liftM (Tensor.stackBatch outputs [])
      | none, output :: _ => pure output
      | none, [] => liftM (ShapeFault.noResult.error : Except Error (Tensor α)) :
        Request α σ (Tensor α)).run.run s = (Tensor.ofBatch size outputs, s) := by
  rcases size with _ | n
  · rcases outputs with _ | ⟨output, rest⟩ <;> rfl
  · exact lift_run _ s

/-- A request plans, submits once and folds. -/
theorem run_of_mutable (hb : b.config.mutable = true) (args : List (Argument α))
    (shots : Option Shots) (plan : Trace α → Except Error (Plan α)) (s : BindingState α σ) :
    ∃ n, (b.run args shots plan).run.run s = match b.freshPlans shots plan args with
      | .error e => (.error e, { s with recordings := n })
      | .ok (size, plans) =>
        let (outcome, session) :=
          (b.backend.submit (plans.flatMap (·.traces)) none).perform s.session
        (do Tensor.ofBatch size (← PlanBatch.combine ⟨plans⟩ (← outcome)),
          { s with session, recordings := n }) := by
  unfold Binding.run Binding.freshPlans
  cases hsize : Argument.commonBatchSize args with
  | error e => exact ⟨s.recordings, bind_run_of_error (lift_run _ s)⟩
  | ok size =>
    cases howns : Argument.unbatch args with
    | error e =>
      refine ⟨s.recordings, ?_⟩
      rw [bind_run_of_ok (lift_run _ s)]
      exact bind_run_of_error (lift_run _ s)
    | ok owns =>
      obtain ⟨n, hplans⟩ := mapM_freshPlan_run hb owns s
      refine ⟨n, ?_⟩
      rw [bind_run_of_ok (lift_run _ s), bind_run_of_ok (lift_run _ s), ok_bind, ok_bind]
      cases hmade : owns.mapM (b.freshPlan shots plan) with
      | error e =>
        rw [hmade] at hplans
        exact bind_run_of_error hplans
      | ok plans =>
        rw [hmade] at hplans
        rw [bind_run_of_ok hplans, bind_run, execute_run, ok_bind]
        unfold PlanBatch.traces
        dsimp only [pure, Except.pure]
        -- What the submission ends with does not matter from here on.
        generalize (b.backend.submit (plans.flatMap (·.traces)) none).perform s.session = performed
        rcases performed with ⟨e | results, session⟩
        · rfl
        · dsimp only
          rw [ok_bind]
          cases PlanBatch.combine ⟨plans⟩ results with
          | error e => exact bind_run_of_error (lift_run _ _)
          | ok outputs => exact (bind_run_of_ok (lift_run _ _)).trans (ofBatch_run size outputs _)

/-- Different batch sizes are refused before anything is recorded. -/
theorem run_of_mismatch {e : Error} (h : Argument.commonBatchSize args = .error e)
    (s : BindingState α σ) : (b.run args shots plan).run.run s = (.error e, s) :=
  bind_run_of_error (by rw [h, lift_run])

end Mutable

end Proofs

end CircuitGrad
