import Mathlib
import CircuitGrad.Proofs.DifferenceSteps
import CircuitGrad.Proofs.ShiftedResults

/-! # The calls of combining functions

    Not every combining function looks at how many results it is given.  Those
    of shift rules and of finite differences compare the number with what
    their plan needs, and a weighted sum with its coefficients; but the plan
    of a single trace takes the first result, a split pairs its parts with
    the results as long as there are some, and a batch stacks what there is.
    For all of them `combine` compares the number with that of the traces.

    How a plan was put together is a tree (`Nesting`), and folding by the tree
    keeps a record of every call (`Observed`).  It ends as folding by the plan
    does (`Sound.outcome`), and the record shows that the calls are made in the
    order of the tree, each once and with its own number of results, until one
    of them fails (`Sound.follows`).  A stage may give any number of traces,
    none included.
-/

namespace CircuitGrad

variable {α β γ : Type}

/-! ## Calls -/

/-- A function that is called to make one result of several. -/
inductive Combiner (α : Type) where
  /-- The combining function that a stage gave with its traces. -/
  | stage (p : Plan α)
  /-- A step added after a fold. -/
  | step (f : Tensor α → Except Error (Tensor α))
  /-- A step that joins the results of so many plans of a batch. -/
  | join (count : ℕ) (f : List (Tensor α) → Except Error (Tensor α))

namespace Combiner

/-- How many results the function is made for. -/
def arity : Combiner α → ℕ
  | .stage p => p.size
  | .step _ => 1
  | .join count _ => count

def apply : Combiner α → List (Tensor α) → Except Error (Tensor α)
  | .stage p, results => p.fold results
  | .step f, [r] => f r
  | .step _, _ => .error .aborted
  | .join _ f, results => f results

end Combiner

/-- One call of a function, with the results that it was given. -/
structure FoldCall (α : Type) where
  combiner  : Combiner α
  results   : List (Tensor α)
  /-- The results are those of executed traces, not of other calls. -/
  innermost : Bool

def FoldCall.outcome (c : FoldCall α) : Except Error (Tensor α) := c.combiner.apply c.results

def FoldCall.Succeeds (c : FoldCall α) : Prop := ∃ r, c.outcome = .ok r

/-- What a computation ends with, and the calls that it made, in order. -/
structure Observed (α β : Type) where
  calls   : List (FoldCall α)
  outcome : Except Error β

namespace Observed

/-- After a failure there are no more calls. -/
instance : Monad (Observed α) where
  pure b := ⟨[], .ok b⟩
  bind x f := match x.outcome with
    | .ok b => ⟨x.calls ++ (f b).calls, (f b).outcome⟩
    | .error e => ⟨x.calls, .error e⟩

/-- A step that calls nothing. -/
def lift (x : Except Error β) : Observed α β := ⟨[], x⟩

def call (combiner : Combiner α) (innermost : Bool) (results : List (Tensor α)) :
    Observed α (Tensor α) :=
  ⟨[⟨combiner, results, innermost⟩], combiner.apply results⟩

/-- The results that the innermost calls were given, call after call. -/
def slices (x : Observed α β) : List (Tensor α) :=
  (x.calls.filter (·.innermost)).flatMap (·.results)

end Observed

/-! ## Nestings -/

/-- How a plan was put together. -/
inductive Nesting (α : Type) where
  | stage (p : Plan α)
  /-- One inner nesting for each trace of the outer one. -/
  | andThen (outer : Nesting α) (inner : List (Nesting α))
  | map (body : Nesting α) (f : Tensor α → Except Error (Tensor α))
  /-- A batch whose results are joined to one. -/
  | batch (parts : List (Nesting α)) (join : List (Tensor α) → Except Error (Tensor α))

namespace Nesting

mutual

/-- The traces to execute. -/
def traces : Nesting α → List (Trace α)
  | .stage p => p.traces
  | .andThen _ inner => tracesEach inner
  | .map body _ => body.traces
  | .batch parts _ => tracesEach parts

def tracesEach : List (Nesting α) → List (Trace α)
  | [] => []
  | n :: rest => n.traces ++ tracesEach rest

end

def size (n : Nesting α) : ℕ := n.traces.length

mutual

/-- The functions of the nesting in the order of their calls, every one of
    them once: inner ones come before the outer one that folds what they give. -/
def schedule : Nesting α → List (Combiner α)
  | .stage p => [.stage p]
  | .andThen outer inner => scheduleEach inner ++ outer.schedule
  | .map body f => body.schedule ++ [.step f]
  | .batch parts join => scheduleEach parts ++ [.join parts.length join]

def scheduleEach : List (Nesting α) → List (Combiner α)
  | [] => []
  | n :: rest => n.schedule ++ scheduleEach rest

end

mutual

/-- Fold results as the plan does, with a record of the calls. -/
def observe (innermost : Bool) : Nesting α → List (Tensor α) → Observed α (Tensor α)
  | .stage p, results => .call (.stage p) innermost results
  | .andThen outer inner, results => do
    outer.observe false (← observeEach innermost inner results)
  | .map body f, results => do
    let r ← body.observe innermost results
    .call (.step f) false [r]
  | .batch parts join, results => do
    .lift (Plan.checkArity (tracesEach parts).length results.length)
    .call (.join parts.length join) false (← observeEach innermost parts results)

/-- Fold consecutive stretches by one nesting each. -/
def observeEach (innermost : Bool) :
    List (Nesting α) → List (Tensor α) → Observed α (List (Tensor α))
  | [], _ => pure []
  | n :: rest, results => do
    .lift (Plan.checkArity n.size (results.take n.size).length)
    let r ← n.observe innermost (results.take n.size)
    return r :: (← observeEach innermost rest (results.drop n.size))

end

/-- Fold one result per trace. -/
def observeCombine (n : Nesting α) (results : List (Tensor α)) : Observed α (Tensor α) := do
  .lift (Plan.checkArity n.size results.length)
  n.observe true results

/-- One result for each of several nestings, from one result per trace. -/
def observeBatch (ns : List (Nesting α)) (results : List (Tensor α)) :
    Observed α (List (Tensor α)) := do
  .lift (Plan.checkArity (tracesEach ns).length results.length)
  observeEach true ns results

end Nesting

/-- The plan was put together in the given way. -/
inductive Plan.NestedAs : Plan α → Nesting α → Prop
  /-- Any traces and any function. -/
  | stage (p : Plan α) : NestedAs p (.stage p)
  | andThen {p q : Plan α} {n : Nesting α} {stage : Trace α → Except Error (Plan α)}
      {trees : Trace α → Nesting α} (outer : NestedAs p n)
      (inner : ∀ t ∈ p.traces, ∀ r, stage t = .ok r → NestedAs r (trees t))
      (h : p.andThen stage = .ok q) : NestedAs q (.andThen n (p.traces.map trees))
  /-- The same for a stage with a memory, which may give equal traces different plans. -/
  | composite {p : Plan α} {n : Nesting α} {inner : List (Plan α × Nesting α)}
      (outer : NestedAs p n) (hinner : ∀ e ∈ inner, NestedAs e.1 e.2)
      (count : inner.length = p.size) :
      NestedAs (Proofs.composite p (inner.map (·.1))) (.andThen n (inner.map (·.2)))
  | map {p : Plan α} {n : Nesting α} (h : NestedAs p n)
      (f : Tensor α → Except Error (Tensor α)) : NestedAs (p.map f) (.map n f)
  | apply {pipeline : Pipeline α} {t : Trace α} {q : Plan α} {trees : Stage α → Trace α → Nesting α}
      (stages : ∀ s ∈ pipeline.stages, ∀ u r, s.run u = .ok r → NestedAs r (trees s u))
      (h : pipeline.apply t = .ok q) :
      NestedAs q (pipeline.stages.foldl (fun n s => .andThen n (n.traces.map (trees s)))
        (.stage (.identity t)))
  | batch {parts : List (Plan α × Nesting α)} (hparts : ∀ e ∈ parts, NestedAs e.1 e.2)
      (join : List (Tensor α) → Except Error (Tensor α)) :
      NestedAs ⟨(PlanBatch.mk (parts.map (·.1))).traces,
          fun results => do join (← (PlanBatch.mk (parts.map (·.1))).combine results)⟩
        (.batch (parts.map (·.2)) join)

/-! ## What is said of the calls -/

/-- The calls follow a schedule until one of them fails, and the innermost ones
    are given consecutive slices of a list. -/
structure Observed.Follows (x : Observed α β) (schedule : List (Combiner α))
    (read : List (Tensor α)) : Prop where
  order    : x.calls.map (·.combiner) <+: schedule
  arity    : ∀ c ∈ x.calls, c.results.length = c.combiner.arity
  slices   : x.slices <+: read
  complete : ∀ b, x.outcome = .ok b →
    x.calls.map (·.combiner) = schedule ∧ x.slices = read ∧ ∀ c ∈ x.calls, c.Succeeds
  /-- The failure is that of the last call. -/
  stops    : ∀ e, x.outcome = .error e →
    ∃ before last, x.calls = before ++ [last] ∧ last.outcome = .error e ∧
      ∀ c ∈ before, c.Succeeds

/-- What the plans of single traces and of first derivatives take by index is
    among the results of the call. -/
structure FoldCall.InRange [Scalar α] (c : FoldCall α) : Prop where
  identity : ∀ t, c.combiner = .stage (.identity t) → ∃ r, c.results = [r]
  /-- The stretch of each rule ends within the results. -/
  shifts : ∀ t config p, ParameterShift.plan t config = .ok p → c.combiner = .stage p →
    ∃ selected rules, t.selectTrainable config.parameters = .ok selected ∧
      selected.mapM (fun i => t.shiftRule i config.step) = .ok rules ∧
      ∀ k rule, rules[k]? = some rule →
        ((rules.take k).map (·.terms.length)).sum + rule.terms.length ≤ c.results.length
  /-- There are one or two results for each parameter, and one more in front
      for quotients to one side. -/
  quotients : ∀ t config p, FiniteDifference.plan t config = .ok p → c.combiner = .stage p →
    ∃ selected, t.selectTrainable config.parameters = .ok selected ∧ (selected ≠ [] →
      c.results.length =
        if config.scheme = .central then 2 * selected.length else 1 + selected.length)

/-- The calls made to fold a list of results by plans of so many traces. -/
structure Observed.Accounted [Scalar α] (x : Observed α β) (size : ℕ)
    (schedule : List (Combiner α)) (results : List (Tensor α)) : Prop where
  refused : results.length ≠ size →
    x.calls = [] ∧ x.outcome = (ShapeFault.foldArity size results.length).error
  follows : results.length = size → x.Follows schedule results
  covered : results.length = size → (∀ c ∈ x.calls, c.Succeeds) →
    (∃ b, x.outcome = .ok b) ∧ x.calls.map (·.combiner) = schedule ∧ x.slices = results
  inRange : ∀ c ∈ x.calls, c.InRange

namespace Proofs

/-! ## Sequences of calls -/

section Sequences

variable {x : Observed α β} {f : β → Observed α γ} {s s' : List (Combiner α)}
  {read read' : List (Tensor α)}

theorem outcome_bind : (x >>= f).outcome = (do (f (← x.outcome)).outcome) := by
  obtain ⟨calls, outcome⟩ := x
  cases outcome <;> rfl

theorem bind_of_ok {b : β} (h : x.outcome = .ok b) :
    x >>= f = ⟨x.calls ++ (f b).calls, (f b).outcome⟩ := by
  obtain ⟨calls, outcome⟩ := x
  cases h
  rfl

theorem bind_of_error {e : Error} (h : x.outcome = .error e) :
    x >>= f = ⟨x.calls, .error e⟩ := by
  obtain ⟨calls, outcome⟩ := x
  cases h
  rfl

/-- A check that holds leaves no trace in the record. -/
theorem lift_ok_bind (b : β) (f : β → Observed α γ) : (.lift (.ok b) >>= f) = f b := rfl

theorem slices_append (calls : List (FoldCall α)) (y : Observed α γ) (r : Except Error γ) :
    (Observed.mk (calls ++ y.calls) r).slices =
      (Observed.mk calls (.ok ())).slices ++ y.slices := by
  unfold Observed.slices
  rw [List.filter_append, List.flatMap_append]

theorem follows_pure (b : β) : (pure b : Observed α β).Follows [] [] :=
  ⟨List.nil_prefix, by simp [pure], List.nil_prefix,
    fun _ _ => ⟨rfl, rfl, by simp [pure]⟩, nofun⟩

theorem follows_call {combiner : Combiner α} {results : List (Tensor α)} (innermost : Bool)
    (h : results.length = combiner.arity) :
    (Observed.call combiner innermost results).Follows [combiner]
      (if innermost then results else []) := by
  have hslices : (Observed.call combiner innermost results).slices =
      if innermost then results else [] := by
    cases innermost
    · rfl
    · exact List.flatMap_singleton _ _
  refine ⟨List.prefix_refl _, ?_, hslices ▸ List.prefix_refl _, fun b hb => ?_, fun e he => ?_⟩
  · intro c hc
    obtain rfl := List.mem_singleton.mp hc
    exact h
  · refine ⟨rfl, hslices, fun c hc => ?_⟩
    obtain rfl := List.mem_singleton.mp hc
    exact ⟨b, hb⟩
  · exact ⟨[], _, rfl, he, by simp⟩

/-- What follows one schedule and then another follows both in a row.  Where
    the first part fails, the second is not begun. -/
theorem follows_bind (hx : x.Follows s read)
    (hf : ∀ b, x.outcome = .ok b → (f b).Follows s' read') :
    (x >>= f).Follows (s ++ s') (read ++ read') := by
  cases hout : x.outcome with
  | error e =>
    -- Nothing is added to the record, so the failure remains that of the last call.
    rw [bind_of_error hout]
    refine ⟨hx.order.trans (List.prefix_append _ _), hx.arity,
      hx.slices.trans (List.prefix_append _ _), nofun, fun e' he' => ?_⟩
    obtain rfl : e = e' := Except.error.inj he'
    exact hx.stops e hout
  | ok b =>
    -- The first schedule is through, so the calls of the second part come right behind it.
    rw [bind_of_ok hout]
    obtain ⟨horder, hread, hsucceed⟩ := hx.complete b hout
    have hy := hf b hout
    have hslices : (Observed.mk (x.calls ++ (f b).calls) (f b).outcome).slices =
        read ++ (f b).slices := by
      rw [slices_append, ← hread]
      rfl
    refine ⟨?_, ?_, ?_, fun c hc => ?_, fun e he => ?_⟩
    · show (x.calls ++ (f b).calls).map _ <+: _
      rw [List.map_append, horder]
      exact (List.prefix_append_right_inj s).mpr hy.order
    · exact List.forall_mem_append.mpr ⟨hx.arity, hy.arity⟩
    · rw [hslices]
      exact (List.prefix_append_right_inj read).mpr hy.slices
    · obtain ⟨horder', hread', hsucceed'⟩ := hy.complete c hc
      refine ⟨?_, by rw [hslices, hread'], List.forall_mem_append.mpr ⟨hsucceed, hsucceed'⟩⟩
      show (x.calls ++ (f b).calls).map _ = _
      rw [List.map_append, horder, horder']
    · obtain ⟨before, last, hcalls, hlast, hbefore⟩ := hy.stops e he
      refine ⟨x.calls ++ before, last, ?_, hlast, List.forall_mem_append.mpr ⟨hsucceed, hbefore⟩⟩
      show x.calls ++ (f b).calls = _
      rw [hcalls, List.append_assoc]

/-- A computation fails only by a call that fails. -/
theorem covered_of_succeeds (hx : x.Follows s read) (h : ∀ c ∈ x.calls, c.Succeeds) :
    (∃ b, x.outcome = .ok b) ∧ x.calls.map (·.combiner) = s ∧ x.slices = read := by
  cases hout : x.outcome with
  | ok b =>
    obtain ⟨horder, hread, -⟩ := hx.complete b hout
    exact ⟨⟨b, rfl⟩, horder, hread⟩
  | error e =>
    obtain ⟨before, last, hcalls, hlast, -⟩ := hx.stops e hout
    obtain ⟨r, hr⟩ := h last (by rw [hcalls]; exact List.mem_append_right _ List.mem_cons_self)
    exact nomatch hlast.symm.trans hr

end Sequences

/-! ## Folding by nestings -/

/-- Folding by the nesting ends as folding by the plan does, and its calls
    follow the schedule of the nesting. -/
structure Sound (p : Plan α) (n : Nesting α) : Prop where
  traces  : n.traces = p.traces
  outcome : ∀ innermost results, (n.observe innermost results).outcome = p.fold results
  follows : ∀ innermost results, results.length = p.size →
    (n.observe innermost results).Follows n.schedule (if innermost then results else [])

theorem Sound.size {p : Plan α} {n : Nesting α} (h : Sound p n) : n.size = p.size :=
  congrArg List.length h.traces

section Each

variable {plans : List (Plan α)} {ns : List (Nesting α)} {results : List (Tensor α)}

theorem tracesEach_sound (h : List.Forall₂ Sound plans ns) :
    Nesting.tracesEach ns = plans.flatMap (·.traces) := by
  induction h with
  | nil => rfl
  | cons hfirst _ ih => rw [Nesting.tracesEach, hfirst.traces, ih, List.flatMap_cons]

theorem outcome_observeEach (h : List.Forall₂ Sound plans ns) (innermost : Bool)
    (results : List (Tensor α)) :
    (Nesting.observeEach innermost ns results).outcome = Plan.foldEach plans results := by
  induction h generalizing results with
  | nil => rfl
  | @cons p n plans ns hfirst _ ih =>
    rw [Nesting.observeEach, Plan.foldEach, Plan.combine, hfirst.size]
    simp only [outcome_bind, hfirst.outcome, ih, bind_assoc]
    rfl

/-- The calls of one nesting come before those of the next, and each reads
    behind the other. -/
theorem follows_observeEach (h : List.Forall₂ Sound plans ns) (innermost : Bool)
    (hlength : results.length = (plans.flatMap (·.traces)).length) :
    (Nesting.observeEach innermost ns results).Follows (Nesting.scheduleEach ns)
      (if innermost then results else []) := by
  induction h generalizing results with
  | nil =>
    obtain rfl := List.eq_nil_of_length_eq_zero hlength
    rw [ite_self]
    exact follows_pure []
  | @cons p n plans ns hfirst _ ih =>
    rw [length_flatMap_traces] at hlength
    have hown : (results.take p.size).length = p.size :=
      List.length_take_of_le (by rw [hlength]; exact Nat.le_add_right _ _)
    have hrest : (results.drop p.size).length = (plans.flatMap (·.traces)).length := by
      rw [List.length_drop, hlength]
      exact Nat.add_sub_cancel_left _ _
    -- What is read is cut where the first plan ends, also if it is nothing.
    have hcut : (if innermost then results else []) =
        (if innermost then results.take p.size else []) ++
          ((if innermost then results.drop p.size else []) ++ []) := by
      cases innermost
      · rfl
      · simp
    have hcheck : Plan.checkArity p.size (results.take p.size).length = .ok () := if_pos hown.symm
    rw [Nesting.observeEach, Nesting.scheduleEach, hfirst.size, hcheck, lift_ok_bind, hcut,
      ← List.append_nil (Nesting.scheduleEach ns)]
    exact follows_bind (hfirst.follows innermost _ hown) fun r _ =>
      follows_bind (ih hrest) fun rs _ => follows_pure (r :: rs)

end Each

namespace Sound

variable {p q : Plan α} {n : Nesting α}

theorem stage (p : Plan α) : Sound p (.stage p) :=
  ⟨rfl, fun _ _ => rfl, fun innermost _ h => follows_call innermost h⟩

theorem composite (h : Sound p n) {plans : List (Plan α)} {ns : List (Nesting α)}
    (hinner : List.Forall₂ Sound plans ns) (hcount : plans.length = p.size) :
    Sound (composite p plans) (.andThen n ns) := by
  refine ⟨tracesEach_sound hinner, fun innermost results => ?_, fun innermost results hlength => ?_⟩
  · rw [Nesting.observe, outcome_bind, outcome_observeEach hinner]
    simp only [h.outcome]
    rfl
  · rw [Nesting.observe, Nesting.schedule, ← List.append_nil (if innermost then results else [])]
    refine follows_bind (follows_observeEach hinner innermost hlength) fun folded hfolded => ?_
    -- The outer function is given one folded result for each of its traces.
    rw [outcome_observeEach hinner] at hfolded
    exact h.follows false folded ((length_of_foldEach hfolded).trans hcount)

theorem andThen (h : Sound p n) {stage : Trace α → Except Error (Plan α)}
    {trees : Trace α → Nesting α}
    (hinner : ∀ t ∈ p.traces, ∀ r, stage t = .ok r → Sound r (trees t))
    (hq : p.andThen stage = .ok q) : Sound q (.andThen n (p.traces.map trees)) := by
  rw [andThen_eq] at hq
  obtain ⟨plans, hplans, hq⟩ := bind_eq_ok hq
  obtain rfl := Except.ok.inj hq
  refine h.composite ?_ (length_of_mapM hplans)
  rw [List.forall₂_map_right_iff]
  exact (forall₂_of_mapM hinner hplans).flip

theorem map (h : Sound p n) (f : Tensor α → Except Error (Tensor α)) :
    Sound (p.map f) (.map n f) := by
  refine ⟨h.traces, fun innermost results => ?_, fun innermost results hlength => ?_⟩
  · rw [Nesting.observe, outcome_bind, h.outcome]
    rfl
  · rw [Nesting.observe, Nesting.schedule, ← List.append_nil (if innermost then results else [])]
    exact follows_bind (h.follows innermost results hlength) fun r _ => follows_call false rfl

/-- The stages of a pipeline, from any plan on. -/
theorem foldlM {stages : List (Stage α)} {trees : Stage α → Trace α → Nesting α}
    (hstages : ∀ s ∈ stages, ∀ t r, s.run t = .ok r → Sound r (trees s t)) (h : Sound p n)
    (hq : stages.foldlM (fun plan stage => plan.andThen stage.run) p = .ok q) :
    Sound q (stages.foldl (fun n s => .andThen n (n.traces.map (trees s))) n) := by
  induction stages generalizing p n with
  | nil =>
    cases hq
    exact h
  | cons stage stages ih =>
    obtain ⟨hstage, hrest⟩ := List.forall_mem_cons.mp hstages
    rw [List.foldlM_cons] at hq
    obtain ⟨p', hp', hq⟩ := bind_eq_ok hq
    -- The next stage is applied to the traces of the plan so far, which the nesting has too.
    have hfirst := h.andThen (fun t _ => hstage t) hp'
    rw [← h.traces] at hfirst
    exact ih hrest hfirst hq

theorem batch {plans : List (Plan α)} {ns : List (Nesting α)} (h : List.Forall₂ Sound plans ns)
    (join : List (Tensor α) → Except Error (Tensor α)) :
    Sound ⟨(PlanBatch.mk plans).traces,
      fun results => do join (← (PlanBatch.mk plans).combine results)⟩ (.batch ns join) := by
  refine ⟨tracesEach_sound h, fun innermost results => ?_, fun innermost results hlength => ?_⟩
  · rw [Nesting.observe, outcome_bind, tracesEach_sound h]
    simp only [outcome_bind, outcome_observeEach h]
    unfold PlanBatch.combine
    simp only [bind_assoc]
    rfl
  · have hcheck : Plan.checkArity (Nesting.tracesEach ns).length results.length = .ok () :=
      if_pos (by rw [tracesEach_sound h]; exact hlength.symm)
    rw [Nesting.observe, Nesting.schedule, hcheck, lift_ok_bind,
      ← List.append_nil (if innermost then results else [])]
    refine follows_bind (follows_observeEach h innermost hlength) fun folded hfolded => ?_
    rw [outcome_observeEach h] at hfolded
    exact follows_call false ((length_of_foldEach hfolded).trans h.length_eq)

/-- However a plan was put together. -/
theorem of_nestedAs (h : p.NestedAs n) : Sound p n := by
  induction h with
  | stage p => exact .stage p
  | andThen _ _ hq hp hinner => exact hp.andThen hinner hq
  | @composite p n inner _ _ hcount hp hinner =>
    refine hp.composite ?_ ((List.length_map _).trans hcount)
    rw [List.forall₂_map_left_iff, List.forall₂_map_right_iff]
    exact List.forall₂_same.mpr hinner
  | map _ f hp => exact hp.map f
  | apply _ hq hstages => exact (Sound.stage _).foldlM hstages hq
  | @batch parts _ join hparts =>
    refine batch ?_ join
    rw [List.forall₂_map_left_iff, List.forall₂_map_right_iff]
    exact List.forall₂_same.mpr hparts

end Sound

/-! ## Indices -/

section Indices

variable [Scalar α] {t : Trace α}

/-- The stretches of the rules lie one behind the other within the results. -/
theorem stretches_inRange {config : ShiftConfig α} {p : Plan α}
    (hplan : ParameterShift.plan t config = .ok p) :
    ∃ selected rules, t.selectTrainable config.parameters = .ok selected ∧
      selected.mapM (fun i => t.shiftRule i config.step) = .ok rules ∧
      ∀ k rule, rules[k]? = some rule →
        ((rules.take k).map (·.terms.length)).sum + rule.terms.length ≤ p.size := by
  obtain ⟨selected, vs, base, rules, shifted, shape, hselected, -, -, -, hrules, hshifted,
    htraces, -⟩ := plan_eq_ok hplan
  refine ⟨selected, rules, hselected, hrules, fun k rule hrule => ?_⟩
  obtain ⟨hk, hget⟩ := List.getElem?_eq_some_iff.mp hrule
  have hsum : ((rules.take k).map (·.terms.length)).sum + rule.terms.length ≤
      (rules.map (·.terms.length)).sum := by
    calc ((rules.take k).map (·.terms.length)).sum + rule.terms.length
        = ((rules.take (k + 1)).map (·.terms.length)).sum := by
          rw [List.take_add_one, hrule, List.map_append, List.sum_append]
          simp
      _ ≤ (rules.map (·.terms.length)).sum :=
          ((List.take_sublist (k + 1) rules).map _).sum_le_sum fun _ _ => Nat.zero_le _
  -- The mean of a variance comes behind all stretches.
  have hsize : p.size = shifted.flatten.length +
      (if !vs.isEmpty && !rules.isEmpty then [base] else []).length := by
    rw [Plan.size, htraces, List.length_append]
  rw [length_shifted (length_of_mapM hrules) hshifted] at hsize
  omega

/-- One result for each neighbour of each parameter, and one for the point
    itself unless both sides are used. -/
theorem size_differences {config : DifferenceConfig α} {p : Plan α}
    (hplan : FiniteDifference.plan t config = .ok p) :
    ∃ selected, t.selectTrainable config.parameters = .ok selected ∧ (selected ≠ [] →
      p.size = if config.scheme = .central then 2 * selected.length else 1 + selected.length) := by
  obtain ⟨-, -, ⟨selected, hselected⟩, -⟩ := (differences_ok_iff config).mp ⟨p, hplan⟩
  refine ⟨selected, hselected, fun hne => ?_⟩
  obtain ⟨moved, hmoved, htraces, -⟩ := differences_eq_ok hplan hselected hne
  rw [Plan.size, htraces, List.length_append, length_moved hmoved]
  by_cases hcentral : config.scheme = .central
  · rw [if_pos hcentral, if_pos hcentral, hcentral]
    exact (Nat.zero_add _).trans (Nat.mul_comm _ _)
  · have hone : neighbourCount config.scheme = 1 := by
      unfold neighbourCount
      split
      · exact absurd ‹_› hcentral
      · rfl
    rw [if_neg hcentral, if_neg hcentral, hone, Nat.mul_one]
    rfl

theorem inRange_of_arity {c : FoldCall α} (h : c.results.length = c.combiner.arity) :
    c.InRange := by
  refine ⟨fun t ht => ?_, fun t config p hplan hp => ?_, fun t config p hplan hp => ?_⟩
  · rw [ht] at h
    exact List.length_eq_one_iff.mp h
  · rw [hp] at h
    rw [h]
    exact stretches_inRange hplan
  · rw [hp] at h
    rw [h]
    exact size_differences hplan

end Indices

/-! ## Combining -/

section Combining

variable [Scalar α] {size : ℕ} {results : List (Tensor α)}

/-- Behind a comparison of lengths, calls that follow a schedule are accounted for. -/
theorem accounted_of_follows {x : Observed α β} {schedule : List (Combiner α)}
    (h : results.length = size → x.Follows schedule results) :
    (do .lift (Plan.checkArity size results.length); x : Observed α β).Accounted size schedule
      results := by
  by_cases hlength : results.length = size
  · have hcheck : Plan.checkArity size results.length = .ok () := if_pos hlength.symm
    rw [hcheck, lift_ok_bind]
    exact ⟨fun hne => absurd hlength hne, h, fun _ => covered_of_succeeds (h hlength),
      fun c hc => inRange_of_arity ((h hlength).arity c hc)⟩
  · have hcheck : Plan.checkArity size results.length =
        (ShapeFault.foldArity size results.length).error := if_neg (Ne.symm hlength)
    rw [hcheck, bind_of_error rfl]
    exact ⟨fun _ => ⟨rfl, rfl⟩, fun heq => absurd heq hlength, fun heq => absurd heq hlength,
      nofun⟩

/-- A list of the wrong length is refused before any function is called.  With a
    list of the right length every function is called at most once, in a fixed
    order and with as many results as its stage gave traces, the innermost calls
    read the list from front to back, and if no call fails all of them are made
    and the whole list is read.  So nothing is taken by an index that lies
    outside of the results. -/
theorem combine_calls_accounted :
    (∀ (p : Plan α) n, p.NestedAs n → ∀ results,
      (n.observeCombine results).outcome = p.combine results ∧
      (n.observeCombine results).Accounted p.size n.schedule results) ∧
    ∀ (plans : List (Plan α)) ns, List.Forall₂ Plan.NestedAs plans ns → ∀ results,
      (Nesting.observeBatch ns results).outcome = (PlanBatch.mk plans).combine results ∧
      (Nesting.observeBatch ns results).Accounted (PlanBatch.mk plans).traces.length
        (Nesting.scheduleEach ns) results := by
  constructor
  · intro p n h results
    have hsound := Sound.of_nestedAs h
    unfold Nesting.observeCombine Plan.combine
    rw [hsound.size]
    refine ⟨?_, accounted_of_follows (hsound.follows true results)⟩
    rw [outcome_bind, hsound.outcome]
    rfl
  · intro plans ns h results
    have hsound : List.Forall₂ Sound plans ns := h.imp fun _ _ => Sound.of_nestedAs
    unfold Nesting.observeBatch PlanBatch.combine
    rw [tracesEach_sound hsound]
    refine ⟨?_, accounted_of_follows (follows_observeEach hsound true)⟩
    rw [outcome_bind, outcome_observeEach hsound]
    rfl

end Combining

/-! ## Stages that fan out -/

/-- A circuit without operations on a register of the given size. -/
def emptyCircuit (register : ℕ) : Trace ℝ := ⟨[], [], register, .analytic, .empty⟩

/-- No trace for an empty register, two for a register of one wire, and the
    trace itself otherwise. -/
noncomputable def fanOut (t : Trace ℝ) : Plan ℝ :=
  match t.register with
  | 0 => .known (.scalar 0)
  | 1 => .weighted [(2, emptyCircuit 2), (-1, emptyCircuit 3)]
  | _ => .identity t

/-- Registers of different sizes, of which the results are added. -/
noncomputable def threeRegisters : Plan ℝ :=
  .weighted [(1, emptyCircuit 0), (1, emptyCircuit 1), (1, emptyCircuit 2)]

noncomputable def fannedOut : Nesting ℝ :=
  .map (.andThen (.stage threeRegisters) (threeRegisters.traces.map (.stage <| fanOut ·))) .ok

/-- How many results each call was given, and whether they are those of traces. -/
def outline (x : Observed α β) : List (ℕ × Bool) :=
  x.calls.map fun c => (c.results.length, c.innermost)

/-- Three results for three stages, of which one has no trace, one has two and
    one has one.  Results of different shapes stop the second stage, and
    then nothing else is called.  In a batch a single trace comes behind
    them, and without a result for it nothing is called at all. -/
theorem combine_calls_accounted_fannedOut :
    ∃ p q, threeRegisters.andThen (fun t => .ok (fanOut t)) = .ok p ∧ p.map .ok = q ∧
      q.NestedAs fannedOut ∧
      (∃ x : Observed ℝ (Tensor ℝ), x.outcome = q.combine [.scalar 1, .scalar 2, .scalar 3] ∧
        x.Accounted 3 fannedOut.schedule [.scalar 1, .scalar 2, .scalar 3] ∧
        outline x = [(0, true), (2, true), (1, true), (3, false), (1, false)] ∧
        ∃ r, x.outcome = .ok r) ∧
      (∃ x : Observed ℝ (Tensor ℝ), x.outcome = q.combine [.zeros [2], .scalar 2, .scalar 3] ∧
        x.Accounted 3 fannedOut.schedule [.zeros [2], .scalar 2, .scalar 3] ∧
        outline x = [(0, true), (2, true)] ∧ ∃ e, x.outcome = .error e) ∧
      ∃ x y : Observed ℝ (List (Tensor ℝ)),
        x.outcome = (PlanBatch.mk [q, .identity (emptyCircuit 2)]).combine
          [.scalar 1, .scalar 2, .scalar 3, .scalar 4] ∧
        outline x = [(0, true), (2, true), (1, true), (3, false), (1, false), (1, true)] ∧
        x.slices = [.scalar 1, .scalar 2, .scalar 3, .scalar 4] ∧
        y.outcome = (PlanBatch.mk [q, .identity (emptyCircuit 2)]).combine
          [.scalar 1, .scalar 2, .scalar 3] ∧ y.calls = [] := by
  have hp : threeRegisters.andThen (fun t => .ok (fanOut t)) =
      .ok (composite threeRegisters (threeRegisters.traces.map fanOut)) := rfl
  have hnested : ((composite threeRegisters (threeRegisters.traces.map fanOut)).map .ok).NestedAs
      fannedOut := by
    refine .map (.andThen (.stage _) (fun t _ r hr => ?_) hp) _
    obtain rfl := Except.ok.inj hr
    exact .stage _
  obtain ⟨hcombine, hbatch⟩ := combine_calls_accounted (α := ℝ)
  have hbatch := hbatch _ _ (.cons hnested (.cons (.stage (.identity (emptyCircuit 2))) .nil))
  obtain ⟨hfull, hread⟩ := hbatch [.scalar 1, .scalar 2, .scalar 3, .scalar 4]
  obtain ⟨hshort, hrefused⟩ := hbatch [.scalar 1, .scalar 2, .scalar 3]
  refine ⟨_, _, hp, rfl, hnested, ⟨_, (hcombine _ _ hnested _).1, (hcombine _ _ hnested _).2,
    rfl, ⟨_, rfl⟩⟩, ⟨_, (hcombine _ _ hnested _).1, (hcombine _ _ hnested _).2, rfl, ⟨_, rfl⟩⟩,
    ⟨_, _, hfull, rfl, ?_, hshort, (hrefused.refused (by decide)).1⟩⟩
  obtain ⟨-, hslices, -⟩ := (hread.follows rfl).complete _ rfl
  exact hslices

end Proofs

end CircuitGrad
