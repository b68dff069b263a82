import CircuitGrad.Proofs.Packed
import CircuitGrad.Proofs.PlanResults
import CircuitGrad.Proofs.StrategyAgreement

/-! # Batched requests, slice by slice

    A request with batched arguments is planned for each batch index on its
    own, all planned traces are submitted together, and the results are cut
    back into stretches, one for each plan, folded and stacked.  When the
    backend is deterministic, a trace has the same result in the batch as
    alone, so each stretch is what the request at its batch index would get
    (`results_of_foldEach`), and the slice of the result is the result of that
    request (`batch_slices`).
-/

namespace CircuitGrad

variable {α σ : Type}

/-- The entries of an argument at a batch index; the argument itself when it is not batched. -/
def Argument.row (a : Argument α) (i : ℕ) : Argument α :=
  if a.batched then
    { values := (a.values.drop (i * Tensor.volume a.shape.tail)).take (Tensor.volume a.shape.tail)
      shape := a.shape.tail
      differentiable := a.differentiable
      batched := false }
  else a

/-- What a binding is asked for at some arguments. -/
inductive Inquiry where
  | value (shots : Option Shots)
  | derivative (argument order : ℕ) (shots : Option Shots)

def Inquiry.shots : Inquiry → Option Shots
  | value shots => shots
  | derivative _ _ shots => shots

/-- The binding with a record of the calls of its backend. -/
def Binding.recorded (b : Binding α σ) : Binding α (σ × List (Call α)) :=
  ⟨b.circuit, b.backend.recorded, b.register, b.config, b.differentiator⟩

namespace Binding

variable [Scalar α]

def ask (b : Binding α σ) (args : List (Argument α)) : Inquiry → Request α σ (Tensor α)
  | .value shots => b.call args shots
  | .derivative argument order shots => b.derivative args argument order shots

/-- Derivatives of the order may be taken. -/
def Permits (b : Binding α σ) : Inquiry → Prop
  | .value _ => True
  | .derivative _ order _ => ∃ d, b.requireOrder order = .ok d

def planOf (b : Binding α σ) : Inquiry → Trace α → Except Error (Plan α)
  | .value _ => b.callPlan
  | .derivative argument order _ =>
    if order = 0 then b.callPlan else b.argumentPlan argument order

/-- The request hands the trace to the backend, unless its result is known. -/
def Submits (b : Binding α σ) (args : List (Argument α)) (q : Inquiry) (t : Trace α) : Prop :=
  ∃ size plans, b.freshPlans q.shots (b.planOf q) args = .ok (size, plans) ∧
    t ∈ plans.flatMap (·.traces)

end Binding

namespace Proofs

/-! ## Rows of arguments -/

section Rows

variable {args : List (Argument α)} {a : Argument α} {i : ℕ}

theorem row_not_batched (a : Argument α) (i : ℕ) : (a.row i).batched = false := by
  unfold Argument.row
  split
  · rfl
  · next h => exact Bool.eq_false_iff.mpr h

/-- What is sliced out of a batch is a row of it. -/
theorem eq_row_of_atIndex {own : Argument α} (hfilled : a.values.length = Tensor.volume a.shape)
    (h : a.atIndex i = .ok own) : own = a.row i := by
  unfold Argument.atIndex at h
  unfold Argument.row
  split at h
  · next hbatched =>
    rw [if_pos hbatched]
    unfold Argument.slice Argument.batchSize? at h
    rw [if_pos hbatched] at h
    cases hshape : a.shape with
    | nil =>
      rw [hshape] at h
      cases h
    | cons size rest =>
      simp only [hshape, List.head?_cons] at h
      split at h
      · cases h
      · next hlt =>
        -- The entries of a batch are divided evenly among its rows.
        have hinner : a.values.length / size = Tensor.volume rest := by
          rw [hfilled, hshape, Tensor.volume_cons]
          exact Nat.mul_div_cancel_left _ (by omega)
        rw [hinner] at h
        exact (Except.ok.inj h).symm
  · next hsingle =>
    rw [if_neg hsingle]
    exact (Except.ok.inj h).symm

/-- Two batch sizes are one too many. -/
theorem mem_batchSizes {f : Argument α × ℕ → Option (ℕ × ℕ)}
    (hf : ∀ e, f e = e.1.batchSize?.map (e.2, ·)) {a : Argument α} {m : ℕ} (ha : a ∈ args)
    (hm : a.batchSize? = some m) : ∃ i, (i, m) ∈ args.zipIdx.filterMap f := by
  obtain ⟨i, hi⟩ := List.mem_iff_getElem?.mp ha
  refine ⟨i, List.mem_filterMap.mpr ⟨(a, i), List.mk_mem_zipIdx_iff_getElem?.mpr hi, ?_⟩⟩
  rw [hf, hm, Option.map_some]

theorem commonBatchSize_of_ne {a a' : Argument α} {m n : ℕ} (ha : a ∈ args) (ha' : a' ∈ args)
    (hm : a.batchSize? = some m) (hn : a'.batchSize? = some n) (hne : m ≠ n) :
    ∃ fault, Argument.commonBatchSize args = .error (.shapeMismatch fault) := by
  unfold Argument.commonBatchSize
  dsimp only
  split
  · next hnone =>
    obtain ⟨i, hi⟩ := mem_batchSizes (fun _ => rfl) ha hm
    rw [hnone] at hi
    cases hi
  · next first size rest hsizes =>
    obtain ⟨i, hi⟩ := mem_batchSizes (fun _ => rfl) ha hm
    obtain ⟨j, hj⟩ := mem_batchSizes (fun _ => rfl) ha' hn
    rw [hsizes] at hi hj
    cases hother : rest.find? (·.2 != size) with
    | some other => exact ⟨_, rfl⟩
    | none =>
      have hall : ∀ e ∈ (first, size) :: rest, e.2 = size := by
        refine List.forall_mem_cons.mpr ⟨rfl, fun e he => ?_⟩
        simpa using List.find?_eq_none.mp hother e he
      exact absurd ((hall _ hi).trans (hall _ hj).symm) hne

/-- The argument lists of a batch are its rows. -/
theorem rows_of_unbatch {size : ℕ} {owns : List (List (Argument α))}
    (hfilled : ∀ a ∈ args, a.values.length = Tensor.volume a.shape)
    (hsize : Argument.commonBatchSize args = .ok (some size))
    (h : Argument.unbatch args = .ok owns) :
    owns = (List.range size).map fun i => args.map (·.row i) := by
  unfold Argument.unbatch at h
  rw [hsize] at h
  refine eq_map_of_mapM h fun i _ own hown => ?_
  exact eq_map_of_mapM hown fun a ha _ h => eq_row_of_atIndex (hfilled a ha) h

end Rows

/-! ## Stacked results -/

section Stacked

variable [Zero α]

/-- Each of the stacked tensors can be read back. -/
theorem indexLeading_of_stack {outputs : List (Tensor α)} {T out : Tensor α} {i : ℕ}
    (h : Tensor.stack outputs = .ok T) (hout : outputs[i]? = some out) :
    T.indexLeading i = .ok out := by
  obtain ⟨hi, rfl⟩ := List.getElem?_eq_some_iff.mp hout
  cases outputs with
  | nil => cases h
  | cons first rest =>
    obtain ⟨_, hshapes, h⟩ := bind_eq_ok h
    have hshape := shapes_of_forM hshapes _ (List.getElem_mem hi)
    obtain rfl := Except.ok.inj h
    unfold Tensor.indexLeading
    simp only [Tensor.shape_ofFn, List.size_toArray, if_pos hi]
    refine congrArg Except.ok (Tensor.ext_entry hshape.symm fun p hp => ?_)
    rw [Tensor.shape_ofFn] at hp
    rw [Tensor.entry_ofFn hp, Tensor.entry_ofFn (row_add_lt hi hp), row_add_div hp, row_add_mod hp,
      Array.getD_eq_getD_getElem?, List.getElem?_toArray, List.getElem?_eq_getElem hi,
      Option.getD_some]

theorem indexLeading_of_ofBatch {outputs : List (Tensor α)} {T out : Tensor α} {size i : ℕ}
    (h : Tensor.ofBatch (some size) outputs = .ok T) (hout : outputs[i]? = some out) :
    T.indexLeading i = .ok out := by
  unfold Tensor.ofBatch Tensor.stackBatch at h
  have hne : outputs.isEmpty = false := by
    cases outputs with
    | nil => cases hout
    | cons first rest => rfl
  simp only [hne, Bool.false_eq_true, if_false] at h
  exact indexLeading_of_stack h hout

/-- There is one index for each of the stacked tensors. -/
theorem leading_of_ofBatch {outputs : List (Tensor α)} {T : Tensor α} {size : ℕ}
    (h : Tensor.ofBatch (some size) outputs = .ok T) : T.shape.head? = some outputs.length := by
  unfold Tensor.ofBatch Tensor.stackBatch at h
  cases outputs with
  | nil =>
    obtain rfl := Except.ok.inj h
    rfl
  | cons first rest =>
    obtain ⟨_, -, h⟩ := bind_eq_ok h
    obtain rfl := Except.ok.inj h
    rfl

end Stacked

/-! ## Requests of a mutable binding -/

section Requests

variable [Scalar α] {b : Binding α σ} {family : Set (Trace α)}
  {outcome : Trace α → Except Error (Tensor α)} {args : List (Argument α)} {q : Inquiry}

/-- What is permitted is planned, submitted and folded. -/
theorem ask_run (hpermitted : b.Permits q) (args : List (Argument α)) (s : BindingState α σ) :
    (b.ask args q).run.run s = (b.run args q.shots (b.planOf q)).run.run s := by
  cases q with
  | value shots => rfl
  | derivative argument order shots =>
    obtain ⟨d, hd⟩ := hpermitted
    show (b.derivative args argument order shots).run.run s =
      (b.run args shots (if order = 0 then b.callPlan else b.argumentPlan argument order)).run.run s
    by_cases horder : order = 0
    · unfold Binding.derivative
      rw [bind_run_of_ok (by rw [lift_run, hd]), if_pos horder, if_pos horder]
      rfl
    · rw [if_neg horder]
      exact derivative_run horder hd s

/-- What a request returns comes from the results of its plans. -/
theorem results_of_ask (hmutable : b.config.mutable = true) (hpermitted : b.Permits q)
    (hb : b.backend.Deterministic family outcome)
    (hfamily : ∀ t, b.Submits args q t → t ∈ family) {s : BindingState α σ}
    (hs : b.backend.Reached family s.session) {T : Tensor α}
    (h : ((b.ask args q).run.run s).1 = .ok T) : ∃ size plans results outputs,
      b.freshPlans q.shots (b.planOf q) args = .ok (size, plans) ∧
      (∀ t ∈ plans.flatMap (·.traces), b.backend.validate t = .ok ()) ∧
      List.Forall₂ (HasResult outcome) (plans.flatMap (·.traces)) results ∧
      PlanBatch.combine ⟨plans⟩ results = .ok outputs ∧ Tensor.ofBatch size outputs = .ok T := by
  obtain ⟨n, hrun⟩ := run_of_mutable hmutable args q.shots (b.planOf q) s
  rw [ask_run hpermitted, hrun] at h
  cases hplans : b.freshPlans q.shots (b.planOf q) args with
  | error e =>
    rw [hplans] at h
    cases h
  | ok planned =>
    obtain ⟨size, plans⟩ := planned
    rw [hplans] at h
    obtain ⟨results, hresults, h⟩ := bind_eq_ok h
    obtain ⟨outputs, houtputs, hT⟩ := bind_eq_ok h
    have hsubmitted : ∀ t ∈ plans.flatMap (·.traces), t ∈ family :=
      fun t ht => hfamily t ⟨size, plans, hplans, ht⟩
    obtain ⟨hvalid, hresults⟩ := (submit_eq_ok_iff hb hs hsubmitted).mp hresults
    exact ⟨size, plans, results, outputs, rfl, hvalid, hresults, houtputs, hT⟩

/-- A request returns what its plans make of the results. -/
theorem ask_of_results (hmutable : b.config.mutable = true) (hpermitted : b.Permits q)
    (hb : b.backend.Deterministic family outcome) {size : Option ℕ} {plans : List (Plan α)}
    (hplans : b.freshPlans q.shots (b.planOf q) args = .ok (size, plans))
    (hfamily : ∀ t ∈ plans.flatMap (·.traces), t ∈ family)
    (hvalid : ∀ t ∈ plans.flatMap (·.traces), b.backend.validate t = .ok ())
    {results outputs : List (Tensor α)}
    (hresults : List.Forall₂ (HasResult outcome) (plans.flatMap (·.traces)) results)
    (houtputs : PlanBatch.combine ⟨plans⟩ results = .ok outputs) {T : Tensor α}
    (hT : Tensor.ofBatch size outputs = .ok T) {s : BindingState α σ}
    (hs : b.backend.Reached family s.session) : ((b.ask args q).run.run s).1 = .ok T := by
  obtain ⟨n, hrun⟩ := run_of_mutable hmutable args q.shots (b.planOf q) s
  rw [ask_run hpermitted, hrun, hplans]
  dsimp only
  rw [(submit_eq_ok_iff hb hs hfamily).mpr ⟨hvalid, hresults⟩, ok_bind, houtputs]
  exact hT

/-- Without batched arguments there is one plan. -/
theorem ask_eq_ok (hmutable : b.config.mutable = true) (hpermitted : b.Permits q)
    (hb : b.backend.Deterministic family outcome) (hargs : ∀ a ∈ args, a.batched = false)
    {p : Plan α} (hp : b.freshPlan q.shots (b.planOf q) args = .ok p)
    (hfamily : ∀ t ∈ p.traces, t ∈ family)
    (hvalid : ∀ t ∈ p.traces, b.backend.validate t = .ok ()) {results : List (Tensor α)}
    (hresults : List.Forall₂ (HasResult outcome) p.traces results) {out : Tensor α}
    (hout : p.combine results = .ok out) {s : BindingState α σ}
    (hs : b.backend.Reached family s.session) : ((b.ask args q).run.run s).1 = .ok out := by
  have hplans : b.freshPlans q.shots (b.planOf q) args = .ok (none, [p]) := by
    unfold Binding.freshPlans
    rw [commonBatchSize_of_not_batched hargs, ok_bind, unbatch_of_not_batched hargs, ok_bind,
      List.mapM_cons, hp]
    rfl
  have htraces : [p].flatMap (·.traces) = p.traces := List.flatMap_singleton ..
  have hcombined : PlanBatch.combine ⟨[p]⟩ results = .ok [out] := by
    rw [combine_singleton, hout]
    rfl
  rw [← htraces] at hfamily hvalid hresults
  exact ask_of_results hmutable hpermitted hb hplans hfamily hvalid hresults hcombined rfl hs

/-- What is stacked are the results at the batch indices. -/
theorem outputs_of_ask (hmutable : b.config.mutable = true) (hpermitted : b.Permits q)
    (hb : b.backend.Deterministic family outcome)
    (hfilled : ∀ a ∈ args, a.values.length = Tensor.volume a.shape) {size : ℕ}
    (hsize : Argument.commonBatchSize args = .ok (some size))
    (hfamily : ∀ t, b.Submits args q t → t ∈ family) {s : BindingState α σ}
    (hs : b.backend.Reached family s.session) {T : Tensor α}
    (h : ((b.ask args q).run.run s).1 = .ok T) :
    ∃ outputs, outputs.length = size ∧ Tensor.ofBatch (some size) outputs = .ok T ∧
      ∀ i out, outputs[i]? = some out → ∀ s' : BindingState α σ,
        b.backend.Reached family s'.session →
          ((b.ask (args.map (·.row i)) q).run.run s').1 = .ok out := by
  obtain ⟨size', plans, results, outputs, hplanned, hvalid, hresults, houtputs, hT⟩ :=
    results_of_ask hmutable hpermitted hb hfamily hs h
  obtain ⟨_, hcommon, hplans⟩ := bind_eq_ok hplanned
  obtain ⟨owns, howns, hplans⟩ := bind_eq_ok hplans
  obtain ⟨plans', hplans, hsame⟩ := bind_eq_ok hplans
  obtain rfl := Except.ok.inj (hsize.symm.trans hcommon)
  cases hsame
  obtain rfl := rows_of_unbatch hfilled hsize howns
  obtain ⟨_, -, hfolded⟩ := bind_eq_ok houtputs
  have hlength : outputs.length = size := by
    rw [length_of_foldEach hfolded, length_of_mapM hplans, List.length_map, List.length_range]
  refine ⟨outputs, hlength, hT, fun i out hout s' hs' => ?_⟩
  -- The arguments and the plan at the batch index, by their places.
  have hi : i < size := hlength ▸ (List.getElem?_eq_some_iff.mp hout).1
  have hrow : ((List.range size).map fun i => args.map (·.row i))[i]? =
      some (args.map (·.row i)) := by
    rw [List.getElem?_map, List.getElem?_range hi]
    rfl
  obtain ⟨p, hp, hplan⟩ := getElem?_of_forall₂ (forall₂_of_mapM (fun _ _ _ h => h) hplans) hrow
  obtain ⟨out', hout', own, hown, hcombined⟩ :=
    getElem?_of_forall₂ (results_of_foldEach hresults hfolded) hp
  obtain rfl := Option.some.inj (hout'.symm.trans hout)
  have hsubmitted : ∀ t ∈ p.traces, t ∈ plans.flatMap (·.traces) :=
    fun t ht => List.mem_flatMap.mpr ⟨p, List.mem_of_getElem? hp, ht⟩
  refine ask_eq_ok hmutable hpermitted hb ?_ hplan ?_ ?_ hown hcombined hs'
  · intro a ha
    obtain ⟨a, -, rfl⟩ := List.mem_map.mp ha
    exact row_not_batched a i
  · exact fun t ht => hfamily t ⟨_, _, hplanned, hsubmitted t ht⟩
  · exact fun t ht => hvalid t (hsubmitted t ht)

/-- With or without a record, a request plans the same. -/
theorem ask_recorded (hmutable : b.config.mutable = true) (hpermitted : b.Permits q)
    (args : List (Argument α)) (s : BindingState α (σ × List (Call α))) (s' : BindingState α σ)
    (hsession : s'.session = s.session.unlogged) :
    let (answer, after) := (b.recorded.ask args q).run.run s
    answer = ((b.ask args q).run.run s').1 ∧ ∃ calls, after.session.log = s.session.log ++ calls ∧
      (b.backend.capabilities.batch = true → calls.length ≤ 1) := by
  have hpermitted' : b.recorded.Permits q := by
    cases q with
    | value shots => trivial
    | derivative argument order shots => exact hpermitted
  have hplans : b.recorded.freshPlans q.shots (b.recorded.planOf q) args =
      b.freshPlans q.shots (b.planOf q) args := by
    cases q <;> rfl
  obtain ⟨n, hrun⟩ := run_of_mutable (b := b.recorded) hmutable args q.shots (b.recorded.planOf q) s
  obtain ⟨m, hrun'⟩ := run_of_mutable hmutable args q.shots (b.planOf q) s'
  rw [ask_run hpermitted', ask_run hpermitted, hrun, hrun', hplans]
  cases b.freshPlans q.shots (b.planOf q) args with
  | error e => exact ⟨rfl, [], (List.append_nil _).symm, fun _ => Nat.zero_le 1⟩
  | ok planned =>
    obtain ⟨size, plans⟩ := planned
    obtain ⟨calls, hchecked⟩ := ensures_checked b.backend (plans.flatMap (·.traces)) none s.session
    have hmirrors : Mirrors (b.backend.recorded.submit (plans.flatMap (·.traces)) none)
        (b.backend.submit (plans.flatMap (·.traces)) none) := Mirrors.submit b.backend _ _ none
    rw [hsession]
    refine ⟨?_, calls, hchecked.log, hchecked.batched⟩
    dsimp only
    rw [hmirrors s.session]
    rfl

/-- **Batched requests.**  Let the backend be deterministic, on the traces that were and are
    submitted.  When a request with batched arguments succeeds, its result has one slice for each
    batch index: what the same request returns for the unbatched arguments at that index, whatever
    was requested before and whatever is cached.  It takes one call of a backend that takes
    batches, at most.  If two batched arguments disagree in their size, the request fails for its
    shapes, and no circuit function was run. -/
theorem batch_slices (b : Binding α σ) (hmutable : b.config.mutable = true)
    (hb : b.backend.Deterministic family outcome) (args : List (Argument α))
    (hfilled : ∀ a ∈ args, a.values.length = Tensor.volume a.shape) (q : Inquiry)
    (hpermitted : b.Permits q) (hfamily : ∀ t, b.Submits args q t → t ∈ family) :
    (∀ size, Argument.commonBatchSize args = .ok (some size) → ∀ s : BindingState α σ,
      b.backend.Reached family s.session → ∀ T, ((b.ask args q).run.run s).1 = .ok T →
        T.shape.head? = some size ∧ ∀ i < size, ∃ out, T.indexLeading i = .ok out ∧
          ∀ s' : BindingState α σ, b.backend.Reached family s'.session →
            ((b.ask (args.map (·.row i)) q).run.run s').1 = .ok out) ∧
    (∀ s : BindingState α (σ × List (Call α)),
      let (answer, after) := (b.recorded.ask args q).run.run s
      answer = ((b.ask args q).run.run ⟨s.session.unlogged, s.recorded, s.recordings⟩).1 ∧
      ∃ calls, after.session.log = s.session.log ++ calls ∧
        (b.backend.capabilities.batch = true → calls.length ≤ 1)) ∧
    ∀ a ∈ args, ∀ a' ∈ args, ∀ m n, a.batchSize? = some m → a'.batchSize? = some n → m ≠ n →
      ∃ fault, ∀ s, (b.ask args q).run.run s = (.error (.shapeMismatch fault), s) := by
  refine ⟨?_, fun s => ask_recorded hmutable hpermitted args s _ rfl, ?_⟩
  · intro size hsize s hs T hT
    obtain ⟨outputs, hlength, hstacked, houtputs⟩ :=
      outputs_of_ask hmutable hpermitted hb hfilled hsize hfamily hs hT
    refine ⟨hlength ▸ leading_of_ofBatch hstacked, fun i hi => ?_⟩
    have hout : outputs[i]? = some outputs[i] := List.getElem?_eq_getElem (hlength ▸ hi)
    exact ⟨_, indexLeading_of_ofBatch hstacked hout, houtputs i _ hout⟩
  · intro a ha a' ha' m n hm hn hne
    obtain ⟨fault, hfault⟩ := commonBatchSize_of_ne ha ha' hm hn hne
    refine ⟨fault, fun s => ?_⟩
    rw [ask_run hpermitted]
    exact run_of_mismatch hfault s

end Requests

/-! ## A batch of two angles -/

section Steered

variable {ρ : Type} (sampler : Sampler ℝ ρ)

/-- The first argument at two values. -/
def twoAngles : List (Argument ℝ) := [⟨[1, 2], [2], true, true⟩]

theorem exact_halfTurns (x y : Jet ℝ) : (halfTurns x y).Exact where
  valid := ⟨by simp [halfTurns, steeredTrace], by simp [halfTurns, steeredTrace],
    by simp [halfTurns, steeredTrace, Measurement.probs]⟩
  standard := by
    simp only [halfTurns, steeredTrace, List.forall_mem_cons]
    exact ⟨⟨.hadamard, rfl⟩, ⟨.ry, rfl⟩, ⟨.cnot, rfl⟩, ⟨.ry, rfl⟩, ⟨.cnot, rfl⟩, by simp⟩
  measurements := by
    simp only [halfTurns, steeredTrace, List.forall_mem_cons]
    exact ⟨.inr (.inr ⟨[1], rfl⟩), by simp⟩
  analytic := rfl
  nonempty := two_ne_zero
  fits := Nat.le_of_ble_eq_true rfl

/-- The result of the decomposed trace is the result. -/
theorem callPlan_steeredBy (x : Jet ℝ) : ∃ p y z,
    (steeredBy sampler .device).callPlan (wholeTurn x) = .ok p ∧ p.traces = [halfTurns y z] ∧
      ∀ r, p.combine [r] = .ok r := by
  let u := halfTurns (x * .constant 0.5) (-(x * .constant 0.5))
  refine ⟨⟨[u], fun results => do (Plan.identity u).fold (← Plan.foldEach [.identity u] results)⟩,
    _, _, ?_, rfl, fun r => rfl⟩
  show (steering.backend ⟨#[]⟩ sampler).decompose _ >>= _ = _
  rw [decompose_wholeTurn, ok_bind]
  rfl

/-- One trace for each angle. -/
theorem freshPlans_twoAngles : ∃ p p' x y x' y',
    (steeredBy sampler .device).freshPlans none (steeredBy sampler .device).callPlan twoAngles =
      .ok (some 2, [p, p']) ∧
    p.traces = [halfTurns x y] ∧ p'.traces = [halfTurns x' y'] ∧
      (∀ r, p.combine [r] = .ok r) ∧ ∀ r, p'.combine [r] = .ok r := by
  obtain ⟨p, x, y, hp, htraces, hcombine⟩ := callPlan_steeredBy sampler (.seed 1 0 1 false)
  obtain ⟨p', x', y', hp', htraces', hcombine'⟩ := callPlan_steeredBy sampler (.seed 2 0 1 false)
  refine ⟨p, p', x, y, x', y', ?_, htraces, htraces', hcombine, hcombine'⟩
  have hunbatch : Argument.unbatch twoAngles =
      .ok [[⟨[1], [], true, false⟩], [⟨[2], [], true, false⟩]] := rfl
  have hfirst : (steeredBy sampler .device).freshPlan none
      (steeredBy sampler .device).callPlan [⟨[1], [], true, false⟩] = .ok p := hp
  have hsecond : (steeredBy sampler .device).freshPlan none
      (steeredBy sampler .device).callPlan [⟨[2], [], true, false⟩] = .ok p' := hp'
  have hsize : Argument.commonBatchSize twoAngles = .ok (some 2) := rfl
  unfold Binding.freshPlans
  rw [hsize, ok_bind, hunbatch, ok_bind, List.mapM_cons, hfirst, List.mapM_cons, hsecond]
  rfl

/-- Both angles at once, and each on its own. -/
theorem batch_slices_steered : Argument.commonBatchSize twoAngles = .ok (some 2) ∧
    ∀ sampler : Sampler ℝ Unit, let b := steeredBy sampler .device
    ∃ T, ((b.ask twoAngles (.value none)).run.run (Binding.start steering.session)).1 = .ok T ∧
      T.shape = [2, 2] ∧ ∀ i < 2, ∃ out, T.indexLeading i = .ok out ∧
        ((b.ask (twoAngles.map (·.row i)) (.value none)).run.run
          (Binding.start steering.session)).1 = .ok out := by
  have hsize : Argument.commonBatchSize twoAngles = .ok (some 2) := rfl
  refine ⟨hsize, ?_⟩
  intro sampler b
  obtain ⟨p, p', x, y, x', y', hplans, htraces, htraces', hcombine, hcombine'⟩ :=
    freshPlans_twoAngles sampler
  have hdeterministic : b.backend.Deterministic {t | t.Exact ∧ t.Counted} (·.simulate sampler) :=
    deterministic_simulator
  have hreached : b.backend.Reached {t | t.Exact ∧ t.Counted}
      (Binding.start steering.session : BindingState ℝ ExecutionCounts).session :=
    reached_fresh _
  have hflat : [p, p'].flatMap (·.traces) = [halfTurns x y, halfTurns x' y'] := by
    simp [htraces, htraces']
  have hfamily : ∀ t, b.Submits twoAngles (.value none) t → t ∈ {t | t.Exact ∧ t.Counted} := by
    rintro t ⟨size, plans, hplanned, ht⟩
    obtain ⟨-, rfl⟩ := Prod.mk.inj (Except.ok.inj (hplans.symm.trans hplanned))
    rw [hflat] at ht
    rcases List.mem_pair.mp ht with rfl | rfl
    all_goals exact ⟨exact_halfTurns .., counted_halfTurns ..⟩
  obtain ⟨r, hr, hshape⟩ := simulate_eq_ok (exact_halfTurns x y) sampler
  obtain ⟨r', hr', hshape'⟩ := simulate_eq_ok (exact_halfTurns x' y') sampler
  have hsame : [2] = r.shape ∧ [2] = r'.shape := ⟨Except.ok.inj hshape, Except.ok.inj hshape'⟩
  have hother : ∀ u ∈ [r'], u.shape = r.shape :=
    List.forall_mem_singleton.mpr (hsame.2.symm.trans hsame.1)
  obtain ⟨T, hstack, hTshape, -⟩ := stack_eq hother
  have hT : ((b.ask twoAngles (.value none)).run.run (Binding.start steering.session)).1 =
      .ok T := by
    have hmember : ∀ t ∈ [p, p'].flatMap (·.traces), b.Submits twoAngles (.value none) t :=
      fun t ht => ⟨_, _, hplans, ht⟩
    have hresults : List.Forall₂ (HasResult (·.simulate sampler)) ([p, p'].flatMap (·.traces))
        [r, r'] := by
      rw [hflat]
      exact .cons ⟨hr, hshape⟩ (.cons ⟨hr', hshape'⟩ .nil)
    have hvalid : ∀ t ∈ [p, p'].flatMap (·.traces), b.backend.validate t = .ok () := by
      intro t ht
      rw [hflat] at ht
      rcases List.mem_pair.mp ht with rfl | rfl
      all_goals exact validate_halfTurns ..
    have hcombined : PlanBatch.combine ⟨[p, p']⟩ [r, r'] = .ok [r, r'] := by
      have hsize : p.size = 1 := congrArg List.length htraces
      have hsize' : p'.size = 1 := congrArg List.length htraces'
      have harity : Plan.checkArity (PlanBatch.mk [p, p']).traces.length [r, r'].length = .ok () :=
        if_pos (congrArg List.length hflat)
      unfold PlanBatch.combine
      rw [harity, ok_bind]
      simp only [Plan.foldEach, hsize, hsize', List.take_succ_cons, List.take_zero,
        List.drop_succ_cons, List.drop_zero, hcombine, hcombine', ok_bind]
      rfl
    exact ask_of_results (b := b) (q := .value none) rfl trivial hdeterministic hplans
      (fun t ht => hfamily t (hmember t ht)) hvalid hresults hcombined hstack hreached
  have hslices := ((batch_slices b rfl hdeterministic twoAngles (by simp [twoAngles])
    (.value none) trivial hfamily).1 2 hsize _ hreached T hT).2
  refine ⟨T, hT, ?_, fun i hi => ?_⟩
  · rw [hTshape, ← hsame.1]
    rfl
  · obtain ⟨out, hout, hask⟩ := hslices i hi
    exact ⟨out, hout, hask _ hreached⟩

end Steered

end Proofs

end CircuitGrad
