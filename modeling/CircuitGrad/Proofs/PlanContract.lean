import Mathlib
import CircuitGrad.Proofs.PlanAlgebra

/-! # The contract of stages

    A stage preserves an executor when the plan that it gives for a trace
    combines what the executor gives for the traces of the plan into what it
    gives for the trace itself.  Pipelines of such stages, applied to one
    trace or to a list, do the same (`combine_pipeline`), by one step lemma:
    a stage applied to every trace of a plan keeps what the plan computes
    (`computes_andThen`).
-/

namespace CircuitGrad

variable {α : Type}

/-- The results of the plan's traces are combined into the given tensor. -/
def Plan.Computes (p : Plan α) (execute : Trace α → Tensor α) (r : Tensor α) : Prop :=
  p.combine (p.traces.map execute) = .ok r

/-- Whenever the stage gives a plan for a trace, the plan computes the result
    of the trace. -/
def Stage.Preserves (stage : Stage α) (execute : Trace α → Tensor α) : Prop :=
  ∀ t p, stage.run t = .ok p → p.Computes execute (execute t)

namespace Proofs

variable {execute : Trace α → Tensor α} {r : Tensor α}

/-- Plans executed one after the other give one result each. -/
theorem foldEach_computes {ts : List (Trace α)} {plans : List (Plan α)}
    (h : List.Forall₂ (fun t p => p.Computes execute (execute t)) ts plans) :
    Plan.foldEach plans ((plans.flatMap (·.traces)).map execute) = .ok (ts.map execute) := by
  induction h with
  | nil => rfl
  | cons hp _ ih =>
    rw [List.flatMap_cons, List.map_append]
    exact foldEach_cons_eq_ok hp ih

/-- A single trace computes its own result. -/
theorem identity_computes (t : Trace α) : (Plan.identity t).Computes execute (execute t) := rfl

/-- A stage that preserves the executor keeps what a plan computes. -/
theorem computes_andThen {stage : Stage α} (hstage : stage.Preserves execute) {p q : Plan α}
    (hp : p.Computes execute r) (h : p.andThen stage.run = .ok q) : q.Computes execute r := by
  rw [andThen_eq] at h
  obtain ⟨inner, hinner, h⟩ := bind_eq_ok h
  obtain rfl := Except.ok.inj h
  have hfold := foldEach_computes (forall₂_of_mapM (fun t _ => hstage t) hinner)
  -- What the inner plans fold to is the list that the outer plan combines.
  calc (composite p inner).combine ((composite p inner).traces.map execute)
      = (do p.fold (← Plan.foldEach inner ((inner.flatMap (·.traces)).map execute))) :=
        combine_of_length (List.length_map _)
    _ = p.fold (p.traces.map execute) := by rw [hfold, ok_bind]
    _ = p.combine (p.traces.map execute) := (combine_of_length (List.length_map _)).symm
    _ = .ok r := hp

/-- So do all stages of a pipeline, in order. -/
theorem computes_foldlM {stages : List (Stage α)} (hstages : ∀ s ∈ stages, s.Preserves execute)
    {p q : Plan α} (hp : p.Computes execute r)
    (h : stages.foldlM (fun plan stage => plan.andThen stage.run) p = .ok q) :
    q.Computes execute r := by
  induction stages generalizing p with
  | nil =>
    cases h
    exact hp
  | cons stage stages ih =>
    obtain ⟨hstage, hrest⟩ := List.forall_mem_cons.mp hstages
    rw [List.foldlM_cons] at h
    obtain ⟨p', hp', h⟩ := bind_eq_ok h
    exact ih hrest (computes_andThen hstage hp hp') h

theorem computes_apply {pipeline : Pipeline α}
    (hstages : ∀ s ∈ pipeline.stages, s.Preserves execute) (t : Trace α) (p : Plan α)
    (h : pipeline.apply t = .ok p) : p.Computes execute (execute t) :=
  computes_foldlM hstages (identity_computes t) h

/-- A pipeline of stages that preserve an executor preserves it, on one trace
    and on a list of traces. -/
theorem combine_pipeline (pipeline : Pipeline α) {execute : Trace α → Tensor α}
    (hstages : ∀ s ∈ pipeline.stages, s.Preserves execute) :
    (∀ t p, pipeline.apply t = .ok p → p.combine (p.traces.map execute) = .ok (execute t)) ∧
    ∀ ts b, pipeline.applyBatch ts = .ok b →
      b.combine (b.traces.map execute) = .ok (ts.map execute) := by
  refine ⟨computes_apply hstages, fun ts b h => ?_⟩
  obtain ⟨plans, hplans, h⟩ := bind_eq_ok h
  obtain rfl := Except.ok.inj h
  have harity : Plan.checkArity (PlanBatch.mk plans).traces.length
      ((PlanBatch.mk plans).traces.map execute).length = .ok () :=
    if_pos (List.length_map _).symm
  unfold PlanBatch.combine
  rw [harity]
  exact foldEach_computes (forall₂_of_mapM (fun t _ => computes_apply hstages t) hplans)

/-! ## An executor that counts wires -/

/-- A circuit without operations on a register of the given size. -/
def blank (register : Nat) : Trace Int := ⟨[], [], register, .analytic, .empty⟩

/-- The number of wires. -/
def countWires (t : Trace Int) : Tensor Int := .scalar t.register

/-- Even registers are known without executing anything; the size of an odd one
    is extrapolated from the next two. -/
def extrapolate : Stage Int where
  name := "extrapolate"
  run t :=
    if t.register % 2 = 0 then .ok (.known (countWires t))
    else .ok (.weighted [(2, blank (t.register + 1)), (-1, blank (t.register + 2))])

theorem preserves_extrapolate : extrapolate.Preserves countWires := by
  intro t p h
  simp only [extrapolate] at h
  by_cases heven : t.register % 2 = 0
  · rw [if_pos heven] at h
    obtain rfl := Except.ok.inj h
    rfl
  · rw [if_neg heven] at h
    obtain rfl := Except.ok.inj h
    have hsum : (0 + 2 * ((t.register + 1 : Nat) : Int)) + -1 * ((t.register + 2 : Nat) : Int) =
        t.register := by
      omega
    show Except.ok (Tensor.ofFn [] fun i =>
      (0 + 2 * (countWires (blank (t.register + 1))).entry i) +
        -1 * (countWires (blank (t.register + 2))).entry i) = _
    refine congrArg Except.ok (Tensor.ext_entry rfl fun i hi => ?_)
    obtain rfl : i = 0 := Nat.lt_one_iff.mp hi
    exact hsum

/-- Extrapolating twice: of the two traces that stand for the odd register, one is
    known at once and the other becomes two again. -/
theorem combine_pipeline_extrapolate :
    (∀ s ∈ [extrapolate, extrapolate], s.Preserves countWires) ∧
    (∃ p, Pipeline.apply ⟨[extrapolate, extrapolate]⟩ (blank 1) = .ok p ∧ p.size = 2 ∧
      p.combine (p.traces.map countWires) = .ok (.scalar 1)) ∧
    ∃ b, Pipeline.applyBatch ⟨[extrapolate, extrapolate]⟩ [blank 4, blank 1] = .ok b ∧
      b.traces.length = 2 ∧
      b.combine (b.traces.map countWires) = .ok [.scalar 4, .scalar 1] := by
  have hstages : ∀ s ∈ [extrapolate, extrapolate], s.Preserves countWires := by
    intro s hs
    obtain rfl : s = extrapolate := by simpa using hs
    exact preserves_extrapolate
  obtain ⟨hone, hmany⟩ := combine_pipeline ⟨[extrapolate, extrapolate]⟩ hstages
  exact ⟨hstages, ⟨_, rfl, rfl, hone (blank 1) _ rfl⟩,
    ⟨_, rfl, rfl, hmany [blank 4, blank 1] _ rfl⟩⟩

end Proofs

end CircuitGrad
