import CircuitGrad.Proofs.BatchBinding
import CircuitGrad.Proofs.Cotangent

/-! # Batches of size zero

    A request with an empty batch records no trace, so it plans nothing and
    submits nothing, and nothing tells it what the results would look like.
    It answers with an empty vector whatever it is asked for
    (`run_of_emptyBatch`).  A batch of bindings has its trace at hand and puts
    the output shape behind the empty dimension (`bindBatch_traces`).

    The answer to the request has the shape that it has for a larger batch
    exactly if the result for a single item is a number and, for a derivative,
    the argument is a number as well (`emptyBatch_answer`).
-/

namespace CircuitGrad

variable {α σ : Type}

/-- An argument without a batch dimension, of the shape of the items of another one. -/
structure Argument.ItemOf (a item : Argument α) : Prop where
  single         : item.batched = false
  shape          : item.shape = if a.batched then a.shape.tail else a.shape
  differentiable : item.differentiable = a.differentiable

/-- Shape of the answer for a single item, given the shape of its value: each derivative adds the
    dimensions of the argument. -/
def Inquiry.itemShape (items : List (Argument α)) (value : List ℕ) : Inquiry → List ℕ
  | .value _ => value
  | .derivative argument order _ =>
    value ++ (List.replicate order (items[argument]?.elim [] (·.shape))).flatten

/-- The answer has no other dimensions than the value. -/
def Inquiry.KeepsShape (items : List (Argument α)) : Inquiry → Prop
  | .value _ => True
  | .derivative argument order _ => order = 0 ∨ ∀ item ∈ items[argument]?, item.shape = []

namespace Proofs

variable [Scalar α] {b : Binding α σ} {args : List (Argument α)} {q : Inquiry}

/-- Without a trace there is nothing to execute. -/
theorem execute_nil (s : BindingState α σ) : (b.execute []).run.run s = (.ok [], s) := rfl

/-- An empty batch is answered at once, and the state stays as it is. -/
theorem run_of_emptyBatch (h : Argument.commonBatchSize args = .ok (some 0))
    (shots : Option Shots) (plan : Trace α → Except Error (Plan α)) (s : BindingState α σ) :
    (b.run args shots plan).run.run s = (.ok (.zeros [0]), s) := by
  have hunbatch : Argument.unbatch args = .ok [] := by
    unfold Argument.unbatch
    rw [h]
    rfl
  unfold Binding.run
  rw [bind_run_of_ok (by rw [h, lift_run]), bind_run_of_ok (by rw [hunbatch, lift_run])]
  exact (bind_run_of_ok rfl).trans (bind_run_of_ok (execute_nil s))

/-- Only what is permitted is answered. -/
theorem permits_of_ask {s : BindingState α σ} {T : Tensor α}
    (h : ((b.ask args q).run.run s).1 = .ok T) : b.Permits q := by
  cases q with
  | value shots => trivial
  | derivative argument order shots => exact requireOrder_of_derivative (Prod.ext h rfl)

theorem commonBatchSize_of_ask {s : BindingState α σ} {T : Tensor α}
    (h : ((b.ask args q).run.run s).1 = .ok T) :
    ∃ size, Argument.commonBatchSize args = .ok size := by
  rw [ask_run (permits_of_ask h)] at h
  cases hsize : Argument.commonBatchSize args with
  | ok size => exact ⟨size, rfl⟩
  | error e =>
    rw [run_of_mismatch hsize] at h
    cases h

omit [Scalar α] in
theorem itemShape_eq_nil_iff {items : List (Argument α)} {value : List ℕ} :
    q.itemShape items value = [] ↔ value = [] ∧ q.KeepsShape items := by
  cases q with
  | value shots => exact (and_iff_left trivial).symm
  | derivative argument order shots =>
    unfold Inquiry.itemShape Inquiry.KeepsShape
    cases hitem : items[argument]? with
    | none => simp [hitem]
    | some item => simp [hitem, or_iff_not_imp_left]

/-- **Empty batches.**  A request with an argument of batch size zero is answered exactly if no
    other batched argument has another size and the derivatives may be taken.  It is answered by
    an empty vector, without touching the state.  So the answer has the shape of an answer for a
    single item behind the empty dimension only if that answer is a number: all its dimensions
    are lost. -/
theorem emptyBatch_answer (b : Binding α σ) {args : List (Argument α)}
    (hempty : ∃ a ∈ args, a.batchSize? = some 0) (q : Inquiry) (s : BindingState α σ) :
    ((∃ T, ((b.ask args q).run.run s).1 = .ok T) ↔
      (∀ a ∈ args, ∀ n, a.batchSize? = some n → n = 0) ∧ b.Permits q) ∧
    ∀ T, ((b.ask args q).run.run s).1 = .ok T →
      (b.ask args q).run.run s = (.ok (.zeros [0]), s) ∧
      ∀ items, List.Forall₂ Argument.ItemOf args items → ∀ s' value,
        ((b.ask items (.value q.shots)).run.run s').1 = .ok value →
          (T.shape = 0 :: q.itemShape items value.shape ↔
            value.shape = [] ∧ q.KeepsShape items) := by
  have hanswer (hagree : ∀ a ∈ args, ∀ n, a.batchSize? = some n → n = 0)
      (hpermitted : b.Permits q) : (b.ask args q).run.run s = (.ok (.zeros [0]), s) := by
    rw [ask_run hpermitted]
    exact run_of_emptyBatch (commonBatchSize_eq_some_iff.mpr ⟨hempty, hagree⟩) _ _ s
  have hasked : (∃ T, ((b.ask args q).run.run s).1 = .ok T) ↔
      (∀ a ∈ args, ∀ n, a.batchSize? = some n → n = 0) ∧ b.Permits q := by
    constructor
    · rintro ⟨T, hT⟩
      refine ⟨fun a ha n hn => ?_, permits_of_ask hT⟩
      obtain ⟨size, hsize⟩ := commonBatchSize_of_ask hT
      obtain ⟨a', ha', hzero⟩ := hempty
      by_contra hne
      obtain ⟨fault, hfault⟩ := commonBatchSize_of_ne ha ha' hn hzero hne
      rw [hfault] at hsize
      cases hsize
    · rintro ⟨hagree, hpermitted⟩
      exact ⟨_, congrArg Prod.fst (hanswer hagree hpermitted)⟩
  refine ⟨hasked, fun T hT => ?_⟩
  obtain ⟨hagree, hpermitted⟩ := hasked.mp ⟨T, hT⟩
  have hzeros := hanswer hagree hpermitted
  obtain rfl := Except.ok.inj (hT.symm.trans (congrArg Prod.fst hzeros))
  refine ⟨hzeros, fun items _ s' value _ => ?_⟩
  rw [← itemShape_eq_nil_iff]
  show [0] = _ :: _ ↔ _
  rw [List.cons.injEq, eq_comm (a := [])]
  exact and_iff_right rfl

/-! ## An empty batch of angles -/

/-- A sampler that draws the first index always. -/
noncomputable def firstDraw : Sampler ℝ Unit :=
  ⟨fun _ => (), Sampler.weightFault?, fun _ _ => (0, ()), Sampler.weightFault?_eq_none,
    fun _ _ h => List.length_pos_iff.mpr h⟩

/-- No value at all for the only argument. -/
def noAngles : List (Argument ℝ) := [⟨[], [0], true, true⟩]

/-- What is applied and measured does not depend on the angle. -/
theorem structural_steered : steered.Structural := by
  refine ⟨fun args _ => do
    let _ ← (Quantity.entry 0 0).jet args
    return [.apply StandardGate.hadamard.spec [] [0],
      .apply StandardGate.cry.spec [.leaf (.entry 0 0)] [0, 1], .measure (.probs [1])], ?_, ?_⟩
  · intro args register steps hsteps step hstep
    obtain ⟨_, -, hsteps⟩ := bind_eq_ok hsteps
    obtain rfl := Except.ok.inj hsteps
    simp only [List.mem_cons, List.not_mem_nil, or_false] at hstep
    rcases hstep with rfl | rfl | rfl
    · simp [Instruction.Unfrozen]
    · simp [Instruction.Unfrozen, Expression.Unfrozen]
    · trivial
  · intro args register
    -- The angle is read first, and it is there if a blank one is.
    have hblank : (Quantity.entry 0 0).jet (args.map (·.blank)) =
        ((Quantity.entry 0 0).jet args).map (·.withValue 0) := by
      cases args with
      | nil => rfl
      | cons first rest =>
        obtain ⟨_ | ⟨x, xs⟩, shape⟩ := first <;> rfl
    unfold steered
    dsimp only
    rw [hblank]
    cases hangle : (Quantity.entry 0 0).jet args with
    | error e => rfl
    | ok angle =>
      simp only [Except.map, ok_bind, pure_bind, List.foldlM_cons, List.foldlM_nil,
        Instruction.issue, List.mapM_cons, List.mapM_nil, Expression.eval, hangle, bind_pure]

theorem itemOf_noAngles (x : ℝ) : List.Forall₂ Argument.ItemOf noAngles [.scalar x] :=
  .cons ⟨rfl, rfl, rfl⟩ .nil

/-- The derivatives of two probabilities at no angle have one dimension, which is empty; at an
    angle they have the dimension of the probabilities. -/
theorem emptyBatch_answer_steered :
    (∃ a ∈ noAngles, a.batchSize? = some 0) ∧
    let b := steeredBy firstDraw .device
    let s : BindingState ℝ ExecutionCounts := Binding.start steering.session
    let q : Inquiry := .derivative 0 1 none
    ∃ T value, ((b.ask noAngles q).run.run s).1 = .ok T ∧
      ((b.ask [.scalar 1] (.value none)).run.run s).1 = .ok value ∧
      ¬T.shape = 0 :: q.itemShape [.scalar (1 : ℝ)] value.shape := by
  have hempty : ∃ a ∈ noAngles, a.batchSize? = some 0 := ⟨_, List.mem_cons_self, rfl⟩
  refine ⟨hempty, ?_⟩
  intro b s q
  obtain ⟨hanswered, hshape⟩ := emptyBatch_answer b hempty q s
  obtain ⟨T, hT⟩ := hanswered.mpr ⟨by simp [noAngles, Argument.batchSize?], _, rfl⟩
  obtain ⟨value, hvalue, hprobs⟩ := call_steeredBy firstDraw
  refine ⟨T, value, hT, hvalue, fun hsame => ?_⟩
  have hnumber := ((hshape T hT).2 _ (itemOf_noAngles 1) s value hvalue).mp hsame
  rw [hprobs] at hnumber
  exact List.cons_ne_nil _ _ hnumber.1

/-- An empty batch of angles loses the dimension of the two probabilities, which an angle has, and
    which the recorded trace keeps when its own parameter is bound to the batch. -/
theorem emptyBatch_loses_shape : steered.Structural ∧
    let b := steeredBy firstDraw .device
    let s : BindingState ℝ ExecutionCounts := Binding.start steering.session
    (∃ T value, ((b.call noAngles none).run.run s).1 = .ok T ∧
      ((b.call [.scalar 1] none).run.run s).1 = .ok value ∧
      T.shape = [0] ∧ 0 :: value.shape = [0, 2]) ∧
    ∃ p T, (wholeTurn steeredAngle).bindBatch noAngles = .ok p ∧ p.combine [] = .ok T ∧
      T.shape = [0, 2] := by
  refine ⟨structural_steered, ?_⟩
  intro b s
  obtain ⟨value, hvalue, hprobs⟩ := call_steeredBy firstDraw
  exact ⟨⟨_, value, congrArg Prod.fst (run_of_emptyBatch rfl none b.callPlan s), hvalue, rfl,
    congrArg (0 :: ·) hprobs⟩, _, _, rfl, rfl, rfl⟩

end Proofs

end CircuitGrad
