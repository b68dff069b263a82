import CircuitGrad.Proofs.ResultCache

/-! # Logging what is executed

    To say which traces a submission hands to its backend, the backend is
    replaced by one with a log (`Backend.logged`), and to say what comes back
    as well, by one with a record of its calls (`Backend.recorded`).  Both take
    notes of every call (`Backend.noting`), which changes nothing else: every
    part of a submission does without notes what it does with them
    (`Mirrors`), and parts are put together by the rules of executions.
-/

namespace CircuitGrad

variable {α σ ν β γ : Type} [Scalar α]

/-! ## The parts of a submission -/

/-- The traces that are executed when shots are given, or none. -/
def overridden (ts : List (Trace α)) : Option Shots → List (Trace α)
  | some shots => ts.map (·.withShots shots)
  | none => ts

/-- Keep the results of the jobs, and give every trace its own. -/
def Backend.conclude (b : Backend α σ) (slots : List (Slot α)) (jobs : List (Job α))
    (fresh : List (Tensor α)) : Execution α σ (List (Tensor α)) :=
  if fresh.length ≠ jobs.length then
    throw (.shapeMismatch (.executionCount b.name fresh.length jobs.length))
  else do
    Execution.each (fun p => b.accept p.1 p.2) (jobs.zip fresh)
    slots.mapM fun slot => Backend.answer fresh.toArray slot

theorem Backend.submit_eq (b : Backend α σ) (ts : List (Trace α)) (shots : Option Shots) :
    b.submit ts shots = (do
      Execution.each (fun t => b.validate t) (overridden ts shots)
      let (slots, jobs) ← Backend.assign (overridden ts shots) []
      let fresh ← b.runJobs jobs
      b.conclude slots jobs fresh) := by
  have hthrow (e : Error) (k : Unit → Execution α σ (List (Tensor α))) :
      (throw e >>= k) = throw e := rfl
  unfold Backend.submit Backend.conclude
  simp only [hthrow]
  rfl

/-! ## Logging -/

/-- The backend with notes: each call adds to them what it was handed and what
    came back. -/
def Backend.noting (b : Backend α σ)
    (note : ν → List (Trace α) → Except Error (List (Tensor α)) → ν) : Backend α (σ × ν) where
  name := b.name
  capabilities := b.capabilities
  expansionDepth := b.expansionDepth
  gates := b.gates
  execute ts state :=
    ((b.execute ts state.1).1,
      ((b.execute ts state.1).2, note state.2 ts (b.execute ts state.1).1))

/-- The backend with a record of the traces that it is handed. -/
def Backend.logged (b : Backend α σ) : Backend α (σ × List (Trace α)) :=
  b.noting fun log ts _ => log ++ ts

/-- One use of a backend: the traces that it was handed, and what came back. -/
structure Call (α : Type) where
  traces  : List (Trace α)
  outcome : Except Error (List (Tensor α))

/-- The backend with a record of its calls. -/
def Backend.recorded (b : Backend α σ) : Backend α (σ × List (Call α)) :=
  b.noting fun calls ts outcome => calls ++ [⟨ts, outcome⟩]

namespace Session

/-- The session of a noting backend with these notes so far. -/
def withLog (s : Session α σ) (log : ν) : Session α (σ × ν) :=
  ⟨(s.device, log), s.cache⟩

def log (s : Session α (σ × ν)) : ν := s.device.2

def unlogged (s : Session α (σ × ν)) : Session α σ := ⟨s.device.1, s.cache⟩

end Session

namespace Proofs

open Execution (Ensures)
open Backend (submit_eq)

/-- The second execution does without notes what the first does with them. -/
def Mirrors (x : Execution α (σ × ν) β) (y : Execution α σ β) : Prop :=
  ∀ s, y.perform s.unlogged = ((x.perform s).1, (x.perform s).2.unlogged)

theorem perform_call (b : Backend α σ) (ts : List (Trace α)) (s : Session α σ) :
    (b.call ts).perform s =
      ((b.execute ts s.device).1, { s with device := (b.execute ts s.device).2 }) :=
  Execution.perform_lift _ _

namespace Mirrors

theorem bind {x : Execution α (σ × ν) β} {y : Execution α σ β}
    {f : β → Execution α (σ × ν) γ} {g : β → Execution α σ γ} (hxy : Mirrors x y)
    (hfg : ∀ a, Mirrors (f a) (g a)) : Mirrors (x >>= f) (y >>= g) := by
  intro s
  rw [Execution.perform_bind, Execution.perform_bind, hxy s]
  rcases x.perform s with ⟨r, s'⟩
  cases r with
  | ok a => exact hfg a s'
  | error e => rfl

theorem ret (a : β) : Mirrors (α := α) (σ := σ) (ν := ν) (pure a) (pure a) := fun _ => rfl

theorem lift (x : Except Error β) : Mirrors (σ := σ) (ν := ν) (α := α) (liftM x) (liftM x) := by
  intro s
  rw [Execution.perform_lift, Execution.perform_lift]

theorem mapM {ι : Type} {f : ι → Execution α (σ × ν) β} {g : ι → Execution α σ β}
    (h : ∀ i, Mirrors (f i) (g i)) (items : List ι) : Mirrors (items.mapM f) (items.mapM g) := by
  induction items with
  | nil => exact ret []
  | cons i items ih =>
    rw [List.mapM_cons, List.mapM_cons]
    exact bind (h i) fun _ => bind ih fun _ => ret _

theorem each {ι : Type} {f : ι → Execution α (σ × ν) Unit}
    {g : ι → Execution α σ Unit} (h : ∀ i, Mirrors (f i) (g i)) (items : List ι) :
    Mirrors (Execution.each f items) (Execution.each g items) := by
  induction items with
  | nil => exact ret _
  | cons i items ih =>
    rw [Execution.each_cons, Execution.each_cons]
    exact bind (h i) fun _ => ih

theorem lookUp (key : Fingerprint α) :
    Mirrors (σ := σ) (ν := ν) (Backend.lookUp key) (Backend.lookUp key) := by
  rintro ⟨device, cache⟩
  cases cache <;> rfl

theorem assign (ts : List (Trace α)) (jobs : List (Job α)) :
    Mirrors (σ := σ) (ν := ν) (Backend.assign ts jobs) (Backend.assign ts jobs) := by
  induction ts generalizing jobs with
  | nil => exact ret _
  | cons t ts ih =>
    unfold Backend.assign
    dsimp only
    split
    · exact bind (ih jobs) fun _ => ret _
    · refine bind (lookUp _) fun found => ?_
      cases found with
      | some r => exact bind (ih jobs) fun _ => ret _
      | none => exact bind (ih _) fun _ => ret _

variable (b : Backend α σ) (note : ν → List (Trace α) → Except Error (List (Tensor α)) → ν)

theorem call (ts : List (Trace α)) : Mirrors ((b.noting note).call ts) (b.call ts) := by
  intro s
  rw [perform_call, perform_call]
  rfl

theorem runJobs (jobs : List (Job α)) :
    Mirrors ((b.noting note).runJobs jobs) (b.runJobs jobs) := by
  unfold Backend.runJobs
  split
  · exact ret _
  · show Mirrors (if b.capabilities.batch = true then _ else _) _
    split
    · exact call b note _
    · exact bind (mapM (fun job => call b note _) jobs) fun _ => ret _

theorem store (key : Fingerprint α) (r : Tensor α) :
    Mirrors (σ := σ) (ν := ν) (Backend.store key r) (Backend.store key r) := fun _ => rfl

theorem accept (job : Job α) (r : Tensor α) :
    Mirrors ((b.noting note).accept job r) (b.accept job r) := by
  unfold Backend.accept
  refine bind (lift _) fun expected => ?_
  dsimp only
  split
  · exact fun _ => rfl
  · exact store _ _

/-- Taking notes changes nothing else. -/
theorem submit (ts : List (Trace α)) (shots : Option Shots) :
    Mirrors ((b.noting note).submit ts shots) (b.submit ts shots) := by
  rw [submit_eq, submit_eq]
  refine bind (each (fun t => lift (b.validate t)) _) fun _ => ?_
  refine bind (assign _ _) fun assigned => ?_
  refine bind (runJobs b note _) fun fresh => ?_
  unfold Backend.conclude
  split
  · exact fun _ => rfl
  · have haccept (p : Job α × Tensor α) :
        Mirrors ((b.noting note).accept p.1 p.2) (b.accept p.1 p.2) :=
      accept b note p.1 p.2
    refine bind (each haccept _) fun _ => ?_
    exact mapM (fun slot => lift _) _

end Mirrors

end Proofs

end CircuitGrad
