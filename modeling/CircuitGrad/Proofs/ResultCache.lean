import Mathlib
import CircuitGrad.Backend.Dispatch

/-! # Executions and what they keep

    An execution runs from a session to an outcome and a session; what it ends
    with is stated by `Execution.Ensures`, with one rule for each way in which
    executions are put together.  Of a session only two things matter here:
    what a look-up would find (`Session.lookup`) and what the cache holds
    (`Session.entries`).  Looking up changes the order of use and neither of
    the two; storing adds one entry at most; clearing leaves none.
-/

namespace CircuitGrad

/-! ## Look-ups and insertions -/

namespace LruCache

variable {κ β : Type} [DecidableEq κ] {c : LruCache κ β} {key : κ} {v : β}

theorem lookup_without (key k : κ) (entries : List (κ × β)) :
    (without key entries).lookup k = if k = key then none else entries.lookup k := by
  induction entries with
  | nil => simp [without]
  | cons e entries ih =>
    unfold without at ih ⊢
    rw [List.filter_cons]
    by_cases he : e.1 = key
    · have hdrop : (e.1 != key) = false := by simpa using he
      rw [hdrop, if_neg Bool.false_ne_true, ih]
      by_cases hk : k = key
      · rw [if_pos hk, if_pos hk]
      · have hne : (k == e.1) = false := by simpa [he] using hk
        rw [if_neg hk, if_neg hk, List.lookup_cons, hne]
    · have hkeep : (e.1 != key) = true := by simpa using he
      rw [if_pos hkeep, List.lookup_cons, List.lookup_cons, ih]
      by_cases hk : k = e.1
      · have hne : ¬ k = key := fun h => he (hk ▸ h)
        simp only [if_neg hne]
      · have hne : (k == e.1) = false := by simpa using hk
        rw [hne]

theorem mem_of_mem_without {e : κ × β} {entries : List (κ × β)} (h : e ∈ without key entries) :
    e ∈ entries :=
  List.mem_of_mem_filter h

theorem mem_of_peek? (h : c.peek? key = some v) : (key, v) ∈ c.entries := by
  obtain ⟨before, after, heq, -⟩ := List.lookup_eq_some_iff.mp h
  rw [heq]
  exact List.mem_append_right _ List.mem_cons_self

theorem get_fst (c : LruCache κ β) (key : κ) : (c.get key).1 = c.peek? key := by
  unfold get
  cases c.peek? key <;> rfl

/-- A look-up changes no entry. -/
theorem entries_get (c : LruCache κ β) (key : κ) : (c.get key).2.entries = c.entries := by
  unfold get
  cases c.peek? key <;> rfl

theorem mem_entries_of_evict {e : κ × β} (h : e ∈ c.evict.entries) : e ∈ c.entries := by
  unfold evict at h
  split at h
  · exact h
  · exact mem_of_mem_without h

/-- An insertion adds no other entry than its own. -/
theorem mem_entries_of_insert {e : κ × β} (h : e ∈ (c.insert key v).entries) :
    e = (key, v) ∨ e ∈ c.entries := by
  rcases List.mem_append.mp h with h | h
  · have hmem := mem_of_mem_without h
    split at hmem
    · exact .inr (mem_entries_of_evict hmem)
    · exact .inr hmem
  · exact .inl (List.mem_singleton.mp h)

end LruCache

/-! ## Sessions -/

variable {α σ β γ : Type}

section Sessions

variable [Representation α]

/-- What a look-up of the key would find. -/
def Session.lookup (s : Session α σ) (key : Fingerprint α) : Option (Tensor α) :=
  s.cache.bind (·.peek? key)

/-- What the cache holds. -/
def Session.entries (s : Session α σ) : List (Fingerprint α × Tensor α) :=
  s.cache.elim [] (·.entries)

theorem Session.mem_of_lookup {s : Session α σ} {key : Fingerprint α} {r : Tensor α}
    (h : s.lookup key = some r) : (key, r) ∈ s.entries := by
  obtain ⟨device, cache⟩ := s
  cases cache with
  | none => cases h
  | some c => exact LruCache.mem_of_peek? h

/-- Storing adds no other entry than the stored one. -/
theorem Session.mem_entries_of_insert {s : Session α σ} {key : Fingerprint α} {r : Tensor α}
    {e : Fingerprint α × Tensor α}
    (h : e ∈ Session.entries ⟨s.device, s.cache.map (·.insert key r)⟩) :
    e = (key, r) ∨ e ∈ s.entries := by
  obtain ⟨device, cache⟩ := s
  cases cache with
  | none => cases h
  | some c => exact LruCache.mem_entries_of_insert h

/-! ## Executions -/

/-- Run an execution: its outcome, and the session that it leaves. -/
def Execution.perform (x : Execution α σ β) (s : Session α σ) :
    Except Error β × Session α σ :=
  StateT.run (ExceptT.run x) s

/-- Do one thing for each of some items. -/
def Execution.each {ι : Type} (f : ι → Execution α σ Unit) (items : List ι) :
    Execution α σ Unit :=
  forIn items PUnit.unit fun i _ => do
    f i
    return .yield PUnit.unit

/-- What the execution ends with from a session. -/
def Execution.Ensures (x : Execution α σ β) (s : Session α σ)
    (post : Except Error β → Session α σ → Prop) : Prop :=
  post (x.perform s).1 (x.perform s).2

namespace Execution

variable {x : Execution α σ β} {f : β → Execution α σ γ} {s : Session α σ}

theorem perform_bind (x : Execution α σ β) (f : β → Execution α σ γ) (s : Session α σ) :
    (x >>= f).perform s = match x.perform s with
      | (.ok a, s') => (f a).perform s'
      | (.error e, s') => (.error e, s') := by
  unfold perform
  simp only [bind, ExceptT.run, ExceptT.bind, ExceptT.mk, ExceptT.bindCont, StateT.run, StateT.bind]
  rcases x s with ⟨r, s'⟩
  cases r <;> rfl

theorem perform_lift (x : Except Error β) (s : Session α σ) :
    (liftM x : Execution α σ β).perform s = (x, s) := by
  cases x <;> rfl

theorem perform_mapM_lift {ι : Type} (f : ι → Except Error β) (items : List ι) (s : Session α σ) :
    (items.mapM fun i => (liftM (f i) : Execution α σ β)).perform s = (items.mapM f, s) := by
  induction items with
  | nil => rfl
  | cons i items ih =>
    rw [List.mapM_cons, List.mapM_cons, perform_bind, perform_lift]
    cases f i with
    | error e => rfl
    | ok y =>
      dsimp only
      rw [perform_bind, ih]
      cases items.mapM f <;> rfl

theorem each_cons {ι : Type} (f : ι → Execution α σ Unit) (i : ι) (items : List ι) :
    each f (i :: items) = (do f i; each f items) := by
  unfold each
  simp only [List.forIn_cons, bind_assoc, pure_bind]

namespace Ensures

variable {post : Except Error γ → Session α σ → Prop}

theorem mono {mid post : Except Error β → Session α σ → Prop} (hx : x.Ensures s mid)
    (h : ∀ r s', mid r s' → post r s') : x.Ensures s post :=
  h _ _ hx

/-- A failure of the first part is a failure of the whole. -/
theorem bind {mid : Except Error β → Session α σ → Prop} (hx : x.Ensures s mid)
    (hok : ∀ a s', mid (.ok a) s' → (f a).Ensures s' post)
    (herror : ∀ e s', mid (.error e) s' → post (.error e) s') : (x >>= f).Ensures s post := by
  unfold Ensures at hx ⊢
  rw [perform_bind]
  rcases hperform : x.perform s with ⟨r, s'⟩
  rw [hperform] at hx
  cases r with
  | ok a => exact hok a s' hx
  | error e => exact herror e s' hx

theorem lift {post : Except Error β → Session α σ → Prop} {x : Except Error β} (h : post x s) :
    (liftM x : Execution α σ β).Ensures s post := by
  unfold Ensures
  rw [perform_lift]
  exact h

/-- What every round of a loop keeps is kept by the loop. -/
theorem each {ι : Type} {g : ι → Execution α σ Unit} (invariant : Session α σ → Prop)
    {items : List ι} (hs : invariant s)
    (hstep : ∀ i ∈ items, ∀ s, invariant s → (g i).Ensures s fun _ s' => invariant s') :
    (each g items).Ensures s fun _ s' => invariant s' := by
  induction items generalizing s with
  | nil => exact hs
  | cons i items ih =>
    obtain ⟨hfirst, hrest⟩ := List.forall_mem_cons.mp hstep
    rw [each_cons]
    exact bind (hfirst s hs) (fun _ s' hs' => ih hs' hrest) fun _ s' hs' => hs'

end Ensures

end Execution

end Sessions

end CircuitGrad
