import Mathlib.Data.List.Forall2
import CircuitGrad.Plan.Pipeline
import CircuitGrad.Proofs.Steps

/-! # The algebra of plans

    A plan is observed through the traces that it executes and through what
    `combine` makes of a list of results.  Plans that agree in both are alike.
    Up to likeness, composition obeys the laws of a monad, whatever number of
    traces the stages give and wherever they fail, and so stages may be cut
    into pipelines at any place (`andThen_laws`).

    A composite cuts its results into stretches, one for each inner plan.  The
    proofs rest on two facts about this cutting: a stretch of inner plans
    reads its own results only (`foldEach_append`), and folding twice is
    folding by composites (`foldEach_compose`).
-/

namespace CircuitGrad

/-- Both fail, or both succeed with related values. -/
inductive Agree {ε β γ : Type} (R : β → γ → Prop) : Except ε β → Except ε γ → Prop
  | ok {a : β} {b : γ} (h : R a b) : Agree R (.ok a) (.ok b)
  | error {e e' : ε} : Agree R (.error e) (.error e')

namespace Agree

variable {ε β γ δ ζ : Type} {R : β → γ → Prop}

theorem refl {R : β → β → Prop} (h : ∀ a, R a a) (x : Except ε β) : Agree R x x := by
  cases x with
  | ok a => exact .ok (h a)
  | error e => exact .error

theorem symm {S : γ → β → Prop} {x : Except ε β} {y : Except ε γ} (hxy : Agree R x y)
    (h : ∀ a b, R a b → S b a) : Agree S y x := by
  cases hxy with
  | ok hab => exact .ok (h _ _ hab)
  | error => exact .error

theorem trans {S : γ → δ → Prop} {T : β → δ → Prop} {x : Except ε β} {y : Except ε γ}
    {z : Except ε δ} (hxy : Agree R x y) (hyz : Agree S y z)
    (h : ∀ a b c, R a b → S b c → T a c) : Agree T x z := by
  cases hxy with
  | ok hab => cases hyz with | ok hbc => exact .ok (h _ _ _ hab hbc)
  | error => cases hyz with | error => exact .error

/-- Agreement is kept by steps that agree on related values. -/
theorem bind {S : δ → ζ → Prop} {x : Except ε β} {y : Except ε γ} {f : β → Except ε δ}
    {g : γ → Except ε ζ} (hxy : Agree R x y) (h : ∀ a b, R a b → Agree S (f a) (g b)) :
    Agree S (x >>= f) (y >>= g) := by
  cases hxy with
  | ok hab => exact h _ _ hab
  | error => exact .error

/-- Agreement item by item. -/
theorem mapM_of_forall₂ {f : β → Except ε δ} {g : γ → Except ε ζ} {S : δ → ζ → Prop}
    {xs : List β} {ys : List γ} (hxs : List.Forall₂ R xs ys)
    (h : ∀ x y, R x y → Agree S (f x) (g y)) :
    Agree (List.Forall₂ S) (xs.mapM f) (ys.mapM g) := by
  induction hxs with
  | nil => exact .ok .nil
  | cons hxy _ ih =>
    rw [List.mapM_cons, List.mapM_cons]
    exact (h _ _ hxy).bind fun _ _ hfirst => ih.bind fun _ _ hrest => .ok (.cons hfirst hrest)

theorem mapM {f : β → Except ε γ} {g : β → Except ε δ} {S : γ → δ → Prop} (xs : List β)
    (h : ∀ x, Agree S (f x) (g x)) : Agree (List.Forall₂ S) (xs.mapM f) (xs.mapM g) := by
  refine mapM_of_forall₂ (List.forall₂_same.mpr fun _ _ => rfl) ?_
  rintro x _ rfl
  exact h x

end Agree

variable {α : Type}

/-- The plans execute the same traces, and of every list of results they make
    the same tensor, or both fail. -/
structure Plan.Alike (p q : Plan α) : Prop where
  traces  : p.traces = q.traces
  combine : ∀ results, Agree Eq (p.combine results) (q.combine results)

namespace Plan.Alike

variable {p q r : Plan α}

theorem refl (p : Plan α) : p.Alike p := ⟨rfl, fun _ => .refl (fun _ => rfl) _⟩

theorem symm (h : p.Alike q) : q.Alike p :=
  ⟨h.traces.symm, fun results => (h.combine results).symm fun _ _ => Eq.symm⟩

theorem trans (hpq : p.Alike q) (hqr : q.Alike r) : p.Alike r :=
  ⟨hpq.traces.trans hqr.traces, fun results =>
    (hpq.combine results).trans (hqr.combine results) fun _ _ _ => Eq.trans⟩

end Plan.Alike

namespace Proofs

theorem agree_comm {x y : Except Error (Plan α)} (h : Agree Plan.Alike x y) :
    Agree Plan.Alike y x :=
  h.symm fun _ _ => Plan.Alike.symm

theorem agree_trans {x y z : Except Error (Plan α)} (hxy : Agree Plan.Alike x y)
    (hyz : Agree Plan.Alike y z) : Agree Plan.Alike x z :=
  hxy.trans hyz fun _ _ _ => Plan.Alike.trans

/-! ## Combining -/

section Combining

variable {p q : Plan α} {results : List (Tensor α)}

/-- With one result per trace, combining is folding. -/
theorem combine_of_length (h : results.length = p.size) : p.combine results = p.fold results := by
  have harity : Plan.checkArity p.size results.length = .ok () := if_pos h.symm
  unfold Plan.combine
  rw [harity]
  rfl

theorem checkArity_eq_ok {expected actual : Nat} (h : Plan.checkArity expected actual = .ok ()) :
    actual = expected := by
  unfold Plan.checkArity at h
  split at h
  · next heq => exact heq.symm
  · cases h

/-- What can be combined is one result per trace. -/
theorem length_of_combine {r : Tensor α} (h : p.combine results = .ok r) :
    results.length = p.size := by
  obtain ⟨_, harity, -⟩ := bind_eq_ok h
  exact checkArity_eq_ok harity

/-- A step after the fold is a step after what the plan combines. -/
theorem combine_map (p : Plan α) (f : Tensor α → Except Error (Tensor α))
    (results : List (Tensor α)) :
    (p.map f).combine results = (do f (← p.combine results)) := by
  unfold Plan.combine
  rw [show (p.map f).size = p.size from rfl]
  cases Plan.checkArity p.size results.length with
  | error e => rfl
  | ok _ => rfl

/-- Any other number of results is refused. -/
theorem combine_of_length_ne (h : results.length ≠ p.size) :
    p.combine results = (ShapeFault.foldArity p.size results.length).error := by
  unfold Plan.combine Plan.checkArity
  rw [if_neg (Ne.symm h)]
  rfl

/-- Plans of the same traces are alike when they fold one result per trace
    alike. -/
theorem alike_of_fold (htraces : p.traces = q.traces)
    (hfold : ∀ results, results.length = p.size → Agree Eq (p.fold results) (q.fold results)) :
    p.Alike q := by
  refine ⟨htraces, fun results => ?_⟩
  have hsize : p.size = q.size := congrArg List.length htraces
  by_cases hlength : results.length = p.size
  · rw [combine_of_length hlength, combine_of_length (hlength.trans hsize)]
    exact hfold results hlength
  · rw [combine_of_length_ne hlength, combine_of_length_ne (hsize ▸ hlength)]
    exact .error

end Combining

/-! ## Folding stretch by stretch -/

/-- The first plan takes its own results, and the others take the rest. -/
theorem foldEach_cons_append {p : Plan α} {own : List (Tensor α)} (h : own.length = p.size)
    (ps : List (Plan α)) (rest : List (Tensor α)) :
    Plan.foldEach (p :: ps) (own ++ rest) = do
      let r ← p.fold own
      let rs ← Plan.foldEach ps rest
      return r :: rs := by
  rw [Plan.foldEach, ← h, List.take_left, List.drop_left, combine_of_length h]

theorem foldEach_cons_eq_ok {p : Plan α} {ps : List (Plan α)} {own rest rs : List (Tensor α)}
    {r : Tensor α} (hown : p.combine own = .ok r) (hrest : Plan.foldEach ps rest = .ok rs) :
    Plan.foldEach (p :: ps) (own ++ rest) = .ok (r :: rs) := by
  have hlength := length_of_combine hown
  rw [foldEach_cons_append hlength, ← combine_of_length hlength, hown, hrest]
  rfl

/-- There is one folded result per plan. -/
theorem length_of_foldEach {ps : List (Plan α)} {results folded : List (Tensor α)}
    (h : Plan.foldEach ps results = .ok folded) : folded.length = ps.length := by
  induction ps generalizing results folded with
  | nil =>
    cases h
    rfl
  | cons p ps ih =>
    obtain ⟨r, -, h⟩ := bind_eq_ok h
    obtain ⟨rest, hrest, h⟩ := bind_eq_ok h
    obtain rfl := Except.ok.inj h
    exact congrArg (· + 1) (ih hrest)

theorem length_flatMap_traces (p : Plan α) (ps : List (Plan α)) :
    ((p :: ps).flatMap (·.traces)).length = p.size + (ps.flatMap (·.traces)).length := by
  rw [List.flatMap_cons, List.length_append]
  rfl

/-- Results beyond those of the plans are not read. -/
theorem foldEach_take (ps : List (Plan α)) (results : List (Tensor α)) :
    Plan.foldEach ps (results.take (ps.flatMap (·.traces)).length) =
      Plan.foldEach ps results := by
  induction ps generalizing results with
  | nil => rfl
  | cons p ps ih =>
    rw [length_flatMap_traces, Plan.foldEach, Plan.foldEach, List.take_take,
      Nat.min_eq_left (Nat.le_add_right _ _), List.drop_take, Nat.add_sub_cancel_left, ih]

/-- A stretch of plans reads its own results only. -/
theorem foldEach_append (ps qs : List (Plan α)) (results : List (Tensor α)) :
    Plan.foldEach (ps ++ qs) results = do
      let first ← Plan.foldEach ps results
      let second ← Plan.foldEach qs (results.drop (ps.flatMap (·.traces)).length)
      return first ++ second := by
  induction ps generalizing results with
  | nil =>
    show _ = (do
      let second ← Plan.foldEach qs results
      return [] ++ second)
    simp
  | cons p ps ih =>
    rw [List.cons_append, Plan.foldEach, Plan.foldEach, ih, length_flatMap_traces]
    simp [List.drop_drop]

/-- Plans that give their single trace's result give back the results. -/
theorem foldEach_identity (ts : List (Trace α)) {results : List (Tensor α)}
    (h : results.length = ts.length) :
    Plan.foldEach (ts.map Plan.identity) results = .ok results := by
  induction ts generalizing results with
  | nil =>
    obtain rfl := List.eq_nil_of_length_eq_zero h
    rfl
  | cons t ts ih =>
    obtain ⟨r, rest, rfl⟩ := List.exists_cons_of_length_eq_add_one h
    have hown : (Plan.identity t).combine [r] = .ok r := rfl
    exact foldEach_cons_eq_ok hown (ih (Nat.succ.inj h))

/-- Plans that are alike one by one fold alike. -/
theorem foldEach_congr {ps qs : List (Plan α)} (h : List.Forall₂ Plan.Alike ps qs)
    (results : List (Tensor α)) :
    Agree Eq (Plan.foldEach ps results) (Plan.foldEach qs results) := by
  induction h generalizing results with
  | nil => exact .ok rfl
  | @cons p q ps qs hpq _ ih =>
    have hsize : p.size = q.size := congrArg List.length hpq.traces
    rw [Plan.foldEach, Plan.foldEach, ← hsize]
    refine (hpq.combine _).bind fun r _ hr => (ih _).bind fun rs _ hrs => ?_
    exact .ok (by rw [hr, hrs])

/-! ## Composition -/

/-- The plan that executes inner plans, one for each trace of the outer one. -/
def composite (p : Plan α) (inner : List (Plan α)) : Plan α :=
  ⟨inner.flatMap (·.traces), fun results => do p.fold (← Plan.foldEach inner results)⟩

theorem andThen_eq (p : Plan α) (stage : Trace α → Except Error (Plan α)) :
    p.andThen stage = do return composite p (← p.traces.mapM stage) := rfl

section Stages

variable {p q : Plan α} {stage : Trace α → Except Error (Plan α)} {t : Trace α}

theorem exists_andThen (h : ∀ t ∈ p.traces, ∃ inner, stage t = .ok inner) :
    ∃ q, p.andThen stage = .ok q := by
  obtain ⟨inners, hinners⟩ := exists_mapM_eq_ok h
  exact ⟨composite p inners, by rw [andThen_eq, hinners]; rfl⟩

theorem ok_of_andThen (h : p.andThen stage = .ok q) (ht : t ∈ p.traces) :
    ∃ inner, stage t = .ok inner := by
  obtain ⟨inners, hinners, -⟩ := bind_eq_ok h
  exact ok_of_mapM hinners ht

/-- A composition executes what the inner plans execute. -/
theorem mem_andThen_iff (h : p.andThen stage = .ok q) :
    t ∈ q.traces ↔ ∃ u ∈ p.traces, ∃ inner, stage u = .ok inner ∧ t ∈ inner.traces := by
  obtain ⟨inners, hinners, h⟩ := bind_eq_ok h
  obtain rfl := Except.ok.inj h
  constructor
  · intro ht
    obtain ⟨inner, hinner, ht⟩ := List.mem_flatMap.mp ht
    obtain ⟨u, hu, hstage⟩ := mem_of_mapM hinners hinner
    exact ⟨u, hu, inner, hstage, ht⟩
  · rintro ⟨u, hu, inner, hstage, ht⟩
    exact List.mem_flatMap.mpr ⟨inner, mem_results_of_mapM hinners hu hstage, ht⟩

end Stages

/-- Inner plans for each of several plans, as many as the plan has traces. -/
abbrev Fits (ps : List (Plan α)) (inners : List (List (Plan α))) : Prop :=
  List.Forall₂ (fun p inner => inner.length = p.size) ps inners

theorem traces_composites {ps : List (Plan α)} {inners : List (List (Plan α))}
    (h : Fits ps inners) :
    (List.zipWith composite ps inners).flatMap (·.traces) =
      inners.flatten.flatMap (·.traces) := by
  induction h with
  | nil => rfl
  | cons _ _ ih =>
    rw [List.zipWith_cons_cons, List.flatMap_cons, ih, List.flatten_cons, List.flatMap_append]
    rfl

/-- Folding by inner plans and then by outer ones is folding by composites.
    The composites fold the outer plan of one stretch before the inner plans of
    the next, so where a fold fails the two fail with different errors. -/
theorem foldEach_compose {ps : List (Plan α)} {inners : List (List (Plan α))}
    (h : Fits ps inners) {results : List (Tensor α)}
    (hlength : results.length = (inners.flatten.flatMap (·.traces)).length) :
    Agree Eq (Plan.foldEach (List.zipWith composite ps inners) results)
      (do Plan.foldEach ps (← Plan.foldEach inners.flatten results)) := by
  induction h generalizing results with
  | nil => exact .ok rfl
  | @cons p inner ps inners hfit _ ih =>
    rw [List.flatten_cons, List.flatMap_append, List.length_append] at hlength
    have hown : (composite p inner).combine (results.take (composite p inner).size) =
        (do p.fold (← Plan.foldEach inner results)) := by
      rw [combine_of_length (List.length_take_of_le (by rw [hlength]; exact Nat.le_add_right _ _)),
        ← foldEach_take inner results]
      rfl
    have hrest : (results.drop (composite p inner).size).length =
        (inners.flatten.flatMap (·.traces)).length := by
      rw [List.length_drop, hlength]
      exact Nat.add_sub_cancel_left _ _
    rw [List.zipWith_cons_cons, Plan.foldEach, hown, List.flatten_cons, foldEach_append]
    cases hinner : Plan.foldEach inner results with
    | error e => exact .error
    | ok own =>
      -- The outer plan's results are those of its own inner plans.
      have hcount : own.length = p.size := (length_of_foldEach hinner).trans hfit
      simp only [ok_bind, bind_assoc, pure_bind, foldEach_cons_append hcount]
      cases p.fold own with
      | error e =>
        simp only [error_bind]
        cases Plan.foldEach inners.flatten _ <;> exact .error
      | ok r =>
        have hcons := (ih hrest).bind (S := Eq) fun rs rs' hrs =>
          show Agree Eq (pure (r :: rs)) (pure (r :: rs')) from .ok (by rw [hrs])
        rw [bind_assoc] at hcons
        simp only [ok_bind]
        exact hcons

/-- Composites of composites are composites by inner composites. -/
theorem composite_assoc (p : Plan α) {ps : List (Plan α)} {inners : List (List (Plan α))}
    (h : Fits ps inners) :
    (composite (composite p ps) inners.flatten).Alike
      (composite p (List.zipWith composite ps inners)) := by
  refine alike_of_fold (traces_composites h).symm fun results hlength => ?_
  have hfold := (foldEach_compose h hlength).symm fun _ _ => Eq.symm
  have hboth := hfold.bind (S := Eq) fun folded folded' heq =>
    show Agree Eq (p.fold folded) (p.fold folded') from heq ▸ .refl (fun _ => rfl) _
  rwa [bind_assoc] at hboth

/-- The plans of two stages and their composites, trace by trace. -/
def Composed (two : List (Plan α) × List (Plan α)) (composites : List (Plan α)) : Prop :=
  ∃ inners, Fits two.1 inners ∧ two.2 = inners.flatten ∧
    composites = List.zipWith composite two.1 inners

/-- Applying one stage to all traces and then another to all that come out
    gives the same plans as applying both to each trace. -/
theorem mapM_stages (f g : Trace α → Except Error (Plan α)) (ts : List (Trace α)) :
    Agree Composed
      (do
        let ps ← ts.mapM f
        let qs ← (ps.flatMap (·.traces)).mapM g
        return (ps, qs))
      (ts.mapM fun t => do (← f t).andThen g) := by
  induction ts with
  | nil => exact .ok ⟨[], .nil, rfl, rfl⟩
  | cons t ts ih =>
    simp only [List.mapM_cons, andThen_eq, bind_assoc, pure_bind] at ih ⊢
    cases f t with
    | error e => exact .error
    | ok p =>
      simp only [ok_bind, List.flatMap_cons, List.mapM_append]
      cases hinner : p.traces.mapM g with
      | error e =>
        -- One side fails at once, the other after the first stage on the other traces.
        simp only [error_bind]
        cases ts.mapM f <;> exact .error
      | ok inner =>
        simp only [ok_bind]
        have hnext := ih.bind (S := Composed)
          (f := fun two => pure (p :: two.1, inner ++ two.2))
          (g := fun rest => pure (composite p inner :: rest)) fun two rest hrest => by
            obtain ⟨inners, hfits, hqs, rfl⟩ := hrest
            exact .ok ⟨inner :: inners, .cons (length_of_mapM hinner) hfits,
              congrArg (inner ++ ·) hqs, rfl⟩
        simpa only [bind_assoc, pure_bind] using hnext

/-! ## Laws -/

variable {p q : Plan α} {f g : Trace α → Except Error (Plan α)}

/-- A stage after the plan of a single trace is the stage. -/
theorem identity_andThen (t : Trace α) (f : Trace α → Except Error (Plan α)) :
    Agree Plan.Alike ((Plan.identity t).andThen f) (f t) := by
  rw [andThen_eq, show (Plan.identity t).traces = [t] from rfl, List.mapM_cons, List.mapM_nil]
  cases f t with
  | error e => exact .error
  | ok p =>
    have htraces : [p].flatMap (·.traces) = p.traces := List.flatMap_singleton _ _
    refine .ok (alike_of_fold htraces fun results hlength => ?_)
    have hsize : results.length = p.size := hlength.trans (congrArg List.length htraces)
    have hfold : Plan.foldEach [p] results = do return [← p.fold results] := by
      have hsingle := foldEach_cons_append hsize [] []
      rwa [List.append_nil] at hsingle
    show Agree Eq (do (Plan.identity t).fold (← Plan.foldEach [p] results)) (p.fold results)
    rw [hfold]
    cases p.fold results with
    | error e => exact .error
    | ok r => exact .ok rfl

/-- Giving every trace its own plan changes nothing. -/
theorem andThen_identity (p : Plan α) :
    Agree Plan.Alike (p.andThen fun t => .ok (.identity t)) (.ok p) := by
  rw [andThen_eq, mapM_ok fun _ _ => rfl]
  have htraces : (p.traces.map Plan.identity).flatMap (·.traces) = p.traces := by
    rw [List.flatMap_map]
    exact List.flatMap_singleton' _
  refine .ok (alike_of_fold htraces fun results hlength => ?_)
  have hcount : results.length = p.traces.length := hlength.trans (congrArg List.length htraces)
  show Agree Eq (do p.fold (← Plan.foldEach (p.traces.map Plan.identity) results)) _
  rw [foldEach_identity _ hcount]
  exact .refl (fun _ => rfl) _

/-- Two stages in a row are one stage that applies both. -/
theorem andThen_assoc (p : Plan α) (f g : Trace α → Except Error (Plan α)) :
    Agree Plan.Alike (do (← p.andThen f).andThen g)
      (p.andThen fun t => do (← f t).andThen g) := by
  have hstages := (mapM_stages f g p.traces).bind (S := Plan.Alike)
    (f := fun two => pure (composite (composite p two.1) two.2))
    (g := fun composites => pure (composite p composites)) fun two composites hcomposed => by
      obtain ⟨inners, hfits, hqs, rfl⟩ := hcomposed
      rw [hqs]
      exact .ok (composite_assoc p hfits)
  simp only [andThen_eq, bind_assoc, pure_bind] at hstages ⊢
  exact hstages

/-- Composition looks at a plan only through its traces and `combine`. -/
theorem andThen_congr_left (h : p.Alike q) (f : Trace α → Except Error (Plan α)) :
    Agree Plan.Alike (p.andThen f) (q.andThen f) := by
  rw [andThen_eq, andThen_eq, ← h.traces]
  cases hinner : p.traces.mapM f with
  | error e => exact .error
  | ok inner =>
    refine .ok (alike_of_fold rfl fun results _ => ?_)
    refine Agree.bind (R := fun folded folded' => folded = folded' ∧ folded.length = p.size)
      ?_ fun folded _ hfolded => ?_
    · cases hfold : Plan.foldEach inner results with
      | error e => exact .error
      | ok folded => exact .ok ⟨rfl, (length_of_foldEach hfold).trans (length_of_mapM hinner)⟩
    · obtain ⟨rfl, hlength⟩ := hfolded
      have hcombine := h.combine folded
      rwa [combine_of_length hlength,
        combine_of_length (hlength.trans (congrArg List.length h.traces))] at hcombine

/-- Composition looks at a stage only through the plans that it gives. -/
theorem andThen_congr_right (p : Plan α) (h : ∀ t, Agree Plan.Alike (f t) (g t)) :
    Agree Plan.Alike (p.andThen f) (p.andThen g) := by
  rw [andThen_eq, andThen_eq]
  refine (Agree.mapM p.traces h).bind fun inner inner' hinner => ?_
  have htraces : inner.flatMap (·.traces) = inner'.flatMap (·.traces) := by
    induction hinner with
    | nil => rfl
    | cons hfirst _ ih => rw [List.flatMap_cons, List.flatMap_cons, hfirst.traces, ih]
  refine .ok (alike_of_fold htraces fun results _ => ?_)
  exact (foldEach_congr hinner results).bind fun folded _ heq =>
    heq ▸ .refl (fun _ => rfl) _

/-- The remaining stages of a pipeline, applied to a plan. -/
theorem foldlM_andThen (stages : List (Stage α)) (p : Plan α) :
    Agree Plan.Alike (stages.foldlM (fun plan stage => plan.andThen stage.run) p)
      (p.andThen (Pipeline.apply ⟨stages⟩)) := by
  induction stages generalizing p with
  | nil => exact agree_comm (andThen_identity p)
  | cons stage stages ih =>
    have hrest : ∀ x y : Except Error (Plan α), Agree Plan.Alike x y →
        Agree Plan.Alike (do stages.foldlM (fun plan stage => plan.andThen stage.run) (← x))
          (do (← y).andThen (Pipeline.apply ⟨stages⟩)) := fun x y hxy =>
      hxy.bind fun q q' hq => agree_trans (ih q) (andThen_congr_left hq _)
    -- The first stage is moved into the stage of the whole pipeline, trace by trace.
    have hwhole : ∀ t, Agree Plan.Alike (do (← stage.run t).andThen (Pipeline.apply ⟨stages⟩))
        (Pipeline.apply ⟨stage :: stages⟩ t) := fun t =>
      agree_comm (hrest _ _ (identity_andThen t stage.run))
    have hfirst : Agree Plan.Alike
        ((stage :: stages).foldlM (fun plan stage => plan.andThen stage.run) p)
        (do (← p.andThen stage.run).andThen (Pipeline.apply ⟨stages⟩)) :=
      hrest _ _ (.refl Plan.Alike.refl _)
    exact agree_trans hfirst (agree_trans (andThen_assoc p stage.run _)
      (andThen_congr_right p hwhole))

/-- Composition of plans obeys the laws of a monad, and a pipeline may be cut
    into two pipelines at any place. -/
theorem andThen_laws (t : Trace α) (p : Plan α) (f g : Trace α → Except Error (Plan α))
    (first second : List (Stage α)) :
    Agree Plan.Alike ((Plan.identity t).andThen f) (f t) ∧
    Agree Plan.Alike (p.andThen fun u => .ok (.identity u)) (.ok p) ∧
    Agree Plan.Alike (do (← p.andThen f).andThen g) (p.andThen fun u => do (← f u).andThen g) ∧
    Agree Plan.Alike (Pipeline.apply ⟨first ++ second⟩ t)
      (do (← Pipeline.apply ⟨first⟩ t).andThen (Pipeline.apply ⟨second⟩)) := by
  refine ⟨identity_andThen t f, andThen_identity p, andThen_assoc p f g, ?_⟩
  unfold Pipeline.apply
  rw [List.foldlM_append]
  exact Agree.bind (Agree.refl (R := Eq) (fun _ => rfl) _) fun q _ hq =>
    hq ▸ foldlM_andThen second q

end Proofs

end CircuitGrad
