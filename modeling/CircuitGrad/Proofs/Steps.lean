import CircuitGrad.Error
import Mathlib.Data.List.Forall2

/-! # Steps that can fail

    What the success of a chain of steps, or of the same step for every item
    of a list, says about the single steps, and the other way round.
-/

namespace CircuitGrad

namespace Proofs

variable {ε β γ : Type}

theorem ok_bind (a : β) (f : β → Except ε γ) : (Except.ok a >>= f) = f a := rfl

theorem error_bind (e : ε) (f : β → Except ε γ) : (Except.error e >>= f) = .error e := rfl

/-- A chain of two steps succeeds when both steps do. -/
theorem bind_eq_ok {x : Except ε β} {f : β → Except ε γ} {r : γ} (h : x >>= f = .ok r) :
    ∃ a, x = .ok a ∧ f a = .ok r := by
  cases x with
  | error e => cases h
  | ok a => exact ⟨a, rfl, h⟩

/-- A chain of two steps does not fail in a way in which neither step fails. -/
theorem bind_ne_error {x : Except ε β} {f : β → Except ε γ} {e : ε} (hx : x ≠ .error e)
    (hf : ∀ a, x = .ok a → f a ≠ .error e) : (x >>= f) ≠ .error e := by
  cases x with
  | error e' => exact fun h => hx (congrArg Except.error (Except.error.inj h))
  | ok a => exact hf a rfl

section Related

variable {R : β → γ → Prop} {xs : List β} {ys : List γ}

/-- What agrees on related items agrees on related lists. -/
theorem map_of_forall₂ {δ : Type} {g : γ → δ} {k : β → δ} (hR : ∀ x y, R x y → g y = k x)
    (h : List.Forall₂ R xs ys) : ys.map g = xs.map k := by
  induction h with
  | nil => rfl
  | cons hxy _ ih => rw [List.map_cons, List.map_cons, hR _ _ hxy, ih]

/-- Related lists have related items. -/
theorem getElem?_of_forall₂ (h : List.Forall₂ R xs ys) {i : ℕ} {x : β} (hx : xs[i]? = some x) :
    ∃ y, ys[i]? = some y ∧ R x y := by
  induction h generalizing i with
  | nil => cases hx
  | @cons a b as bs hab _ ih =>
    cases i with
    | zero =>
      obtain rfl : a = x := Option.some.inj hx
      exact ⟨b, rfl, hab⟩
    | succ i => exact ih hx

/-- Every item has a related one. -/
theorem exists_of_forall₂ (h : List.Forall₂ R xs ys) {x : β} (hx : x ∈ xs) : ∃ y ∈ ys, R x y := by
  obtain ⟨i, hi⟩ := List.getElem?_of_mem hx
  obtain ⟨y, hy, hxy⟩ := getElem?_of_forall₂ h hi
  exact ⟨y, List.mem_of_getElem? hy, hxy⟩

/-- What holds of the items holds of related items. -/
theorem forall₂_with {P : β → Prop} {Q : γ → Prop} (hxs : ∀ x ∈ xs, P x) (hys : ∀ y ∈ ys, Q y)
    (h : List.Forall₂ R xs ys) : List.Forall₂ (fun x y => R x y ∧ P x ∧ Q y) xs ys := by
  induction h with
  | nil => exact .nil
  | cons hxy _ ih =>
    obtain ⟨hx, hxs⟩ := List.forall_mem_cons.mp hxs
    obtain ⟨hy, hys⟩ := List.forall_mem_cons.mp hys
    exact .cons ⟨hxy, hx, hy⟩ (ih hxs hys)

/-- Where related items are two views of one thing, related lists are two views of one list. -/
theorem exists_views_of_forall₂ {δ : Type} {f : δ → β} {g : δ → γ} {Q : δ → Prop}
    (h : List.Forall₂ (fun x y => ∃ z, f z = x ∧ g z = y ∧ Q z) xs ys) :
    ∃ zs : List δ, zs.map f = xs ∧ zs.map g = ys ∧ ∀ z ∈ zs, Q z := by
  induction h with
  | nil => exact ⟨[], rfl, rfl, by simp⟩
  | cons hfirst _ ih =>
    obtain ⟨z, rfl, rfl, hz⟩ := hfirst
    obtain ⟨zs, rfl, rfl, hzs⟩ := ih
    exact ⟨z :: zs, rfl, rfl, List.forall_mem_cons.mpr ⟨hz, hzs⟩⟩

/-- Items and the results of a step that gives one for each. -/
theorem forall₂_of_mapM_eq_some {f : β → Option γ} (h : xs.mapM f = some ys) :
    List.Forall₂ (fun x y => f x = some y) xs ys := by
  induction xs generalizing ys with
  | nil =>
    cases h
    exact .nil
  | cons x xs ih =>
    rw [List.mapM_cons] at h
    obtain ⟨y, hy, h⟩ := Option.bind_eq_some_iff.mp h
    obtain ⟨ys', hys', h⟩ := Option.bind_eq_some_iff.mp h
    obtain rfl := Option.some.inj h
    exact .cons hy (ih hys')

/-- A step that gives a related item for each gives a related list. -/
theorem exists_mapM_eq_some {f : β → Option γ} (h : ∀ x ∈ xs, ∃ y, f x = some y ∧ R x y) :
    ∃ ys, xs.mapM f = some ys ∧ List.Forall₂ R xs ys := by
  induction xs with
  | nil => exact ⟨[], rfl, .nil⟩
  | cons x xs ih =>
    obtain ⟨⟨y, hy, hxy⟩, hrest⟩ := List.forall_mem_cons.mp h
    obtain ⟨ys, hys, hall⟩ := ih hrest
    refine ⟨y :: ys, ?_, .cons hxy hall⟩
    rw [List.mapM_cons, hy, hys]
    rfl

end Related

section Lists

variable {f : β → Except ε γ} {x : β} {xs : List β} {y : γ} {ys : List γ}

/-- The first item and the others. -/
theorem mapM_cons_eq_ok (h : (x :: xs).mapM f = .ok ys) :
    ∃ y ys', f x = .ok y ∧ xs.mapM f = .ok ys' ∧ ys = y :: ys' := by
  rw [List.mapM_cons] at h
  obtain ⟨y, hy, h⟩ := bind_eq_ok h
  obtain ⟨ys', hys', h⟩ := bind_eq_ok h
  exact ⟨y, ys', hy, hys', (Except.ok.inj h).symm⟩

/-- The items do not fail in a way in which none of them fails. -/
theorem mapM_ne_error {e : ε} (h : ∀ x ∈ xs, f x ≠ .error e) : xs.mapM f ≠ .error e := by
  induction xs with
  | nil => exact nofun
  | cons x xs ih =>
    obtain ⟨hfirst, hrest⟩ := List.forall_mem_cons.mp h
    rw [List.mapM_cons]
    refine bind_ne_error hfirst fun y _ => bind_ne_error (ih hrest) fun ys _ => ?_
    exact nofun

/-- A loop does not fail in a way in which no round of it fails. -/
theorem forIn_ne_error {δ : Type} {e : ε} {round : β → δ → Except ε (ForInStep δ)} {s : δ}
    (h : ∀ x ∈ xs, ∀ s, round x s ≠ .error e) : forIn xs s round ≠ .error e := by
  induction xs generalizing s with
  | nil => exact nofun
  | cons x xs ih =>
    obtain ⟨hfirst, hrest⟩ := List.forall_mem_cons.mp h
    rw [List.forIn_cons]
    refine bind_ne_error (hfirst s) fun step _ => ?_
    cases step with
    | done _ => exact nofun
    | yield _ => exact ih hrest

/-- There is one result per item. -/
theorem length_of_mapM (h : xs.mapM f = .ok ys) : ys.length = xs.length := by
  induction xs generalizing ys with
  | nil =>
    cases h
    rfl
  | cons x xs ih =>
    obtain ⟨y, ys', -, hys', rfl⟩ := mapM_cons_eq_ok h
    exact congrArg (· + 1) (ih hys')

/-- As many results as there are items, of which there are some. -/
theorem ne_nil_of_length_eq (h : ys.length = xs.length) (hne : xs ≠ []) : ys ≠ [] := by
  intro hnil
  rw [hnil] at h
  exact hne (List.length_eq_zero_iff.mp h.symm)

theorem mapM_ok {g : β → γ} (h : ∀ x ∈ xs, f x = .ok (g x)) : xs.mapM f = .ok (xs.map g) := by
  induction xs with
  | nil => rfl
  | cons x xs ih =>
    have hx := h x List.mem_cons_self
    have hxs := ih fun x' hx' => h x' (List.mem_cons_of_mem _ hx')
    rw [List.mapM_cons, hx, hxs]
    rfl

/-- The same check of every item. -/
theorem forM_eq_ok_iff {check : β → Except ε Unit} :
    xs.forM check = .ok () ↔ ∀ x ∈ xs, check x = .ok () := by
  induction xs with
  | nil => exact ⟨fun _ => by simp, fun _ => rfl⟩
  | cons x xs ih =>
    have hcons : (x :: xs).forM check = (check x >>= fun _ => xs.forM check) := rfl
    rw [hcons, List.forall_mem_cons, ← ih]
    constructor
    · intro h
      obtain ⟨_, hfirst, hrest⟩ := bind_eq_ok h
      exact ⟨hfirst, hrest⟩
    · rintro ⟨hfirst, hrest⟩
      rw [hfirst, ok_bind, hrest]

/-- A loop of checks fails as one of them does. -/
theorem exists_of_forM_error {check : β → Except ε Unit} {e : ε} (h : xs.forM check = .error e) :
    ∃ x ∈ xs, check x = .error e := by
  induction xs with
  | nil => cases h
  | cons x xs ih =>
    have hcons : (x :: xs).forM check = (check x >>= fun _ => xs.forM check) := rfl
    rw [hcons] at h
    cases hx : check x with
    | error e' =>
      rw [hx] at h
      exact ⟨x, List.mem_cons_self, hx.trans h⟩
    | ok _ =>
      rw [hx] at h
      obtain ⟨y, hy, hcheck⟩ := ih h
      exact ⟨y, List.mem_cons_of_mem _ hy, hcheck⟩

theorem mapM_congr {g : β → Except ε γ} (h : ∀ x ∈ xs, f x = g x) : xs.mapM f = xs.mapM g := by
  induction xs with
  | nil => rfl
  | cons x xs ih =>
    obtain ⟨hx, hrest⟩ := List.forall_mem_cons.mp h
    rw [List.mapM_cons, List.mapM_cons, hx, ih hrest]

/-- What every step says about its item and its result. -/
theorem forall₂_of_mapM {R : β → γ → Prop} (hf : ∀ x ∈ xs, ∀ y, f x = .ok y → R x y)
    (h : xs.mapM f = .ok ys) : List.Forall₂ R xs ys := by
  induction xs generalizing ys with
  | nil =>
    cases h
    exact .nil
  | cons x xs ih =>
    obtain ⟨y, ys', hy, hys', rfl⟩ := mapM_cons_eq_ok h
    obtain ⟨hfirst, hrest⟩ := List.forall_mem_cons.mp hf
    exact .cons (hfirst y hy) (ih hrest hys')

theorem map_of_mapM {δ : Type} {g : γ → δ} {k : β → δ} (hf : ∀ x y, f x = .ok y → g y = k x)
    (h : xs.mapM f = .ok ys) : ys.map g = xs.map k :=
  map_of_forall₂ hf (forall₂_of_mapM (fun _ _ _ => id) h)

/-- Every result comes from an item. -/
theorem mem_of_mapM (h : xs.mapM f = .ok ys) (hy : y ∈ ys) : ∃ x ∈ xs, f x = .ok y := by
  induction xs generalizing ys with
  | nil =>
    cases h
    cases hy
  | cons x xs ih =>
    obtain ⟨first, rest, hfirst, hrest, rfl⟩ := mapM_cons_eq_ok h
    rcases List.mem_cons.mp hy with rfl | hy
    · exact ⟨x, List.mem_cons_self, hfirst⟩
    · obtain ⟨x', hx', hfx'⟩ := ih hrest hy
      exact ⟨x', List.mem_cons_of_mem _ hx', hfx'⟩

/-- Every item has a result. -/
theorem ok_of_mapM (h : xs.mapM f = .ok ys) (hx : x ∈ xs) : ∃ y, f x = .ok y := by
  induction xs generalizing ys with
  | nil => cases hx
  | cons x' xs ih =>
    obtain ⟨first, rest, hfirst, hrest, rfl⟩ := mapM_cons_eq_ok h
    rcases List.mem_cons.mp hx with rfl | hx
    · exact ⟨first, hfirst⟩
    · exact ih hrest hx

/-- The result of an item is among the results. -/
theorem mem_results_of_mapM (h : xs.mapM f = .ok ys) (hx : x ∈ xs) (hy : f x = .ok y) :
    y ∈ ys := by
  induction xs generalizing ys with
  | nil => cases hx
  | cons x' xs ih =>
    obtain ⟨first, rest, hfirst, hrest, rfl⟩ := mapM_cons_eq_ok h
    rcases List.mem_cons.mp hx with rfl | hx
    · rw [hy] at hfirst
      obtain rfl := Except.ok.inj hfirst
      exact List.mem_cons_self
    · exact List.mem_cons_of_mem _ (ih hrest hx)

/-- Items stand beside their results. -/
theorem mem_zip_of_mapM (h : xs.mapM f = .ok ys) {e : β × γ} (he : e ∈ xs.zip ys) :
    e.1 ∈ xs ∧ f e.1 = .ok e.2 := by
  induction xs generalizing ys with
  | nil => cases he
  | cons x xs ih =>
    obtain ⟨first, rest, hfirst, hrest, rfl⟩ := mapM_cons_eq_ok h
    rw [List.zip_cons_cons] at he
    rcases List.mem_cons.mp he with rfl | he
    · exact ⟨List.mem_cons_self, hfirst⟩
    · obtain ⟨hmem, hf⟩ := ih hrest he
      exact ⟨List.mem_cons_of_mem _ hmem, hf⟩

/-- The results are those of a function that gives them. -/
theorem eq_map_of_mapM {g : β → γ} (h : xs.mapM f = .ok ys)
    (hg : ∀ x ∈ xs, ∀ y, f x = .ok y → y = g x) : ys = xs.map g := by
  have hall : xs.mapM f = .ok (xs.map g) := mapM_ok fun x hx => by
    obtain ⟨y, hy⟩ := ok_of_mapM h hx
    rw [hy, hg x hx y hy]
  exact Except.ok.inj (h.symm.trans hall)

/-- If every item has a result, so has the list. -/
theorem exists_mapM_eq_ok (h : ∀ x ∈ xs, ∃ y, f x = .ok y) : ∃ ys, xs.mapM f = .ok ys := by
  induction xs with
  | nil => exact ⟨[], rfl⟩
  | cons x xs ih =>
    obtain ⟨⟨y, hy⟩, hrest⟩ := List.forall_mem_cons.mp h
    obtain ⟨ys, hys⟩ := ih hrest
    refine ⟨y :: ys, ?_⟩
    rw [List.mapM_cons, hy, hys]
    rfl

/-- If every item has its result, the list of results is that of the list. -/
theorem mapM_of_forall₂ (h : List.Forall₂ (fun x y => f x = .ok y) xs ys) :
    xs.mapM f = .ok ys := by
  induction h with
  | nil => rfl
  | cons hxy _ ih =>
    rw [List.mapM_cons, hxy, ih]
    rfl

/-- Where a step gives a result of known view for every item, the list of results has the list of
    views. -/
theorem exists_mapM_of_forall₂ {δ : Type} {R : β → δ → Prop} {view : γ → δ} {ds : List δ}
    (hR : ∀ x ∈ xs, ∀ d, R x d → ∃ y, f x = .ok y ∧ view y = d) (h : List.Forall₂ R xs ds) :
    ∃ ys, xs.mapM f = .ok ys ∧ ys.map view = ds := by
  induction h with
  | nil => exact ⟨[], rfl, rfl⟩
  | cons hxd _ ih =>
    obtain ⟨hfirst, hrest⟩ := List.forall_mem_cons.mp hR
    obtain ⟨y, hy, hview⟩ := hfirst _ hxd
    obtain ⟨ys, hys, hviews⟩ := ih hrest
    refine ⟨y :: ys, ?_, by rw [List.map_cons, hview, hviews]⟩
    rw [List.mapM_cons, hy, hys]
    rfl

/-- Where a step succeeds on an item, another step succeeds on a related item and gives a related
    result; so it is for related lists. -/
theorem exists_mapM_of_related {δ η : Type} {R : β → δ → Prop} {S : γ → η → Prop}
    {g : δ → Except ε η} {zs : List δ}
    (hstep : ∀ x z, R x z → ∀ y, f x = .ok y → ∃ w, g z = .ok w ∧ S y w)
    (h : List.Forall₂ R xs zs) (hxs : xs.mapM f = .ok ys) :
    ∃ ws, zs.mapM g = .ok ws ∧ List.Forall₂ S ys ws := by
  induction h generalizing ys with
  | nil =>
    cases hxs
    exact ⟨[], rfl, .nil⟩
  | cons hxz _ ih =>
    obtain ⟨y, ys', hy, hys', rfl⟩ := mapM_cons_eq_ok hxs
    obtain ⟨w, hw, hyw⟩ := hstep _ _ hxz y hy
    obtain ⟨ws, hws, hrest⟩ := ih hys'
    refine ⟨w :: ws, ?_, .cons hyw hrest⟩
    rw [List.mapM_cons, hw, hws]
    rfl

/-- The indices of a list. -/
theorem range_length_eq_zipIdx (xs : List β) :
    List.range xs.length = xs.zipIdx.map Prod.snd := by
  rw [List.zipIdx_map_snd, List.range_eq_range']

end Lists

section Folds

variable {σ : Type} {f : σ → β → Except ε σ} {xs : List β} {s r : σ}

/-- What a step that succeeds says about its item. -/
theorem forall_of_foldlM {Q : β → Prop} (hf : ∀ x ∈ xs, ∀ s r, f s x = .ok r → Q x)
    (h : xs.foldlM f s = .ok r) : ∀ x ∈ xs, Q x := by
  induction xs generalizing s with
  | nil => simp
  | cons x xs ih =>
    obtain ⟨hfirst, hrest⟩ := List.forall_mem_cons.mp hf
    rw [List.foldlM_cons] at h
    obtain ⟨q, hq, h⟩ := bind_eq_ok h
    exact List.forall_mem_cons.mpr ⟨hfirst s q hq, ih hrest h⟩

/-- Steps that agree on related items fold related lists to the same. -/
theorem foldlM_of_forall₂ {g : σ → γ → Except ε σ} {ys : List γ}
    (h : List.Forall₂ (fun x y => ∀ s, g s y = f s x) xs ys) : ys.foldlM g s = xs.foldlM f s := by
  induction h generalizing s with
  | nil => rfl
  | cons hxy _ ih =>
    rw [List.foldlM_cons, List.foldlM_cons, hxy s]
    exact congrArg _ (funext fun r => ih)

/-- A fold fails in a way in which one of its steps fails. -/
theorem exists_of_foldlM_error {e : ε} (h : xs.foldlM f s = .error e) :
    ∃ x ∈ xs, ∃ s, f s x = .error e := by
  induction xs generalizing s with
  | nil => cases h
  | cons x xs ih =>
    rw [List.foldlM_cons] at h
    cases hx : f s x with
    | error e' =>
      rw [hx] at h
      exact ⟨x, List.mem_cons_self, s, hx.trans h⟩
    | ok q =>
      rw [hx] at h
      obtain ⟨y, hy, hfail⟩ := ih h
      exact ⟨y, List.mem_cons_of_mem _ hy, hfail⟩

end Folds

end Proofs

end CircuitGrad
