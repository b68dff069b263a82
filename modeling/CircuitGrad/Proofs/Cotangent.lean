import CircuitGrad.Proofs.ArgumentSlots
import CircuitGrad.Proofs.BatchSlices
import CircuitGrad.Proofs.PipelineShape

/-! # Products of cotangents with derivatives

    The product of a cotangent with the derivatives of a circuit differentiates
    in all inputs at once, lays the inputs out flat, and cuts the sums back
    into arguments.  The derivatives in one argument are asked for with the
    inputs of that argument only, and have its shape.  Both carry over the
    same derivatives in the parameters, so that those in one argument are
    columns of those in all inputs (`carry_columns`), found where the layout
    places the argument (`tensors_of_product`).

    The plan of either is executed in a session that may hold any results
    already; a deterministic backend gives the same derivatives in the
    parameters for both (`derivative_of_differentiated`,
    `vjp_of_differentiated`).
-/

namespace CircuitGrad

/-- The sums over the outputs of a cotangent times the derivatives of the outputs in the
    entries of an argument of the given dimensions. -/
structure Pulled (cotangent jacobian product : Tensor ℝ) (dims : List ℕ) : Prop where
  outputs : jacobian.shape = cotangent.shape ++ dims
  shape   : product.shape = dims
  entry   : ∀ p < Tensor.volume dims, product.entry p =
    ∑ o : Fin (Tensor.volume cotangent.shape),
      cotangent.entry o * jacobian.entry (o * Tensor.volume dims + p)

/-- What is executed for the value at some arguments, or for the derivatives in all inputs. -/
def Binding.Consults {σ : Type} (b : Binding ℝ σ) (s : BindingState ℝ σ)
    (args : List (Argument ℝ)) (w : Trace ℝ) : Prop :=
  ∃ t p, ((b.construct args).run.run s).1 = .ok t ∧ w ∈ p.traces ∧
    (b.callPlan t = .ok p ∨
      ∃ d, b.requireOrder 1 = .ok d ∧ b.derivativePlan d t t.layout.allInputs 1 = .ok p)

/-- First derivatives of a trace in the parameters of what it is prepared to be. -/
structure Binding.Differentiated {σ : Type} (b : Binding ℝ σ)
    (outcome : Trace ℝ → Except Error (Tensor ℝ)) (t : Trace ℝ) where
  differentiator : Differentiator ℝ
  required       : b.requireOrder 1 = .ok differentiator
  prepared       : Trace ℝ
  prepares       : b.prepare t (some differentiator) = .ok prepared
  plan           : Plan ℝ
  planned        : (b.pipeline 1).apply prepared = .ok plan
  tensor         : Tensor ℝ
  gives          : plan.Gives b.backend outcome tensor

/-- Carried over to some inputs. -/
noncomputable def Binding.Differentiated.carried {σ : Type} {b : Binding ℝ σ}
    {outcome : Trace ℝ → Except Error (Tensor ℝ)} {t : Trace ℝ} (x : b.Differentiated outcome t)
    (r : InputRange) : Except Error (Tensor ℝ) :=
  ChainRule.carry r (x.prepared.slopes r).data 1 x.tensor

namespace Proofs

variable {σ : Type} {b : Binding ℝ σ} {d : Differentiator ℝ} {args : List (Argument ℝ)}
  {t u : Trace ℝ} {main : Plan ℝ} {D T : Tensor ℝ}

/-! ## Columns -/

section Columns

/-- What is contracted has a dimension for the rows of the matrix. -/
theorem shape_of_carry {r : InputRange} {jacobian : Array ℝ}
    (h : ChainRule.carry r jacobian 1 D = .ok T) :
    ∃ lead n, D.shape = lead ++ [n] ∧ jacobian.size = n * r.size := by
  obtain ⟨lead, hlead, h⟩ := bind_eq_ok h
  obtain ⟨C, hfold, -⟩ := bind_eq_ok h
  obtain ⟨C', hcontract, -⟩ := bind_eq_ok hfold
  unfold ChainRule.leadingShape at hlead
  split at hlead
  · cases hlead
  next hrank =>
  -- All dimensions but the last are kept, and there is a last one.
  have hlead := Except.ok.inj hlead
  have hsplit : lead ++ D.shape.drop (D.rank - 1) = D.shape := by
    rw [← hlead, List.take_append_drop]
  have hlength : lead.length = D.rank - 1 := by
    rw [← hlead, List.length_take]
    unfold Tensor.rank
    omega
  have hone : (D.shape.drop (D.rank - 1)).length = 1 := by
    rw [List.length_drop]
    unfold Tensor.rank at hrank ⊢
    omega
  obtain ⟨n, hn⟩ := List.length_eq_one_iff.mp hone
  rw [hn] at hsplit
  refine ⟨lead, n, hsplit.symm, ?_⟩
  have haxis : D.shape[lead.length + 0]? = some n := by simp [← hsplit]
  unfold Tensor.contract at hcontract
  simp only [haxis] at hcontract
  split at hcontract
  · cases hcontract
  next hsize => exact not_not.mp hsize

/-- The only dimension for the parameters is contracted. -/
theorem carry_one {r : InputRange} {jacobian : Array ℝ} {lead : List ℕ} {n : ℕ}
    (hshape : D.shape = lead ++ [n]) (hsize : jacobian.size = n * r.size) :
    ∃ T, ChainRule.carry r jacobian 1 D = .ok T ∧ T.shape = lead ++ r.shape ∧
      ∀ o < Tensor.volume lead, ∀ p < r.size, T.entry (o * r.size + p) =
        ∑ k : Fin n, D.entry (o * n + k) * jacobian.getD (k * r.size + p) 0 := by
  have hone : D.shape = lead ++ List.replicate 1 n := hshape
  obtain ⟨T, hT, hTshape, hentry⟩ := carry_eq hone hsize
    (J := fun k a => jacobian.getD (k * r.size + a) 0) fun _ _ => rfl
  refine ⟨T, hT, by simpa using hTshape, fun o ho p hp => ?_⟩
  have hvalue := hentry o ho fun _ => ⟨p, hp⟩
  rw [contraction_one] at hvalue
  simpa [position] using hvalue

/-- The derivatives in one argument are columns of those in all inputs. -/
theorem carry_columns {r all : InputRange} (hall : all.start = 0)
    (hr : r.start + r.size ≤ all.size)
    (hT : ChainRule.carry all (u.slopes all).data 1 D = .ok T) : ∃ lead J,
      T.shape = lead ++ all.shape ∧ ChainRule.carry r (u.slopes r).data 1 D = .ok J ∧
        J.shape = lead ++ r.shape ∧ ∀ o < Tensor.volume lead, ∀ p < r.size,
          T.entry (o * all.size + (r.start + p)) = J.entry (o * r.size + p) := by
  obtain ⟨lead, n, hshape, hsize⟩ := shape_of_carry hT
  -- If there are columns to be compared, there is one row for each trainable parameter.
  have hrows : 0 < r.size → n = u.trainable.length := fun hpos =>
    (Nat.eq_of_mul_eq_mul_right (by omega) ((size_slopes u all).symm.trans hsize)).symm
  have hsize' : (u.slopes r).data.size = n * r.size := by
    rw [size_slopes]
    rcases Nat.eq_zero_or_pos r.size with hzero | hpos
    · rw [hzero, Nat.mul_zero, Nat.mul_zero]
    · rw [hrows hpos]
  obtain ⟨J, hJ, hJshape, hJentry⟩ := carry_one hshape hsize'
  obtain ⟨T', hT', hTshape, hTentry⟩ := carry_one hshape hsize
  obtain rfl := Except.ok.inj (hT.symm.trans hT')
  refine ⟨lead, J, hTshape, hJ, hJshape, fun o ho p hp => ?_⟩
  obtain rfl := hrows (by omega)
  have hlt : r.start + p < all.size := by omega
  rw [hTentry o ho _ hlt, hJentry o ho p hp]
  refine Finset.sum_congr rfl fun k _ => ?_
  rw [getD_slopes u r k ⟨p, hp⟩, getD_slopes u all k ⟨r.start + p, hlt⟩]
  unfold Trace.slopeIn
  rw [hall, Nat.zero_add]

end Columns

/-! ## Sums cut into arguments -/

section Product

variable {layout : ArgumentLayout} {c : Tensor ℝ} {ts : List (Tensor ℝ)}

/-- The sum for one input. -/
theorem getD_pullBack {n i : ℕ} (c T : Tensor ℝ) (hi : i < n) :
    (Binding.pullBack c T n).toArray.getD i 0 =
      ∑ o : Fin (Tensor.volume c.shape), c.entry o * T.entry (o * n + i) := by
  unfold Binding.pullBack
  rw [Array.getD_eq_getD_getElem?, List.getElem?_toArray, List.getElem?_map,
    List.getElem?_range hi, Option.map_some, Option.getD_some,
    foldl_add_eq_sum _ fun o => c.entry o * T.entry (o * n + i), Tensor.size_eq_volume,
    sum_map_range, Finset.sum_range]

/-- Every argument gets the sums for its own inputs, in its own shape. -/
theorem tensors_of_product (hfits : layout.Fits args) (h : layout.product c T = .ok ts) :
    c.shape = T.shape.dropLast ∧ ts.length = args.length ∧
      ∀ i a, args[i]? = some a → ∃ P, ts[i]? = some P ∧ P.shape = a.shape ∧
        (a.differentiable = false → P = .zeros a.shape) ∧
        (a.differentiable = true → ∃ start, layout.range i = .ok ⟨start, a.shape⟩ ∧
          start + Tensor.volume a.shape ≤ layout.inputCount ∧
          ∀ p < Tensor.volume a.shape, P.entry p =
            ∑ o : Fin (Tensor.volume c.shape),
              c.entry o * T.entry (o * layout.inputCount + (start + p))) := by
  unfold ArgumentLayout.product at h
  dsimp only at h
  split at h
  · cases h
  next hshape =>
  obtain rfl := Except.ok.inj h
  refine ⟨not_not.mp hshape, by rw [List.length_map, hfits.count], fun i a ha => ?_⟩
  obtain ⟨start, hslot, hrange⟩ := hfits.slot i a ha
  rw [List.getElem?_map, hslot]
  cases hkind : a.differentiable with
  | false =>
    refine ⟨_, rfl, rfl, fun _ => rfl, fun h => ?_⟩
    cases h
  | true =>
    refine ⟨_, rfl, rfl, fun h => ?_, fun _ => ⟨start, ?_, hrange hkind, fun p hp => ?_⟩⟩
    · cases h
    · unfold ArgumentLayout.range
      rw [hslot, hkind]
      rfl
    · have hin := hrange hkind
      rw [← getD_pullBack c T (by omega)]
      exact Tensor.entry_ofFn hp

end Product

/-! ## Executed derivatives -/

section Requests

variable {family : Set (Trace ℝ)} {outcome : Trace ℝ → Except Error (Tensor ℝ)}
  {s s₁ s' : BindingState ℝ σ}

theorem reached_construct (hs : b.backend.Reached family s.session)
    (hrun : (b.construct args).run.run s = (.ok t, s₁)) :
    b.backend.Reached family s₁.session := by
  have hsession := session_construct (b := b) args s
  rw [hrun] at hsession
  exact hsession ▸ hs

/-- First derivatives in any inputs are carried over from those in the parameters. -/
theorem derivativePlan_one (hu : b.prepare t (some d) = .ok u)
    (hmain : (b.pipeline 1).apply u = .ok main) (r : InputRange) :
    b.derivativePlan d t r 1 = .ok (main.map (ChainRule.carry r (u.slopes r).data 1)) := by
  unfold Binding.derivativePlan ChainRule.plan
  rw [hu, ok_bind]
  dsimp only
  rw [hmain]
  rfl

theorem derivativePlan_one_eq_ok {r : InputRange} {p : Plan ℝ}
    (h : b.derivativePlan d t r 1 = .ok p) : ∃ u main, b.prepare t (some d) = .ok u ∧
      (b.pipeline 1).apply u = .ok main ∧
        p = main.map (ChainRule.carry r (u.slopes r).data 1) := by
  obtain ⟨u, hu, h⟩ := bind_eq_ok h
  obtain ⟨main, hmain, hdirect, -⟩ := plan_cases h
  exact ⟨u, main, hu, hmain, hdirect (.inl rfl)⟩

/-- What is executed for the derivatives in any inputs is executed for those in all inputs. -/
theorem consults_of_planned {r : InputRange} {p : Plan ℝ} (hd : b.requireOrder 1 = .ok d)
    (ht : ((b.construct args).run.run s).1 = .ok t) (hp : b.derivativePlan d t r 1 = .ok p) :
    ∀ w ∈ p.traces, b.Consults s args w := by
  intro w hw
  obtain ⟨u, main, hu, hmain, rfl⟩ := derivativePlan_one_eq_ok hp
  have hall := derivativePlan_one hu hmain t.layout.allInputs
  refine ⟨t, _, ht, ?_, .inr ⟨d, hd, hall⟩⟩
  exact hw

variable (hb : b.backend.Deterministic family outcome)
  (hargs : ∀ a ∈ args, a.batched = false)
include hb

/-- When a plan of derivatives gives something, there are derivatives in the parameters. -/
theorem differentiated_of_evaluate {session : Session ℝ σ}
    (hsession : b.backend.Reached family session) {r : InputRange} {p : Plan ℝ}
    (hd : b.requireOrder 1 = .ok d) (hp : b.derivativePlan d t r 1 = .ok p)
    (hfamily : ∀ w ∈ p.traces, w ∈ family) (hT : b.backend.evaluate session p = .ok T) :
    ∃ x : b.Differentiated outcome t, x.plan.traces = p.traces ∧ x.carried r = .ok T := by
  obtain ⟨u, main, hu, hmain, rfl⟩ := derivativePlan_one_eq_ok hp
  rw [evaluate_map] at hT
  obtain ⟨D, hD, hT⟩ := bind_eq_ok hT
  have hmember : ∀ w ∈ main.traces, w ∈ family := hfamily
  have hgives := (evaluate_eq_ok_iff hb hsession hmember).mp hD
  exact ⟨⟨d, hd, u, hu, main, hmain, D, hgives⟩, rfl, hT⟩

/-- The derivatives in some inputs, whatever was executed before. -/
theorem evaluate_of_differentiated {session : Session ℝ σ}
    (hsession : b.backend.Reached family session) (x : b.Differentiated outcome t)
    (hfamily : ∀ w ∈ x.plan.traces, w ∈ family) (r : InputRange) :
    ∃ p, b.derivativePlan x.differentiator t r 1 = .ok p ∧
      b.backend.evaluate session p = x.carried r := by
  refine ⟨_, derivativePlan_one x.prepares x.planned r, ?_⟩
  rw [evaluate_map, (evaluate_eq_ok_iff hb hsession hfamily).mpr x.gives, ok_bind]
  rfl

include hargs

/-- A request for the derivatives in one argument. -/
theorem derivative_of_differentiated (hs : b.backend.Reached family s.session)
    (ht : ((b.construct args).run.run s).1 = .ok t) (x : b.Differentiated outcome t)
    (hfamily : ∀ w ∈ x.plan.traces, w ∈ family) {i : ℕ} {r : InputRange}
    (hr : t.layout.range i = .ok r) :
    ((b.derivative args i 1 none).run.run s).1 = x.carried r := by
  have hrun : (b.construct args).run.run s = (.ok t, _) := Prod.ext ht rfl
  have hs := reached_construct hs hrun
  obtain ⟨p, hp, hevaluated⟩ := evaluate_of_differentiated hb hs x hfamily r
  have hplan : b.argumentPlan i 1 t = .ok p := by
    unfold Binding.argumentPlan
    rw [x.required, ok_bind, hr, ok_bind, hp]
  rw [derivative_run one_ne_zero x.required, run_of_construct hargs hrun, Option.elim_none, hplan,
    ok_bind, hevaluated]

/-- A request for the product with a cotangent. -/
theorem vjp_of_differentiated (hs : b.backend.Reached family s.session)
    (ht : ((b.construct args).run.run s).1 = .ok t) (x : b.Differentiated outcome t)
    (hfamily : ∀ w ∈ x.plan.traces, w ∈ family) (c : Tensor ℝ) :
    ((b.vjp args c).run.run s).1 =
      (do t.layout.product c (← x.carried t.layout.allInputs)) := by
  have hrun : (b.construct args).run.run s = (.ok t, _) := Prod.ext ht rfl
  have hs := reached_construct hs hrun
  obtain ⟨p, hp, hevaluated⟩ := evaluate_of_differentiated hb hs x hfamily t.layout.allInputs
  rw [vjp_run x.required hargs hrun hp, hevaluated]

variable (hfamily : ∀ w, b.Consults s args w → w ∈ family)
include hfamily

/-- A product is made of the derivatives in the parameters, and the requests that follow construct
    the same trace. -/
theorem differentiated_of_vjp (hs : b.backend.Reached family s.session) {c : Tensor ℝ}
    {ts : List (Tensor ℝ)} (h : (b.vjp args c).run.run s = (.ok ts, s')) :
    ∃ (t : Trace ℝ) (x : b.Differentiated outcome t) (T : Tensor ℝ),
      (∀ w ∈ x.plan.traces, w ∈ family) ∧ x.carried t.layout.allInputs = .ok T ∧
        t.layout.product c T = .ok ts ∧ ∀ u, u = s ∨ u = s' →
          ((b.construct args).run.run u).1 = .ok t ∧ b.backend.Reached family u.session := by
  obtain ⟨d, t, s₁, p, T, hd, hrun, hp, hT, hts, rfl⟩ := vjp_eq_ok hargs h
  have ht : ((b.construct args).run.run s).1 = .ok t := congrArg Prod.fst hrun
  have hs₁ := reached_construct hs hrun
  have hconsulted : ∀ w ∈ p.traces, w ∈ family :=
    fun w hw => hfamily w (consults_of_planned hd ht hp w hw)
  obtain ⟨x, htraces, hx⟩ := differentiated_of_evaluate hb hs₁ hd hp hconsulted hT
  refine ⟨t, x, T, htraces ▸ hconsulted, hx, hts, ?_⟩
  -- Afterwards the trace may be the recorded one, and more results may be cached.
  rintro u (rfl | rfl)
  · exact ⟨ht, hs⟩
  · exact ⟨construct_again hrun (.inr rfl), reached_submit hs₁ hconsulted⟩

theorem differentiated_of_derivative (hs : b.backend.Reached family s.session) {i : ℕ}
    {J : Tensor ℝ} (h : ((b.derivative args i 1 none).run.run s).1 = .ok J) :
    ∃ (t : Trace ℝ) (x : b.Differentiated outcome t), (∀ w ∈ x.plan.traces, w ∈ family) ∧
      ((b.construct args).run.run s).1 = .ok t := by
  obtain ⟨d, hd⟩ := requireOrder_of_derivative (Prod.ext h rfl)
  rw [derivative_run one_ne_zero hd] at h
  obtain ⟨t, s₁, p, hrun, hplan, hJ⟩ := run_eq_ok hargs h
  obtain ⟨d', r, hd', hr, hp⟩ := argumentPlan_eq_ok hplan
  have ht : ((b.construct args).run.run s).1 = .ok t := congrArg Prod.fst hrun
  have hs₁ := reached_construct hs hrun
  have hconsulted : ∀ w ∈ p.traces, w ∈ family :=
    fun w hw => hfamily w (consults_of_planned hd' ht hp w hw)
  obtain ⟨x, htraces, -⟩ := differentiated_of_evaluate hb hs₁ hd' hp hconsulted hJ
  exact ⟨t, x, htraces ▸ hconsulted, ht⟩

end Requests

/-! ## Products -/

section Products

variable {circuit : CircuitFunction ℝ} {backend : Backend ℝ σ} {register : ℕ}
  {config : BindingConfig ℝ} {family : Set (Trace ℝ)}
  {outcome : Trace ℝ → Except Error (Tensor ℝ)} {s s' : BindingState ℝ σ}

/-- A binding differentiates in all trainable parameters. -/
theorem parameters_of_make (hmake : Binding.make circuit backend register config = .ok b)
    (hd : b.differentiator = some d) : d.method.parameters = none := by
  obtain rfl := eq_of_make hmake
  obtain ⟨method, hmethod, rfl⟩ := Option.map_eq_some_iff.mp hd
  unfold DiffMethod.gradient? at hmethod
  split at hmethod
  · obtain rfl := Option.some.inj hmethod
    rfl
  · obtain rfl := Option.some.inj hmethod
    rfl
  · cases hmethod

/-- Derivatives in some inputs have their dimensions after those of the value. -/
theorem carried_of_call (hmake : Binding.make circuit backend register config = .ok b)
    (hvalid : t.Valid) (hterms : ∀ m ∈ t.measurements, m.HasTerms) {p : Plan ℝ} {y : Tensor ℝ}
    (hp : b.callPlan t = .ok p) (hy : p.Gives b.backend outcome y)
    (x : b.Differentiated outcome t) (r : InputRange) :
    ∃ T, x.carried r = .ok T ∧ T.shape = y.shape ++ r.shape := by
  have hd := differentiator_of_requireOrder x.required
  obtain ⟨⟨hsame, hvalid'⟩, hdiff⟩ := replaced_of_prepare x.prepares
  have hvalue := outputShape_of_callPlan hvalid hterms hp hy
  have hout : x.prepared.outputShape = .ok y.shape := by
    rw [hsame]
    exact hvalue
  have hterms' : ∀ m ∈ x.prepared.measurements, m.HasTerms := by
    rw [hsame]
    exact hterms
  have hshape := shape_of_pipeline hd (parameters_of_make hmake hd) (hvalid' hvalid) hterms' hdiff
    x.planned x.gives hout
  obtain ⟨T, hT, hTshape, -⟩ := carry_one hshape (size_slopes x.prepared r)
  exact ⟨T, hT, hTshape⟩

variable (hb : b.backend.Deterministic family outcome) (hs : b.backend.Reached family s.session)
  (hrecorded : Faithful b s) (hfilled : ∀ a ∈ args, a.Filled)
  (hargs : ∀ a ∈ args, a.batched = false) (hfamily : ∀ w, b.Consults s args w → w ∈ family)
include hb hs hrecorded hargs hfamily

include hfilled in
/-- Every argument gets its own sums. -/
theorem pulled_of_vjp {c : Tensor ℝ} {ts : List (Tensor ℝ)}
    (h : (b.vjp args c).run.run s = (.ok ts, s')) : ts.length = args.length ∧
      ∀ i a, args[i]? = some a → ∃ T, ts[i]? = some T ∧ T.shape = a.shape ∧
        (a.differentiable = false → T = .zeros a.shape) ∧
        (a.differentiable = true → ∃ J,
          (∀ u, u = s ∨ u = s' → ((b.derivative args i 1 none).run.run u).1 = .ok J) ∧
            Pulled c J T a.shape) := by
  obtain ⟨t, x, T, hmember, hT, hts, hagain⟩ := differentiated_of_vjp hb hargs hfamily hs h
  have ht := (hagain s (.inl rfl)).1
  have hfits : t.layout.Fits args := fits_of_construct hrecorded hfilled (Prod.ext ht rfl)
  obtain ⟨hshape, hlength, hslots⟩ := tensors_of_product hfits hts
  refine ⟨hlength, fun i a ha => ?_⟩
  obtain ⟨P, hP, hPshape, hzeros, hsums⟩ := hslots i a ha
  refine ⟨P, hP, hPshape, hzeros, fun hkind => ?_⟩
  obtain ⟨start, hrange, hin, hentry⟩ := hsums hkind
  have hall : t.layout.allInputs.size = t.layout.inputCount := Nat.mul_one _
  obtain ⟨lead, J, hTshape, hJ, hJshape, hcolumns⟩ :=
    carry_columns (r := ⟨start, a.shape⟩) rfl (hall ▸ hin) hT
  -- The cotangent has one entry for each row, so its sums run over the rows of either.
  obtain rfl : c.shape = lead := by
    rw [hshape, hTshape]
    exact List.dropLast_concat
  refine ⟨J, fun u hu => ?_, hJshape, hPshape, fun p hp => ?_⟩
  · obtain ⟨hu, hreached⟩ := hagain u hu
    exact (derivative_of_differentiated hb hargs hreached hu x hmember hrange).trans hJ
  · rw [hentry p hp]
    refine Finset.sum_congr rfl fun o _ => ?_
    rw [← hall, hcolumns o o.isLt p hp]
    rfl

/-- Only cotangents of the shape of the value have products. -/
theorem vjp_of_executed (hmake : Binding.make circuit backend register config = .ok b)
    (hterms : b.circuit.HasTerms) {y : Tensor ℝ}
    (hy : ((b.call args none).run.run s).1 = .ok y)
    (hderivative : (∃ i J, ((b.derivative args i 1 none).run.run s).1 = .ok J) ∨
      ∃ c ts, ((b.vjp args c).run.run s).1 = .ok ts) (c : Tensor ℝ) :
    (c.shape = y.shape → ∃ ts, ((b.vjp args c).run.run s).1 = .ok ts) ∧
      (c.shape ≠ y.shape →
        ∃ fault, ((b.vjp args c).run.run s).1 = .error (.shapeMismatch fault)) := by
  -- Whichever request succeeded, it took the derivatives in the parameters.
  obtain ⟨t, x, hmember, ht⟩ : ∃ (t : Trace ℝ) (x : b.Differentiated outcome t),
      (∀ w ∈ x.plan.traces, w ∈ family) ∧ ((b.construct args).run.run s).1 = .ok t := by
    rcases hderivative with ⟨i, J, hJ⟩ | ⟨c', ts, hts⟩
    · exact differentiated_of_derivative hb hargs hfamily hs hJ
    · obtain ⟨t, x, -, hmember, -, -, hagain⟩ :=
        differentiated_of_vjp hb hargs hfamily hs (Prod.ext hts rfl)
      exact ⟨t, x, hmember, (hagain s (.inl rfl)).1⟩
  -- The value was planned for the same trace, and tells the shape of its outputs.
  obtain ⟨t', s₁, p, hrun, hp, hvalue⟩ := run_eq_ok hargs hy
  obtain rfl := Except.ok.inj (ht.symm.trans (congrArg Prod.fst hrun))
  have hp : b.callPlan t = .ok p := hp
  have hs₁ := reached_construct hs hrun
  have hgives := (evaluate_eq_ok_iff hb hs₁ fun w hw =>
    hfamily w ⟨t, p, ht, hw, .inl hp⟩).mp hvalue
  obtain ⟨hvalid, hmeasured⟩ := valid_of_construct hterms hrecorded hrun
  obtain ⟨T, hT, hTshape⟩ :=
    carried_of_call hmake hvalid hmeasured hp hgives x t.layout.allInputs
  have hlead : T.shape.dropLast = y.shape := by
    rw [hTshape]
    exact List.dropLast_concat
  rw [vjp_of_differentiated hb hargs hs ht x hmember c, hT, ok_bind]
  unfold ArgumentLayout.product
  dsimp only
  rw [hlead]
  constructor
  · intro hshape
    rw [if_neg (not_not.mpr hshape)]
    exact ⟨_, rfl⟩
  · intro hshape
    rw [if_pos hshape]
    exact ⟨_, rfl⟩

end Products

/-- When the product of a cotangent with the derivatives is returned, it has one tensor for each
    argument: of its shape, zeros where it is not differentiable, and otherwise the sums over
    the outputs of the cotangent times the derivatives in that argument, which requests before
    and after return.  Where the circuit and its derivatives are executed, cotangents of the
    shape of the value have products, and those of other shapes are refused. -/
theorem vjp_correct {circuit : CircuitFunction ℝ} {backend : Backend ℝ σ} {register : ℕ}
    {config : BindingConfig ℝ} (hmake : Binding.make circuit backend register config = .ok b)
    {family : Set (Trace ℝ)} {outcome : Trace ℝ → Except Error (Tensor ℝ)}
    (hb : backend.Deterministic family outcome) {session : Session ℝ σ}
    (hsession : backend.Reached family session) {calls : List (List (Argument ℝ))}
    (hcalls : ∀ call ∈ calls, ∀ a ∈ call, a.Filled) (hfilled : ∀ a ∈ args, a.Filled)
    (hargs : ∀ a ∈ args, a.batched = false)
    (hfamily : ∀ w, b.Consults (b.after session calls) args w → w ∈ family) :
    let s := b.after session calls
    (∀ c ts s', (b.vjp args c).run.run s = (.ok ts, s') → ts.length = args.length ∧
      ∀ i a, args[i]? = some a → ∃ T, ts[i]? = some T ∧ T.shape = a.shape ∧
        (a.differentiable = false → T = .zeros a.shape) ∧
        (a.differentiable = true → ∃ J,
          (∀ u, u = s ∨ u = s' → ((b.derivative args i 1 none).run.run u).1 = .ok J) ∧
            Pulled c J T a.shape)) ∧
    (circuit.HasTerms → ∀ y, ((b.call args none).run.run s).1 = .ok y →
      ((∃ i J, ((b.derivative args i 1 none).run.run s).1 = .ok J) ∨
        ∃ c ts, ((b.vjp args c).run.run s).1 = .ok ts) → ∀ c,
        (c.shape = y.shape → ∃ ts, ((b.vjp args c).run.run s).1 = .ok ts) ∧
          (c.shape ≠ y.shape →
            ∃ fault, ((b.vjp args c).run.run s).1 = .error (.shapeMismatch fault))) := by
  intro s
  have hbackend : b.backend = backend := congrArg (·.backend) (eq_of_make hmake)
  have hcircuit : b.circuit = circuit := congrArg (·.circuit) (eq_of_make hmake)
  subst hbackend hcircuit
  have hs : b.backend.Reached family s.session := (session_after b session calls).symm ▸ hsession
  have hrecorded : Faithful b s := faithful_after session hcalls
  constructor
  · intro c ts s' h
    exact pulled_of_vjp hb hs hrecorded hfilled hargs hfamily h
  · intro hterms y hy hderivative c
    exact vjp_of_executed hb hs hrecorded hargs hfamily hmake hterms hy hderivative c

/-! ## The derivative of a controlled rotation -/

section Steered

variable {ρ : Type} (sampler : Sampler ℝ ρ)

theorem filled_scalar (x : ℝ) : ∀ a ∈ [Argument.scalar x], a.Filled :=
  List.forall_mem_singleton.mpr rfl

theorem construct_steeredBy (strategy : ExpansionStrategy) :
    ∃ s, ((steeredBy sampler strategy).construct [.scalar 1]).run.run
      (Binding.start steering.session) = (.ok (wholeTurn steeredAngle), s) := ⟨_, rfl⟩

/-- Nothing but the two rotations by half the angle is executed. -/
theorem consults_steeredBy {w : Trace ℝ} (h : (steeredBy sampler .device).Consults
    (Binding.start steering.session) [.scalar 1] w) : ∃ x y, w = halfTurns x y := by
  obtain ⟨t, p, ht, hw, hp⟩ := h
  obtain ⟨s, hrun⟩ := construct_steeredBy sampler .device
  obtain rfl := Except.ok.inj ((congrArg Prod.fst hrun).symm.trans ht)
  rcases hp with hp | ⟨d, hd, hp⟩
  · obtain ⟨p', x, y, hp', htraces, -⟩ := callPlan_steeredBy sampler steeredAngle
    obtain rfl := Except.ok.inj (hp'.symm.trans hp)
    rw [htraces] at hw
    exact ⟨x, y, List.mem_singleton.mp hw⟩
  · obtain ⟨p', hp', htraces⟩ := argumentPlan_steeredBy sampler .device
    obtain ⟨d', r, hd', -, hplan⟩ := argumentPlan_eq_ok hp'
    obtain rfl := Except.ok.inj (hd'.symm.trans hd)
    -- The plan for all inputs has the traces of the plan for the only argument.
    obtain ⟨u, main, hu, hmain, rfl⟩ := derivativePlan_one_eq_ok hp
    have hsame := Except.ok.inj ((derivativePlan_one hu hmain r).symm.trans hplan)
    exact htraces w (hsame ▸ hw)

/-- The value is the result of the two rotations. -/
theorem call_steeredBy : ∃ y, (((steeredBy sampler .device).call [.scalar 1] none).run.run
    (Binding.start steering.session)).1 = .ok y ∧ y.shape = [2] := by
  obtain ⟨s, hrun⟩ := construct_steeredBy sampler .device
  obtain ⟨p, x, y, hp, htraces, hcombine⟩ := callPlan_steeredBy sampler steeredAngle
  obtain ⟨r, hr, hshape⟩ := simulate_eq_ok (exact_halfTurns x y) sampler
  have hgives : p.Gives (steeredBy sampler .device).backend (·.simulate sampler) r := by
    refine ⟨?_, [r], ?_, hcombine r⟩
    · rw [htraces]
      exact List.forall_mem_singleton.mpr (validate_halfTurns sampler x y)
    · rw [htraces]
      exact .cons ⟨hr, hshape⟩ .nil
  have hmember : ∀ w ∈ p.traces, w ∈ {t : Trace ℝ | t.Exact ∧ t.Counted} := by
    rw [htraces]
    exact List.forall_mem_singleton.mpr ⟨exact_halfTurns x y, counted_halfTurns x y⟩
  have hfresh : (steeredBy sampler .device).backend.Reached {t | t.Exact ∧ t.Counted}
      steering.session := reached_fresh _
  have hs := reached_construct (s := Binding.start steering.session) hfresh hrun
  refine ⟨r, ?_, (Except.ok.inj hshape).symm⟩
  unfold Binding.call
  rw [run_of_construct (List.forall_mem_singleton.mpr rfl) hrun, Option.elim_none, hp, ok_bind]
  exact (evaluate_eq_ok_iff deterministic_simulator hs hmember).mpr hgives

/-- Cotangents of both probabilities are pulled back to the angle. -/
theorem vjp_correct_steered : (∀ a ∈ [Argument.scalar (1 : ℝ)], a.batched = false) ∧
    ∀ sampler : Sampler ℝ Unit, let b := steeredBy sampler .device
    let s : BindingState ℝ ExecutionCounts := Binding.start steering.session
    (∀ c : Tensor ℝ, c.shape = [2] → ∃ T J,
      ((b.vjp [.scalar 1] c).run.run s).1 = .ok [T] ∧
      ((b.derivative [.scalar 1] 0 1 none).run.run s).1 = .ok J ∧ Pulled c J T []) ∧
    ∀ c : Tensor ℝ, c.shape ≠ [2] →
      ∃ fault, ((b.vjp [.scalar 1] c).run.run s).1 = .error (.shapeMismatch fault) := by
  refine ⟨List.forall_mem_singleton.mpr rfl, fun sampler => ?_⟩
  intro b s
  have hfamily : ∀ w, b.Consults s [.scalar 1] w → w ∈ {t : Trace ℝ | t.Exact ∧ t.Counted} := by
    intro w hw
    obtain ⟨x, y, rfl⟩ := consults_steeredBy sampler hw
    exact ⟨exact_halfTurns x y, counted_halfTurns x y⟩
  have hnone : ∀ call ∈ ([] : List (List (Argument ℝ))), ∀ a ∈ call, a.Filled :=
    fun _ h => absurd h List.not_mem_nil
  obtain ⟨hpulled, hexecuted⟩ := vjp_correct (make_steeredBy sampler .device)
    deterministic_simulator (reached_fresh _) hnone (filled_scalar 1)
    (List.forall_mem_singleton.mpr rfl) hfamily
  obtain ⟨y, hy, hshape⟩ := call_steeredBy sampler
  obtain ⟨J, hJ⟩ := derivative_steeredBy sampler .device
  have hterms : steered.HasTerms :=
    fun args n r h m hm => ((standard_steered args n r h).measurements m hm).2
  have hcotangents := hexecuted hterms y hy (.inl ⟨0, J, hJ⟩)
  rw [hshape] at hcotangents
  refine ⟨fun c hc => ?_, fun c hc => (hcotangents c).2 hc⟩
  obtain ⟨ts, hts⟩ := (hcotangents c).1 hc
  obtain ⟨hcount, htensors⟩ := hpulled c ts _ (Prod.ext hts rfl)
  obtain ⟨T, hT, -, -, hsums⟩ := htensors 0 _ rfl
  obtain ⟨J', hJ', hentries⟩ := hsums rfl
  have hone : ts = [T] := by
    obtain ⟨first, rfl⟩ := List.length_eq_one_iff.mp hcount
    exact congrArg ([·]) (Option.some.inj hT)
  exact ⟨T, J', hone ▸ hts, hJ' _ (.inl rfl), hentries⟩

end Steered

end Proofs

end CircuitGrad
