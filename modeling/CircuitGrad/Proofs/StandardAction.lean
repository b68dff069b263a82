import Mathlib
import CircuitGrad.Proofs.GateBlock

/-! # Operations over the standard gates

    An operation is standard when it is a call of a standard gate that passed
    the checks on its parameters and wires.  On every register that holds its
    wires it acts as a linear map on waves (`applyOperation_eq`), and so does a
    list of standard operations in turn.
-/

namespace CircuitGrad

/-- The operation is an accepted call of a standard gate. -/
def Operation.Standard {α : Type} [Scalar α] (op : Operation α) : Prop :=
  ∃ g : StandardGate, Operation.make g.spec op.params op.wires = .ok op

/-- The matrix that a standard gate applies to its last wire. -/
noncomputable def StandardGate.target (g : StandardGate) (values : List ℝ) :
    Array (Amplitude ℝ) :=
  let p (i : ℕ) : ℝ := values.getD i 0
  match g with
  | cnot => Gate.Matrix.pauliX
  | cz => Gate.Matrix.pauliZ
  | crx => Gate.Matrix.rx (p 0)
  | cry => Gate.Matrix.ry (p 0)
  | crz => Gate.Matrix.rz (p 0)
  | swap => Gate.Matrix.identity
  | _ => g.matrix values

/-- What a standard gate does to a wave. -/
noncomputable def StandardGate.action {n : ℕ} (g : StandardGate) (values : List ℝ) :
    List (Fin n) → Proofs.Wave n →ₗ[ℂ] Proofs.Wave n
  | [w] => Proofs.onWire w fun _ => Proofs.toBlock (g.target values)
  | [v, w] =>
    if g = .swap then Proofs.swapWires v w
    else Proofs.onWire w (Proofs.controlled v (Proofs.toBlock (g.target values)))
  | _ => LinearMap.id

namespace Proofs

variable {n : ℕ}

/-! ## Accepted calls -/

theorem duplicateWire_eq_none_iff (ws : List ℕ) :
    Operation.duplicateWire? ws = none ↔ ws.Nodup := by
  induction ws with
  | nil => simp [Operation.duplicateWire?]
  | cons w rest ih =>
    rw [Operation.duplicateWire?, List.nodup_cons]
    by_cases hw : w ∈ rest
    · simp [hw]
    · simp [hw, ih]

/-- An operation holds what it was made of. -/
theorem make_eq_ok {α : Type} {spec : GateSpec α} {params : List (Jet α)} {ws : List ℕ}
    {op : Operation α} (h : Operation.make spec params ws = .ok op) : op = ⟨spec, params, ws⟩ := by
  unfold Operation.make at h
  split_ifs at h
  split at h
  · cases h
  · exact (Except.ok.inj h).symm

/-- Of the parameters, only their number decides whether an operation can be made. -/
theorem make_of_length_eq {α : Type} {spec : GateSpec α} {params params' : List (Jet α)}
    {ws : List ℕ} {op : Operation α} (hlength : params'.length = params.length)
    (h : Operation.make spec params ws = .ok op) :
    Operation.make spec params' ws = .ok ⟨spec, params', ws⟩ := by
  unfold Operation.make at h ⊢
  rw [hlength]
  split_ifs at h ⊢
  split at h
  · cases h
  · rfl

/-- A call is accepted when it has the gate's number of parameters, and
    different wires in the gate's number. -/
theorem make_operation_iff {α : Type} {spec : GateSpec α} {params : List (Jet α)} {ws : List ℕ}
    {op : Operation α} (hspec : spec.wireCount ≠ 0) :
    Operation.make spec params ws = .ok op ↔
      params.length = spec.paramCount ∧ ws.length = spec.wireCount ∧ ws.Nodup ∧
        op = ⟨spec, params, ws⟩ := by
  unfold Operation.make
  by_cases hparams : params.length = spec.paramCount
  · rw [if_neg (not_not.mpr hparams)]
    by_cases hwires : ws.length = spec.wireCount
    · have hne : ws.isEmpty = false := by
        cases ws with
        | nil => exact absurd hwires.symm hspec
        | cons w rest => rfl
      rw [if_neg (by simp [hne, hwires])]
      -- The wires are refused last, if one of them occurs twice.
      cases hdup : Operation.duplicateWire? ws with
      | none =>
        have hnodup := (duplicateWire_eq_none_iff ws).mp hdup
        simp [hparams, hwires, hnodup, eq_comm]
      | some w =>
        have hnodup : ¬ ws.Nodup := by
          rw [← duplicateWire_eq_none_iff, hdup]
          simp
        simp [hnodup]
    · rw [if_pos (by simp [hspec, hwires])]
      simp [hwires]
  · rw [if_pos hparams]
    simp [hparams]

theorem wireCount_ne_zero (g : StandardGate) : g.wireCount ≠ 0 := by
  cases g <;> decide

theorem ofName?_name (g : StandardGate) : StandardGate.ofName? g.name = some g := by
  cases g <;> rfl

/-- The operation is a call of `g` on the wires `ws` of an `n`-wire register. -/
structure Places (op : Operation ℝ) (g : StandardGate) (ws : List (Fin n)) : Prop where
  spec   : op.spec = g.spec
  wires  : op.wires = ws.map (·.val)
  params : op.params.length = g.paramCount
  length : ws.length = g.wireCount
  nodup  : ws.Nodup

theorem Places.of_make {g : StandardGate} {params : List (Jet ℝ)} {ws : List (Fin n)}
    {op : Operation ℝ} (h : Operation.make g.spec params (ws.map (·.val)) = .ok op) :
    Places op g ws ∧ op.params = params := by
  obtain ⟨hparams, hlength, hnodup, rfl⟩ := (make_operation_iff (wireCount_ne_zero g)).mp h
  rw [List.length_map] at hlength
  exact ⟨⟨rfl, rfl, hparams, hlength, hnodup.of_map _⟩, rfl⟩

/-- The wires of a register as a list of naturals. -/
theorem exists_map_val {ws : List ℕ} (h : ∀ w ∈ ws, w < n) :
    ∃ vs : List (Fin n), ws = vs.map (·.val) :=
  ⟨ws.pmap (fun w hw => ⟨w, hw⟩) h, by simp [List.map_pmap]⟩

theorem places_of_standard {op : Operation ℝ} (hop : op.Standard)
    (hwires : ∀ w ∈ op.wires, w < n) :
    ∃ (g : StandardGate) (ws : List (Fin n)), Places op g ws := by
  obtain ⟨g, hmake⟩ := hop
  obtain ⟨ws, hws⟩ := exists_map_val hwires
  rw [hws] at hmake
  exact ⟨g, ws, (Places.of_make hmake).1⟩

theorem Places.standard {op : Operation ℝ} {g : StandardGate} {ws : List (Fin n)}
    (h : Places op g ws) : op.Standard := by
  refine ⟨g, (make_operation_iff (wireCount_ne_zero g)).mpr ⟨h.params, ?_, ?_, ?_⟩⟩
  · rw [h.wires, List.length_map]
    exact h.length
  · rw [h.wires]
    exact h.nodup.map Fin.val_injective
  · rw [← h.spec]

theorem Places.inRegister {op : Operation ℝ} {g : StandardGate} {ws : List (Fin n)}
    (h : Places op g ws) : ∀ w ∈ op.wires, w < n := by
  intro w hw
  rw [h.wires] at hw
  obtain ⟨v, -, rfl⟩ := List.mem_map.mp hw
  exact v.isLt

/-! ## Action -/

theorem wireCount_eq_one_or_two (g : StandardGate) : g.wireCount = 1 ∨ g.wireCount = 2 := by
  cases g <;> decide

theorem matrix_of_one {g : StandardGate} (h : g.wireCount = 1) (values : List ℝ) :
    g.matrix values = g.target values ∧ (g.target values).size = 4 := by
  cases g <;> first | exact ⟨rfl, rfl⟩ | exact absurd h (by decide)

theorem matrix_of_two {g : StandardGate} (h : g.wireCount = 2) (hswap : g ≠ .swap)
    (values : List ℝ) : g.matrix values = Gate.Matrix.controlled (g.target values) := by
  cases g <;> first | rfl | exact absurd rfl hswap | exact absurd h (by decide)

theorem action_two {g : StandardGate} (hswap : g ≠ .swap) (values : List ℝ) (v w : Fin n) :
    g.action values [v, w] = onWire w (controlled v (toBlock (g.target values))) :=
  if_neg hswap

/-- Applying the matrix of a standard gate is its action. -/
theorem applyMatrix_standard {g : StandardGate} {ws : List (Fin n)}
    (hlength : ws.length = g.wireCount) (hnodup : ws.Nodup) (values : List ℝ) (ψ : Wave n) :
    (ofWave ψ).applyMatrix (g.matrix values) (ws.map (·.val)) =
      .ok (ofWave (g.action values ws ψ)) := by
  rcases wireCount_eq_one_or_two g with hone | htwo
  · obtain ⟨w, rfl⟩ := List.length_eq_one_iff.mp (hlength.trans hone)
    obtain ⟨hmatrix, hsize⟩ := matrix_of_one hone values
    rw [hmatrix]
    exact applyMatrix_one hsize w ψ
  · obtain ⟨v, w, rfl⟩ := List.length_eq_two.mp (hlength.trans htwo)
    -- Of the gates on two wires the exchange alone is not a controlled matrix.
    have hne : v ≠ w := by simpa using hnodup
    by_cases hswap : g = .swap
    · subst hswap
      exact applyMatrix_swap hne ψ
    · rw [matrix_of_two htwo hswap, action_two hswap]
      exact applyMatrix_controlled _ hne ψ

theorem Places.applyOperation_eq {op : Operation ℝ} {g : StandardGate} {ws : List (Fin n)}
    (h : Places op g ws) (ψ : Wave n) :
    (ofWave ψ).applyOperation op = .ok (ofWave (g.action op.values ws ψ)) := by
  have hmatrix : op.matrix? = some (g.matrix op.values) := by
    unfold Operation.matrix?
    rw [h.spec]
    rfl
  unfold StateVector.applyOperation
  rw [hmatrix, h.wires]
  exact applyMatrix_standard h.length h.nodup _ ψ

/-! ## Operations in turn -/

/-- The operations, applied in turn, do `A` to every wave. -/
def Acts (ops : List (Operation ℝ)) (A : Wave n →ₗ[ℂ] Wave n) : Prop :=
  ∀ ψ, (ofWave ψ).applyAll ops = .ok (ofWave (A ψ))

namespace Acts

variable {ops ops' : List (Operation ℝ)} {A B : Wave n →ₗ[ℂ] Wave n}

theorem nil : Acts [] (LinearMap.id : Wave n →ₗ[ℂ] Wave n) := fun _ => rfl

theorem single {op : Operation ℝ} {g : StandardGate} {ws : List (Fin n)} (h : Places op g ws) :
    Acts [op] (g.action op.values ws) := by
  intro ψ
  unfold StateVector.applyAll
  rw [List.foldlM_cons, h.applyOperation_eq]
  rfl

theorem append (hA : Acts ops A) (hB : Acts ops' B) : Acts (ops ++ ops') (B ∘ₗ A) := by
  intro ψ
  have h := hA ψ
  unfold StateVector.applyAll at h ⊢
  rw [List.foldlM_append, h]
  exact hB (A ψ)

theorem unique (hA : Acts ops A) (hB : Acts ops B) : A = B := by
  refine LinearMap.ext fun ψ => ofWave_injective ?_
  exact Except.ok.inj ((hA ψ).symm.trans (hB ψ))

/-- Standard operations act on every register that holds their wires. -/
theorem exists_of_standard (hops : ∀ op ∈ ops, op.Standard)
    (hwires : ∀ op ∈ ops, ∀ w ∈ op.wires, w < n) :
    ∃ A : Wave n →ₗ[ℂ] Wave n, Acts ops A := by
  induction ops with
  | nil => exact ⟨_, nil⟩
  | cons op rest ih =>
    obtain ⟨g, ws, hplaces⟩ :=
      places_of_standard (hops op List.mem_cons_self) (hwires op List.mem_cons_self)
    obtain ⟨B, hB⟩ := ih (fun o ho => hops o (List.mem_cons_of_mem _ ho))
      (fun o ho => hwires o (List.mem_cons_of_mem _ ho))
    exact ⟨_, (single hplaces).append hB⟩

end Acts

end Proofs

end CircuitGrad
