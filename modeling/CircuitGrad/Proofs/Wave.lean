import Mathlib
import CircuitGrad.Proofs.BlockWalk
import CircuitGrad.Proofs.RealScalar

/-! # Waves

    A state of a register is a wave: a complex number for each basis state.
    State vectors over the real numbers are exactly the waves of a register
    (`eq_ofWave`), and what the simulator computes on state vectors is stated
    from here on as a function of waves.
-/

namespace CircuitGrad

namespace Proofs

/-! ## Complex numbers -/

/-- An amplitude as a complex number. -/
def toComplex (a : Amplitude ℝ) : ℂ := ⟨a.re, a.im⟩

/-- A complex number as an amplitude. -/
def ofComplex (z : ℂ) : Amplitude ℝ := ⟨z.re, z.im⟩

@[simp] theorem toComplex_ofComplex (z : ℂ) : toComplex (ofComplex z) = z := rfl

@[simp] theorem ofComplex_toComplex (a : Amplitude ℝ) : ofComplex (toComplex a) = a := rfl

@[simp] theorem toComplex_zero : toComplex 0 = 0 := rfl

@[simp] theorem toComplex_one : toComplex 1 = 1 := rfl

@[simp] theorem toComplex_add (a b : Amplitude ℝ) :
    toComplex (a + b) = toComplex a + toComplex b := rfl

@[simp] theorem toComplex_mul (a b : Amplitude ℝ) :
    toComplex (a * b) = toComplex a * toComplex b := rfl

@[simp] theorem toComplex_neg (a : Amplitude ℝ) : toComplex (-a) = -toComplex a := rfl

@[simp] theorem toComplex_conj (a : Amplitude ℝ) :
    toComplex a.conj = (starRingEnd ℂ) (toComplex a) := rfl

theorem normSq_eq (a : Amplitude ℝ) : a.normSq = Complex.normSq (toComplex a) := rfl

theorem toComplex_scale (a : Amplitude ℝ) (x : ℝ) : toComplex (a.scale x) = x * toComplex a := by
  apply Complex.ext
  · simp [toComplex, Amplitude.scale, mul_comm]
  · simp [toComplex, Amplitude.scale, mul_comm]

theorem toComplex_sum (as : List (Amplitude ℝ)) :
    toComplex (Amplitude.sum as) = (as.map toComplex).sum := by
  unfold Amplitude.sum
  rw [List.sum_eq_foldl, List.foldl_map]
  exact (List.foldl_hom toComplex (by intro a b; rfl)).symm

theorem sum_map_range {M : Type} [AddCommMonoid M] (f : ℕ → M) (k : ℕ) :
    ((List.range k).map f).sum = ∑ i ∈ Finset.range k, f i := rfl

theorem toComplex_injective : Function.Injective toComplex := fun a b h => by
  rw [← ofComplex_toComplex a, h, ofComplex_toComplex]

/-! ## State vectors -/

/-- A state of an `n`-wire register. -/
abbrev Wave (n : ℕ) := Bits n → ℂ

variable {n : ℕ}

/-- The state vector of a wave. -/
noncomputable def ofWave (ψ : Wave n) : StateVector ℝ :=
  .ofFn n fun i => ofComplex (ψ (bits n i))

@[simp] theorem wires_ofWave (ψ : Wave n) : (ofWave ψ).wires = n := rfl

@[simp] theorem amplitude_ofWave (ψ : Wave n) (x : Bits n) :
    (ofWave ψ).amplitude (index x) = ofComplex (ψ x) := by
  unfold ofWave
  rw [StateVector.amplitude_ofFn (index_lt x), bits_index]

/-- A state vector given by its amplitudes is a wave. -/
theorem ofFn_eq_ofWave {f : ℕ → Amplitude ℝ} {ψ : Wave n}
    (h : ∀ x : Bits n, f (index x) = ofComplex (ψ x)) : StateVector.ofFn n f = ofWave ψ := by
  unfold ofWave StateVector.ofFn
  congr 1
  congr 1
  funext i
  have hi := h (bits n i)
  rwa [index_bits i.isLt] at hi

theorem ofWave_injective : Function.Injective (ofWave (n := n)) := fun ψ φ h => by
  funext x
  have hamp : (ofWave ψ).amplitude (index x) = (ofWave φ).amplitude (index x) := by rw [h]
  rw [amplitude_ofWave, amplitude_ofWave] at hamp
  exact congrArg toComplex hamp

/-- Every state vector is a wave. -/
theorem eq_ofWave (s : StateVector ℝ) : ∃ (n : ℕ) (ψ : Wave n), s = ofWave ψ := by
  obtain ⟨n, amplitudes, hsize⟩ := s
  refine ⟨n, fun x => toComplex (amplitudes.getD (index x) 0), ?_⟩
  rw [← ofFn_eq_ofWave (f := fun i => amplitudes.getD i 0) fun x => rfl]
  unfold StateVector.ofFn
  congr 1
  apply Array.ext
  · rw [Array.size_ofFn, hsize]
  · intro i hi hi'
    rw [Array.getElem_ofFn]
    simp [hi]

/-- The first basis state. -/
def firstWave (n : ℕ) : Wave n := fun x => if x = fun _ => false then 1 else 0

theorem zero_eq_ok {n : ℕ} (hpos : n ≠ 0) (hmax : n ≤ StateVector.maxWires) :
    StateVector.zero n = .ok (ofWave (firstWave n)) := by
  unfold StateVector.zero
  have hcond : (n = 0 || n > StateVector.maxWires) = false := by simp [hpos]; omega
  rw [hcond]
  refine congrArg Except.ok (ofFn_eq_ofWave fun x => ?_)
  unfold firstWave
  rw [apply_ite ofComplex]
  exact if_congr (index_eq_zero_iff x) rfl rfl

/-! ## Matrices -/

/-- A matrix mixes the basis states that differ on its wires only. -/
theorem applyMatrix_ofWave (ψ : Wave n) {matrix : Array (Amplitude ℝ)} {ws : List (Fin n)}
    (hws : ws.Nodup) (hsize : matrix.size = 2 ^ ws.length * 2 ^ ws.length) :
    (ofWave ψ).applyMatrix matrix (ws.map (·.val)) = .ok (ofWave fun x =>
      ∑ c ∈ Finset.range (2 ^ ws.length),
        toComplex (matrix.getD (spell ws x * 2 ^ ws.length + c) 0) * ψ (overwrite ws c x)) := by
  rw [applyMatrix_eq_combined (wires_ofWave ψ) hws hsize]
  -- Each amplitude is the sum over the columns, read where these overwrite the wires.
  refine congrArg Except.ok (ofFn_eq_ofWave fun (x : Bits n) => toComplex_injective ?_)
  rw [bits_index, combined, toComplex_sum, List.map_map, sum_map_range, toComplex_ofComplex]
  refine Finset.sum_congr rfl fun c _ => ?_
  rw [Function.comp_apply, toComplex_mul, amplitude_ofWave, toComplex_ofComplex]

end Proofs

end CircuitGrad
