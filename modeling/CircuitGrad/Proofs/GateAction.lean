import Mathlib
import CircuitGrad.Gate.Standard
import CircuitGrad.Proofs.Wave

/-! # Actions of gates

    A one-wire gate mixes the two basis states that differ on its wire by a
    two-by-two matrix; in a controlled gate the matrix depends on the bit of
    another wire.  Both are cases of `onWire`, a matrix on one wire that is
    chosen by the others, and successive matrices on one wire multiply.

    The exchange of two wires is the one standard gate that is of another
    kind: it permutes the basis states.
-/

namespace CircuitGrad

namespace Proofs

variable {n : ℕ}

/-- A two-by-two matrix with rows and columns by bit. -/
abbrev Block := Matrix Bool Bool ℂ

/-! ## A matrix on one wire -/

/-- A matrix on one wire, which the other wires may choose. -/
noncomputable def onWire (w : Fin n) (U : Bits n → Block) : Wave n →ₗ[ℂ] Wave n where
  toFun ψ x := ∑ b, U x (x w) b * ψ (Function.update x w b)
  map_add' ψ φ := by
    funext x
    simp only [Pi.add_apply, mul_add, Finset.sum_add_distrib]
  map_smul' z ψ := by
    funext x
    simp only [Pi.smul_apply, smul_eq_mul, RingHom.id_apply, Finset.mul_sum]
    exact Finset.sum_congr rfl fun b _ => mul_left_comm _ _ _

theorem onWire_apply (w : Fin n) (U : Bits n → Block) (ψ : Wave n) (x : Bits n) :
    onWire w U ψ x = U x (x w) false * ψ (Function.update x w false) +
      U x (x w) true * ψ (Function.update x w true) := by
  show ∑ b : Bool, U x (x w) b * ψ (Function.update x w b) = _
  rw [Fintype.sum_bool, add_comm]

/-- The choice does not look at the wire itself. -/
def Blind (w : Fin n) (U : Bits n → Block) : Prop :=
  ∀ x b, U (Function.update x w b) = U x

theorem blind_const (w : Fin n) (A : Block) : Blind w fun _ => A := fun _ _ => rfl

theorem blind_of_ne {v w : Fin n} (h : v ≠ w) (f : Bool → Block) : Blind w fun x => f (x v) := by
  intro x b
  simp only [Function.update_of_ne h]

/-- Successive matrices on one wire multiply. -/
theorem onWire_onWire {w : Fin n} {V : Bits n → Block} (hV : Blind w V) (U : Bits n → Block)
    (ψ : Wave n) : onWire w U (onWire w V ψ) = onWire w (fun x => U x * V x) ψ := by
  funext x
  simp only [onWire_apply, hV x, Function.update_self, Function.update_idem, Matrix.mul_apply,
    Fintype.sum_bool]
  ring

theorem onWire_one (w : Fin n) (ψ : Wave n) : onWire w (fun _ => 1) ψ = ψ := by
  funext x
  rw [onWire_apply]
  rcases hx : x w with _ | _ <;> simp [← hx]

theorem onWire_smul (w : Fin n) (U : Bits n → Block) (z : ℂ) (ψ : Wave n) :
    onWire w (fun x => z • U x) ψ = z • onWire w U ψ := by
  funext x
  simp only [onWire_apply, Matrix.smul_apply, smul_eq_mul, Pi.smul_apply]
  ring

theorem onWire_add (w : Fin n) (U V : Bits n → Block) (ψ : Wave n) :
    onWire w (fun x => U x + V x) ψ = onWire w U ψ + onWire w V ψ := by
  funext x
  simp only [onWire_apply, Matrix.add_apply, Pi.add_apply]
  ring

/-- A matrix on a wire, controlled by another wire. -/
noncomputable def controlled (v : Fin n) (A : Block) : Bits n → Block :=
  fun x => if x v then A else 1

theorem blind_controlled {v w : Fin n} (h : v ≠ w) (A : Block) : Blind w (controlled v A) :=
  blind_of_ne h fun b => if b then A else 1

/-- The exchange of two wires. -/
def swapWires (v w : Fin n) : Wave n →ₗ[ℂ] Wave n :=
  LinearMap.funLeft ℂ ℂ fun x => x ∘ Equiv.swap v w

/-! ## What the simulator applies -/

/-- The matrix of a row-major array. -/
noncomputable def toBlock (A : Array (Amplitude ℝ)) : Block :=
  fun i j => toComplex (A.getD (i.toNat * 2 + j.toNat) 0)

theorem applyMatrix_one {A : Array (Amplitude ℝ)} (hA : A.size = 4) (w : Fin n) (ψ : Wave n) :
    (ofWave ψ).applyMatrix A [w.val] = .ok (ofWave (onWire w (fun _ => toBlock A) ψ)) := by
  rw [show [w.val] = [w].map (·.val) from rfl, applyMatrix_ofWave ψ (List.nodup_singleton w) hA]
  congr 2
  funext x
  rw [onWire_apply, show 2 ^ [w].length = 2 from rfl, Finset.sum_range_succ,
    Finset.sum_range_one]
  simp [spell, overwrite, toBlock]

theorem applyMatrix_two {A : Array (Amplitude ℝ)} (hA : A.size = 16) {v w : Fin n} (h : v ≠ w)
    (ψ : Wave n) :
    (ofWave ψ).applyMatrix A [v.val, w.val] = .ok (ofWave fun x =>
      ∑ a : Bool, ∑ b : Bool,
        toComplex (A.getD ((2 * (x v).toNat + (x w).toNat) * 4 + (2 * a.toNat + b.toNat)) 0) *
          ψ (Function.update (Function.update x w b) v a)) := by
  have hnodup : [v, w].Nodup := by simp [h]
  rw [show [v.val, w.val] = [v, w].map (·.val) from rfl, applyMatrix_ofWave ψ hnodup hA]
  congr 2
  funext x
  rw [show 2 ^ [v, w].length = 4 from rfl]
  simp only [Finset.sum_range_succ, Finset.sum_range_zero, Fintype.sum_bool]
  -- The columns are numbered by the bits of both wires, the first wire's bit higher.
  simp only [spell, overwrite, List.foldl_cons, List.foldl_nil, List.length_cons, List.length_nil,
    show Nat.testBit 0 0 = false from rfl, show Nat.testBit 0 1 = false from rfl,
    show Nat.testBit 1 0 = true from rfl, show Nat.testBit 1 1 = false from rfl,
    show Nat.testBit 2 0 = false from rfl, show Nat.testBit 2 1 = true from rfl,
    show Nat.testBit 3 0 = true from rfl, show Nat.testBit 3 1 = true from rfl,
    Bool.toNat_true, Bool.toNat_false, mul_zero, zero_add, mul_one, add_zero]
  ring

theorem applyMatrix_controlled (A : Array (Amplitude ℝ)) {v w : Fin n} (h : v ≠ w) (ψ : Wave n) :
    (ofWave ψ).applyMatrix (Gate.Matrix.controlled A) [v.val, w.val] =
      .ok (ofWave (onWire w (controlled v (toBlock A)) ψ)) := by
  rw [applyMatrix_two (by rfl) h]
  congr 2
  funext x
  have hwhole : ∀ b, Function.update (Function.update x w b) v (x v) = Function.update x w b := by
    intro b
    rw [Function.update_eq_iff]
    exact ⟨(Function.update_of_ne h _ _).symm, fun _ _ => rfl⟩
  have hself : Function.update x w (x w) = x := Function.update_eq_self w x
  rw [onWire_apply]
  simp only [Fintype.sum_bool, controlled]
  -- the first half of the rows leaves the wire as it is
  rcases hxv : x v with _ | _ <;> rw [hxv] at hwhole <;> simp only [hwhole]
  · rcases hxw : x w with _ | _ <;> rw [hxw] at hself <;>
      simp [Gate.Matrix.controlled, hself]
  · rcases hxw : x w with _ | _ <;>
      simp [Gate.Matrix.controlled, toBlock, add_comm]

theorem applyMatrix_swap {v w : Fin n} (h : v ≠ w) (ψ : Wave n) :
    (ofWave ψ).applyMatrix Gate.Matrix.swap [v.val, w.val] = .ok (ofWave (swapWires v w ψ)) := by
  rw [applyMatrix_two (by rfl) h]
  congr 2
  funext x
  have hswap : x ∘ Equiv.swap v w = Function.update (Function.update x w (x v)) v (x w) := by
    funext u
    rw [Function.comp_apply]
    by_cases huv : u = v
    · subst huv
      simp
    · by_cases huw : u = w
      · subst huw
        simp [huv]
      · rw [Equiv.swap_apply_of_ne_of_ne huv huw, Function.update_of_ne huv,
          Function.update_of_ne huw]
  -- Each of the four rows picks the column with the two bits exchanged.
  show _ = ψ (x ∘ Equiv.swap v w)
  rw [hswap]
  simp only [Fintype.sum_bool]
  rcases hxv : x v with _ | _ <;> rcases hxw : x w with _ | _ <;>
    simp [Gate.Matrix.swap]

end Proofs

end CircuitGrad
