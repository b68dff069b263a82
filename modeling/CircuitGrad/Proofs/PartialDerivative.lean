import Mathlib

/-! # Partial derivatives

    A partial derivative of a function of several numbers is taken along one
    of them, the others held fixed.  The numbers are the inputs of an
    expression or the parameters of a trace.
-/

namespace CircuitGrad

variable {ι : Type} [DecidableEq ι]

/-- `f` has the derivative `f'` along coordinate `i` at `p`. -/
def HasPartialAt (f : (ι → ℝ) → ℝ) (i : ι) (f' : ℝ) (p : ι → ℝ) : Prop :=
  HasDerivAt (fun t => f (Function.update p i t)) f' (p i)

namespace HasPartialAt

variable {f g : (ι → ℝ) → ℝ} {i : ι} {f' g' : ℝ} {p : ι → ℝ}

theorem const (c : ℝ) (i : ι) (p : ι → ℝ) : HasPartialAt (fun _ => c) i 0 p :=
  hasDerivAt_const _ _

theorem coordinate (k i : ι) (p : ι → ℝ) :
    HasPartialAt (fun q => q k) i (if k = i then 1 else 0) p := by
  unfold HasPartialAt
  by_cases h : k = i
  · subst h
    simpa using hasDerivAt_id' (p k)
  · simpa [h, Function.update_of_ne h] using hasDerivAt_const (p i) (p k)

theorem add (hf : HasPartialAt f i f' p) (hg : HasPartialAt g i g' p) :
    HasPartialAt (fun q => f q + g q) i (f' + g') p :=
  HasDerivAt.add hf hg

theorem mul (hf : HasPartialAt f i f' p) (hg : HasPartialAt g i g' p) :
    HasPartialAt (fun q => f q * g q) i (f' * g p + f p * g') p := by
  have h := HasDerivAt.mul hf hg
  simp only [Function.update_eq_self] at h
  exact h

theorem comp {φ : ℝ → ℝ} {φ' : ℝ} (hφ : HasDerivAt φ φ' (f p)) (hf : HasPartialAt f i f' p) :
    HasPartialAt (fun q => φ (f q)) i (φ' * f') p := by
  have hφ' : HasDerivAt φ φ' (f (Function.update p i (p i))) := by
    rwa [Function.update_eq_self]
  exact HasDerivAt.comp (p i) hφ' hf

theorem congr_deriv (hf : HasPartialAt f i f' p) (h : f' = g') : HasPartialAt f i g' p :=
  h ▸ hf

end HasPartialAt

end CircuitGrad
