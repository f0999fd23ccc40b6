/-
  PythonUltra.Lib.Elimination — row operations, and an inverse by them.

  Row operations keep what the rows make zero (`Kernel`). If they take a matrix with the
  identity beside it to the identity with another matrix, that is the inverse
  (`inverse_of_kernel`); if on the way the left half makes a vector zero, there is none.
-/

import Mathlib.Data.Matrix.ColumnRowPartitioned
import Mathlib.LinearAlgebra.Matrix.NonsingularInverse

namespace PythonUltra.Lib.Elimination

variable {K ι κ : Type} [Field K] [Fintype κ]

open Matrix

/-- What every row makes zero. -/
def Kernel (W : Matrix ι κ K) : Set (κ → K) := {z | ∀ i, W i ⬝ᵥ z = 0}

theorem mem_kernel {W : Matrix ι κ K} {z : κ → K} : z ∈ Kernel W ↔ W *ᵥ z = 0 := funext_iff.symm

theorem kernel_permute {W W' : Matrix ι κ K} (σ : ι ≃ ι) (hrows : ∀ i, W' i = W (σ i)) : Kernel W' = Kernel W := by
  ext z
  constructor
  · intro h i
    have hi := h (σ.symm i)
    rwa [hrows, Equiv.apply_symm_apply] at hi
  · intro h i
    rw [hrows]
    exact h (σ i)

/-- A row scaled, and multiples of it taken from the others. -/
theorem kernel_pivot {W W' : Matrix ι κ K} {p : ι} {c : K} {f : ι → K} (hc : c ≠ 0) (hpivot : W' p = c • W p)
    (hrows : ∀ i, i ≠ p → W' i = W i - f i • W p) : Kernel W' = Kernel W := by
  ext z
  constructor
  · intro h i
    have hp : W p ⬝ᵥ z = 0 := by
      have hrow := h p
      rw [hpivot, smul_dotProduct, smul_eq_mul] at hrow
      exact (mul_eq_zero.mp hrow).resolve_left hc
    by_cases hi : i = p
    · rw [hi]
      exact hp
    · have hrow := h i
      rwa [hrows i hi, sub_dotProduct, smul_dotProduct, hp, smul_zero, sub_zero] at hrow
  · intro h i
    by_cases hi : i = p
    · rw [hi, hpivot, smul_dotProduct, h p, smul_zero]
    · rw [hrows i hi, sub_dotProduct, smul_dotProduct, h i, h p, smul_zero, sub_zero]

section
variable [Fintype ι] [DecidableEq ι] {M N L R : Matrix ι ι K}

theorem inverse_of_kernel (h : Kernel (fromCols M 1) = Kernel (fromCols 1 N)) : M * N = 1 := by
  refine ext_of_mulVec_single fun j => ?_
  have hmem : Sum.elim (N *ᵥ Pi.single j 1) (-Pi.single j 1) ∈ Kernel (fromCols 1 N) := by
    rw [mem_kernel, fromCols_mulVec_sumElim, one_mulVec, mulVec_neg, add_neg_cancel]
  rw [← h, mem_kernel, fromCols_mulVec_sumElim, one_mulVec, add_neg_eq_zero, mulVec_mulVec] at hmem
  rw [hmem, one_mulVec]

theorem not_isUnit_of_kernel (h : Kernel (fromCols M 1) = Kernel (fromCols L R)) {v : ι → K} (hv : v ≠ 0) (hL : L *ᵥ v = 0) : ¬ IsUnit M := by
  intro hM
  have hmem : Sum.elim v 0 ∈ Kernel (fromCols L R) := by
    rw [mem_kernel, fromCols_mulVec_sumElim, hL, mulVec_zero, add_zero]
  rw [← h, mem_kernel, fromCols_mulVec_sumElim, mulVec_zero, add_zero] at hmem
  exact hv (mulVec_injective_of_isUnit hM (hmem.trans (mulVec_zero M).symm))

end

end PythonUltra.Lib.Elimination
