import Mathlib.Analysis.Matrix.Order
import Mathlib.LinearAlgebra.Matrix.NonsingularInverse

/-!
Singular value decompositions.

`IsSVD` is what a routine for `U diag(σ) Vᵀ = M` promises. Of the left factor alone two
things follow: `M * Mᵀ` is diagonal in it (`mul_transpose`), so that inverses of the
non-zero `σ i ^ 2` give a generalised inverse of `M * Mᵀ` (`transpose_mul_pinv`), and a
positive semidefinite `M` is `U diag(σ) Uᵀ` already (`eq_of_posSemidef`), so that
`(1 + M)⁻¹` is read off the singular values (`inv_one_add`).
-/

open Matrix

variable {m n r : Type*} [Fintype r] [DecidableEq r]

/-- The factors of a decomposition: left vectors, singular values, right vectors. -/
structure SVD (m r n K : Type*) where
  u : Matrix m r K
  sig : r → K
  vt : Matrix r n K

/-- The factors decompose `M`: orthonormal columns on the left and rows on the right, and
singular values that are not negative and do not increase. -/
structure IsSVD [Fintype m] [Fintype n] [Preorder r] (M : Matrix m n ℝ) (s : SVD m r n ℝ) :
    Prop where
  left : s.uᵀ * s.u = 1
  right : s.vt * s.vtᵀ = 1
  nonneg : ∀ i, 0 ≤ s.sig i
  antitone : Antitone s.sig
  factor : s.u * diagonal s.sig * s.vt = M

namespace SVD

/-- The left vectors with other values between them. -/
def reassemble (s : SVD m r n ℝ) (t : r → ℝ) : Matrix m m ℝ := s.u * diagonal t * s.uᵀ

end SVD

namespace IsSVD

variable [Fintype m] [Fintype n] [Preorder r] {M : Matrix m n ℝ} {s : SVD m r n ℝ}

/-- The left vectors cancel between two lists of values. -/
lemma reassemble_mul (h : IsSVD M s) (t t' : r → ℝ) :
    s.reassemble t * s.reassemble t' = s.reassemble fun i => t i * t' i := by
  calc s.reassemble t * s.reassemble t'
      = s.u * diagonal t * (s.uᵀ * s.u) * (diagonal t' * s.uᵀ) := by
        simp only [SVD.reassemble, Matrix.mul_assoc]
    _ = s.u * (diagonal t * diagonal t') * s.uᵀ := by
        rw [h.left, Matrix.mul_one]
        simp only [Matrix.mul_assoc]
    _ = s.reassemble fun i => t i * t' i := by rw [diagonal_mul_diagonal, SVD.reassemble]

/-- The product with the transpose is diagonal in the left vectors. -/
lemma mul_transpose (h : IsSVD M s) : M * Mᵀ = s.reassemble fun i => s.sig i ^ 2 := by
  calc M * Mᵀ = s.u * diagonal s.sig * (s.vt * s.vtᵀ) * (diagonal s.sig * s.uᵀ) := by
        rw [← h.factor, transpose_mul, transpose_mul, diagonal_transpose]
        simp only [Matrix.mul_assoc]
    _ = s.u * (diagonal s.sig * diagonal s.sig) * s.uᵀ := by
        rw [h.right, Matrix.mul_one]
        simp only [Matrix.mul_assoc]
    _ = s.reassemble fun i => s.sig i ^ 2 := by
        rw [diagonal_mul_diagonal, SVD.reassemble]
        simp only [pow_two]

/-- Values that invert the non-zero squares give a generalised inverse of `M * Mᵀ`. -/
lemma transpose_mul_pinv (h : IsSVD M s) {t : r → ℝ}
    (ht : ∀ i, s.sig i ≠ 0 → s.sig i ^ 2 * t i = 1) : Mᵀ * (M * Mᵀ) * s.reassemble t = Mᵀ := by
  have hkeep : ∀ i, s.sig i * (s.sig i ^ 2 * t i) = s.sig i := by
    intro i
    by_cases hi : s.sig i = 0
    · rw [hi, zero_mul]
    · rw [ht i hi, mul_one]
  have htranspose : Mᵀ = s.vtᵀ * diagonal s.sig * s.uᵀ := by
    rw [← h.factor, transpose_mul, transpose_mul, diagonal_transpose, Matrix.mul_assoc]
  calc Mᵀ * (M * Mᵀ) * s.reassemble t
      = s.vtᵀ * diagonal s.sig * s.uᵀ * s.reassemble fun i => s.sig i ^ 2 * t i := by
        rw [Matrix.mul_assoc, h.mul_transpose, h.reassemble_mul, htranspose]
    _ = s.vtᵀ * diagonal s.sig * (s.uᵀ * s.u) * diagonal (fun i => s.sig i ^ 2 * t i) * s.uᵀ := by
        simp only [SVD.reassemble, Matrix.mul_assoc]
    _ = s.vtᵀ * (diagonal s.sig * diagonal fun i => s.sig i ^ 2 * t i) * s.uᵀ := by
        rw [h.left, Matrix.mul_one]
        simp only [Matrix.mul_assoc]
    _ = Mᵀ := by
        rw [diagonal_mul_diagonal, htranspose]
        simp only [hkeep]

/-- When the generalised inverse of a vector has the weights of another one. -/
lemma pinv_weights_eq_iff (h : IsSVD M s) {t : r → ℝ}
    (ht : ∀ i, s.sig i ≠ 0 → s.sig i ^ 2 * t i = 1) (e x : m → ℝ) :
    Mᵀ *ᵥ (s.reassemble t *ᵥ e) = Mᵀ *ᵥ x ↔ Mᵀ *ᵥ e = Mᵀ *ᵥ ((M * Mᵀ) *ᵥ x) := by
  have hgram : ∀ z : m → ℝ, Mᵀ *ᵥ z = 0 ↔ Mᵀ *ᵥ ((M * Mᵀ) *ᵥ z) = 0 := by
    intro z
    have hself := conjTranspose_mul_self_mulVec_eq_zero M (Mᵀ *ᵥ z)
    have hcross := self_mul_conjTranspose_mulVec_eq_zero M z
    rw [conjTranspose_eq_transpose_of_trivial] at hself hcross
    rw [← hcross, ← mulVec_mulVec, ← hself, mulVec_mulVec, mulVec_mulVec, mulVec_mulVec,
      Matrix.mul_assoc]
  have hpinv : Mᵀ *ᵥ ((M * Mᵀ) *ᵥ (s.reassemble t *ᵥ e)) = Mᵀ *ᵥ e := by
    rw [mulVec_mulVec, mulVec_mulVec, h.transpose_mul_pinv ht]
  rw [← sub_eq_zero, ← mulVec_sub, hgram, mulVec_sub, mulVec_sub, hpinv, sub_eq_zero]

end IsSVD

/-! ### Square matrices -/

namespace IsSVD

variable [Preorder r] {M : Matrix r r ℝ} {s : SVD r r r ℝ}

/-- A positive semidefinite matrix is diagonal in its left vectors. -/
lemma eq_of_posSemidef (h : IsSVD M s) (hM : M.PosSemidef) : s.reassemble s.sig = M := by
  open scoped MatrixOrder in
  have hpsd : (s.reassemble s.sig).PosSemidef := by
    rw [SVD.reassemble]
    exact (PosSemidef.diagonal h.nonneg).mul_mul_conjTranspose_same s.u
  have hsymm : Mᵀ = M := hM.isHermitian
  have hsq : (s.reassemble s.sig) ^ 2 = M ^ 2 := by
    calc (s.reassemble s.sig) ^ 2 = s.reassemble fun i => s.sig i ^ 2 := by
          rw [pow_two, h.reassemble_mul]
          simp only [pow_two]
      _ = M ^ 2 := by rw [← h.mul_transpose, hsymm, pow_two]
  exact (CFC.sq_eq_sq_iff _ _ hpsd.nonneg hM.nonneg).mp hsq

/-- The inverse of `1 + M` has the values `1 / (σ + 1)`. -/
lemma inv_one_add (h : IsSVD M s) (hM : M.PosSemidef) :
    (1 + M)⁻¹ = s.reassemble fun i => 1 / (s.sig i + 1) := by
  have hu : s.u * s.uᵀ = 1 := mul_eq_one_comm.mp h.left
  have hone : (1 : Matrix r r ℝ) = s.reassemble fun _ => 1 := by
    rw [SVD.reassemble, diagonal_one, Matrix.mul_one, hu]
  have hadd : 1 + M = s.reassemble fun i => s.sig i + 1 := by
    calc 1 + M = (s.reassemble fun _ => 1) + s.reassemble s.sig := by
          rw [← hone, h.eq_of_posSemidef hM]
      _ = s.reassemble fun i => s.sig i + 1 := by
          simp only [SVD.reassemble]
          rw [← Matrix.add_mul, ← Matrix.mul_add, diagonal_add]
          simp only [add_comm]
  refine inv_eq_right_inv ?_
  rw [hadd, h.reassemble_mul, hone]
  congr 1
  funext i
  exact mul_one_div_cancel (by linarith [h.nonneg i])

end IsSVD
