import Mathlib.Data.List.FinRange
import Icesee.Analysis.Filters
import Icesee.Lib.Keyed

/-!
`inflate_ensemble`: the spread around the mean, times a factor.

With a scalar factor both variants of the loop give every member its departure from the
mean times the factor (`inflateEnsemble_scalar`). An array of factors, one for every row,
is written to a name that is not bound yet, so the function raises before the loop.
`inflates_iff` says that this is all that goes wrong.
-/

namespace Icesee

open Keyed

/-- `params['inflation_factor']`: a scalar, or an array. -/
inductive InflationFactor (K : Type)
  | scalar (a : K)
  | vector (a : List K)

/-- What `inflate_ensemble` raises. -/
inductive InflationError
  | valueError
  | unboundLocalError
  deriving DecidableEq

/-- What is left by a call: the array that it returns, and `self.ensemble`. -/
structure Inflated (n N : ℕ) (K : Type) where
  returned : Matrix (Fin n) (Fin N) K
  ensemble : Matrix (Fin n) (Fin N) K

section Definitions

variable {n N : ℕ} {K : Type} [Field K]

/-- `(state - mean_vec) * _inflation_factor + mean_vec`. -/
def inflateState (a : K) (meanVec state : Fin n → K) : Fin n → K := fun i =>
  (state i - meanVec i) * a + meanVec i

/-- The loop over the members of `self.ensemble` itself. -/
def inflateInPlace (a : K) (meanVec : Fin n → K) (A : Matrix (Fin n) (Fin N) K) :
    Matrix (Fin n) (Fin N) K :=
  Matrix.transpose ((List.finRange N).foldl (fun cols ensIdx =>
    Function.update cols ensIdx (inflateState a meanVec (cols ensIdx))) A.transpose)

/-- The loop that fills a new array. -/
def inflateCopy (a : K) (meanVec : Fin n → K) (A : Matrix (Fin n) (Fin N) K) :
    Matrix (Fin n) (Fin N) K :=
  Matrix.transpose ((List.finRange N).foldl (fun cols ensIdx =>
    Function.update cols ensIdx (inflateState a meanVec fun i => A i ensIdx)) 0)

variable [LinearOrder K]

/-- `inflate_ensemble`. What comes after the assignment `_inflation_factor[:] = ...` is not
reached with an array. -/
def inflateEnsemble (A : Matrix (Fin n) (Fin N) K) (inflationFactor : InflationFactor K)
    (inPlace : Bool) : Except InflationError (Inflated n N K) :=
  match inflationFactor with
  | .vector a => if a.length = n then .error .unboundLocalError else .error .valueError
  | .scalar a =>
    if a = 1 then .ok ⟨A, A⟩
    else if a < 0 then .error .valueError
    else
      let meanVec := ensembleMean A
      if inPlace then
        let inflated := inflateInPlace a meanVec A
        .ok ⟨inflated, inflated⟩
      else .ok ⟨inflateCopy a meanVec A, A⟩

namespace InflationFactor

/-- A scalar that is not negative, or as many such numbers as there are rows. -/
def Admissible (n : ℕ) : InflationFactor K → Prop
  | scalar a => 0 ≤ a
  | vector a => a.length = n ∧ ∀ x ∈ a, 0 ≤ x

def IsScalar : InflationFactor K → Prop
  | scalar _ => True
  | vector _ => False

/-- The factor of a row. -/
def row : InflationFactor K → ℕ → K
  | scalar a, _ => a
  | vector a, i => a.getD i 0

end InflationFactor

/-- Both variants return the same ensemble, the one in place leaves it in the array that
was given and the other one leaves that array alone; and the ensemble has the mean of the
given one and its anomalies times the factors of their rows. -/
def Inflates (A : Matrix (Fin n) (Fin N) K) (inflationFactor : InflationFactor K) : Prop :=
  ∃ B, inflateEnsemble A inflationFactor true = .ok ⟨B, B⟩ ∧
    inflateEnsemble A inflationFactor false = .ok ⟨B, A⟩ ∧
    ensembleMean B = ensembleMean A ∧
    ∀ i j, perturbations B i j = inflationFactor.row i * perturbations A i j

end Definitions

/-! ### The loops -/

section Loops

variable {n N : ℕ} {K : Type} [Field K] {A : Matrix (Fin n) (Fin N) K} {a : K} {meanVec : Fin n → K}

/-- Every member is inflated once. -/
lemma inflateInPlace_apply (i : Fin n) (j : Fin N) :
    inflateInPlace a meanVec A i j = (A i j - meanVec i) * a + meanVec i := by
  have hloop := foldl_update_apply (f := fun _ => inflateState a meanVec) (List.nodup_finRange N)
    A.transpose j
  rw [if_pos (List.mem_finRange j)] at hloop
  exact congrFun hloop i

lemma inflateCopy_apply (i : Fin n) (j : Fin N) :
    inflateCopy a meanVec A i j = (A i j - meanVec i) * a + meanVec i := by
  have hloop := foldl_update_apply (f := fun ensIdx _ => inflateState a meanVec fun i => A i ensIdx)
    (List.nodup_finRange N) 0 j
  rw [if_pos (List.mem_finRange j)] at hloop
  exact congrFun hloop i

/-! ### Mean and spread -/

/-- The inflated ensemble is the inflated spread around the mean. -/
lemma inflateCopy_eq : inflateCopy a (ensembleMean A) A =
    a • perturbations A + Matrix.of fun i _ => ensembleMean A i := by
  ext i j
  rw [inflateCopy_apply, Matrix.add_apply, Matrix.smul_apply, smul_eq_mul, mul_comm]
  rfl

lemma ensembleMean_inflateCopy (hN : (N : K) ≠ 0) :
    ensembleMean (inflateCopy a (ensembleMean A) A) = ensembleMean A := by
  have hspread : ensembleMean (a • perturbations A) = 0 := by
    rw [ensembleMean_eq, Matrix.smul_mulVec, smul_comm, ← ensembleMean_eq,
      ensembleMean_perturbations hN, smul_zero]
  rw [inflateCopy_eq, ensembleMean_add, hspread, ensembleMean_const hN, zero_add]

lemma perturbations_inflateCopy (hN : (N : K) ≠ 0) :
    perturbations (inflateCopy a (ensembleMean A) A) = a • perturbations A := by
  rw [perturbations_eq, ensembleMean_inflateCopy hN, inflateCopy_eq, add_sub_cancel_right]

end Loops

section Statement

variable {n N : ℕ} {K : Type} [Field K] [LinearOrder K]

/-- A scalar factor, in both variants. -/
lemma inflateEnsemble_scalar {a : K} (ha : 0 ≤ a) (A : Matrix (Fin n) (Fin N) K) :
    inflateEnsemble A (.scalar a) true = .ok ⟨inflateCopy a (ensembleMean A) A,
      inflateCopy a (ensembleMean A) A⟩ ∧
    inflateEnsemble A (.scalar a) false = .ok ⟨inflateCopy a (ensembleMean A) A, A⟩ := by
  by_cases hone : a = 1
  · have hid : inflateCopy a (ensembleMean A) A = A := by
      ext i j
      rw [inflateCopy_apply, hone, mul_one, sub_add_cancel]
    rw [hid]
    exact ⟨if_pos hone, if_pos hone⟩
  · have hsame : inflateInPlace a (ensembleMean A) A = inflateCopy a (ensembleMean A) A := by
      ext i j
      rw [inflateInPlace_apply, inflateCopy_apply]
    simp only [inflateEnsemble, if_neg hone, if_neg ha.not_gt]
    exact ⟨by rw [if_pos trivial, hsame], if_neg Bool.false_ne_true⟩

/-- **Inflation** is as stated exactly for the scalar factors. -/
theorem inflates_iff [IsStrictOrderedRing K] (hN : 1 ≤ N) (A : Matrix (Fin n) (Fin N) K)
    {inflationFactor : InflationFactor K} (hadm : inflationFactor.Admissible n) :
    Inflates A inflationFactor ↔ inflationFactor.IsScalar := by
  cases inflationFactor with
  | scalar a =>
      have hN' : (N : K) ≠ 0 := Nat.cast_ne_zero.mpr (Nat.one_le_iff_ne_zero.mp hN)
      obtain ⟨hin, hcopy⟩ := inflateEnsemble_scalar hadm A
      refine iff_of_true ⟨_, hin, hcopy, ensembleMean_inflateCopy hN', fun i j => ?_⟩ trivial
      rw [perturbations_inflateCopy hN']
      rfl
  | vector a =>
      refine iff_of_false (fun h => ?_) id
      obtain ⟨B, hin, -⟩ := h
      rw [inflateEnsemble, if_pos hadm.1] at hin
      cases hin

/-- Two members, inflated by three halves. -/
theorem inflates_scalar : Inflates (!![0, 2] : Matrix (Fin 1) (Fin 2) ℚ) (.scalar (3 / 2)) :=
  (inflates_iff one_le_two !![0, 2] (by norm_num [InflationFactor.Admissible])).mpr trivial

/-- One row, one member and the array of factors `[2]`. -/
theorem not_inflates_vector : ¬ Inflates (0 : Matrix (Fin 1) (Fin 1) ℚ) (.vector [2]) := by
  rintro ⟨B, hin, -⟩
  rw [inflateEnsemble, if_pos (by decide)] at hin
  cases hin

end Statement

end Icesee
