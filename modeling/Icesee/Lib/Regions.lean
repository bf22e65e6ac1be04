import Mathlib.Data.Matrix.Basic
import Mathlib.LinearAlgebra.Matrix.Hadamard
import Mathlib.LinearAlgebra.Matrix.NonsingularInverse

/-!
Matrices between regions, and what two of them share in one region.

Every row and every column has a region. A matrix is regional if it has no entry between two
regions (`Regional`); sums, products, transposes and inverses of regional matrices are regional.
Two families agree in a region if they are the same there (`AgreeIn`), and then their images
under regional matrices that agree in the region do, and so do the inverses of such matrices
(`AgreeIn.mul`, `AgreeIn.inv`).
-/

namespace Regions

open Matrix

variable {ι κ μ ρ α K : Type*} {f : ι → ρ} {g : κ → ρ} {h : μ → ρ} {r : ρ}

/-- Nothing between two regions. -/
def Regional [Zero K] (f : ι → ρ) (g : κ → ρ) (M : Matrix ι κ K) : Prop :=
  ∀ i j, f i ≠ g j → M i j = 0

/-- The same in a region. -/
def AgreeIn (f : ι → ρ) (r : ρ) (x y : ι → α) : Prop := ∀ i, f i = r → x i = y i

namespace AgreeIn

lemma refl (x : ι → α) : AgreeIn f r x x := fun _ _ => rfl

/-- What is computed row by row. -/
lemma map₂ {β γ : Type*} (op : α → β → γ) {x x' : ι → α} {y y' : ι → β} (hx : AgreeIn f r x x')
    (hy : AgreeIn f r y y') :
    AgreeIn f r (fun i => op (x i) (y i)) fun i => op (x' i) (y' i) := by
  intro i hi
  simp only [hx i hi, hy i hi]

lemma add [Add α] {x x' y y' : ι → α} (hx : AgreeIn f r x x') (hy : AgreeIn f r y y') :
    AgreeIn f r (x + y) (x' + y') := map₂ (· + ·) hx hy

lemma sub [Sub α] {x x' y y' : ι → α} (hx : AgreeIn f r x x') (hy : AgreeIn f r y y') :
    AgreeIn f r (x - y) (x' - y') := map₂ (· - ·) hx hy

lemma smul {β : Type*} [SMul β α] (a : β) {x y : ι → α} (hx : AgreeIn f r x y) :
    AgreeIn f r (a • x) (a • y) := fun i hi => congrArg (a • ·) (hx i hi)

end AgreeIn

/-! ### Regional matrices -/

namespace Regional

section Ring

variable [CommRing K] {M N : Matrix ι κ K}

lemma transpose (hM : Regional f g M) : Regional g f Mᵀ := fun i j hij => hM j i hij.symm

lemma add (hM : Regional f g M) (hN : Regional f g N) : Regional f g (M + N) := by
  intro i j hij
  rw [Matrix.add_apply, hM i j hij, hN i j hij, add_zero]

lemma smul (a : K) (hM : Regional f g M) : Regional f g (a • M) := by
  intro i j hij
  rw [Matrix.smul_apply, hM i j hij, smul_zero]

lemma hadamard (hM : Regional f g M) (N : Matrix ι κ K) : Regional f g (M ⊙ N) := by
  intro i j hij
  rw [hadamard_apply, hM i j hij, zero_mul]

lemma mul [Fintype κ] {P : Matrix κ μ K} (hM : Regional f g M) (hP : Regional g h P) :
    Regional f h (M * P) := by
  intro i j hij
  rw [mul_apply]
  refine Finset.sum_eq_zero fun k _ => ?_
  by_cases hik : f i = g k
  · have hkj : g k ≠ h j := fun hkj => hij (hik.trans hkj)
    rw [hP k j hkj, mul_zero]
  · rw [hM i k hik, zero_mul]

end Ring

end Regional

/-! ### Inverses -/

section Inverse

variable [CommRing K] [Fintype ι] [DecidableEq ι] [DecidableEq ρ] {C C' : Matrix ι ι K}

variable (K) in
/-- The rows of a region. -/
def cut (f : ι → ρ) (r : ρ) : Matrix ι ι K := diagonal fun i => if f i = r then 1 else 0

lemma cut_mul_apply {κ : Type*} (M : Matrix ι κ K) (i : ι) (j : κ) :
    (cut K f r * M) i j = if f i = r then M i j else 0 := by
  rw [cut, diagonal_mul, ite_mul, one_mul, zero_mul]

lemma mul_cut_apply (M : Matrix ι ι K) (i j : ι) :
    (M * cut K f r) i j = if f j = r then M i j else 0 := by
  rw [cut, mul_diagonal, mul_ite, mul_one, mul_zero]

/-- A matrix is regional if it commutes with the cuts. -/
lemma regional_of_cut (hcut : ∀ r, cut K f r * C = C * cut K f r) : Regional f f C := by
  intro i j hij
  have hentry := congrFun (congrFun (hcut (f i)) i) j
  rwa [cut_mul_apply, mul_cut_apply, if_pos rfl, if_neg (Ne.symm hij)] at hentry

lemma Regional.cut_mul (hC : Regional f f C) (r : ρ) : cut K f r * C = C * cut K f r := by
  ext i j
  rw [cut_mul_apply, mul_cut_apply]
  by_cases hij : f i = f j
  · rw [hij]
  · rw [hC i j hij, ite_self, ite_self]

/-- The inverse commutes with the cuts. -/
lemma Regional.cut_mul_inv (hC : Regional f f C) (hdet : IsUnit C.det) (r : ρ) :
    cut K f r * C⁻¹ = C⁻¹ * cut K f r := by
  calc cut K f r * C⁻¹
      = C⁻¹ * (C * cut K f r) * C⁻¹ := by rw [nonsing_inv_mul_cancel_left _ _ hdet]
    _ = C⁻¹ * (cut K f r * C) * C⁻¹ := by rw [hC.cut_mul]
    _ = C⁻¹ * cut K f r := by
        rw [← Matrix.mul_assoc, mul_nonsing_inv_cancel_right _ _ hdet]

lemma Regional.inv (hC : Regional f f C) (hdet : IsUnit C.det) : Regional f f C⁻¹ :=
  regional_of_cut (hC.cut_mul_inv hdet)

/-- The rows of a region, of two matrices that agree there. -/
lemma AgreeIn.cut_eq {κ : Type*} {M M' : Matrix ι κ K} (hM : AgreeIn f r M M') :
    cut K f r * M = cut K f r * M' := by
  ext i j
  rw [cut_mul_apply, cut_mul_apply]
  by_cases hi : f i = r
  · rw [hM i hi]
  · rw [if_neg hi, if_neg hi]

lemma agreeIn_of_cut {κ : Type*} {M M' : Matrix ι κ K} (hcut : cut K f r * M = cut K f r * M') :
    AgreeIn f r M M' := by
  intro i hi
  funext j
  have hentry := congrFun (congrFun hcut i) j
  rwa [cut_mul_apply, cut_mul_apply, if_pos hi, if_pos hi] at hentry

/-- **Inverses** in a region. -/
lemma AgreeIn.inv (hC : Regional f f C) (hdet : IsUnit C.det) (hdet' : IsUnit C'.det)
    (hCC : AgreeIn f r C C') : AgreeIn f r (C⁻¹ : Matrix ι ι K) (C'⁻¹ : Matrix ι ι K) := by
  refine agreeIn_of_cut ?_
  calc cut K f r * C⁻¹
      = C⁻¹ * (cut K f r * C') * C'⁻¹ := by
        rw [hC.cut_mul_inv hdet, ← Matrix.mul_assoc, mul_nonsing_inv_cancel_right _ _ hdet']
    _ = C⁻¹ * (C * cut K f r) * C'⁻¹ := by rw [← hCC.cut_eq, hC.cut_mul]
    _ = cut K f r * C'⁻¹ := by rw [nonsing_inv_mul_cancel_left _ _ hdet]

end Inverse

/-! ### Products -/

namespace AgreeIn

variable [CommRing K] {M M' : Matrix ι κ K}

/-- A regional matrix reads a region only there. -/
lemma mulVec [Fintype κ] {x x' : κ → K} (hM : Regional f g M) (hMM : AgreeIn f r M M')
    (hx : AgreeIn g r x x') : AgreeIn f r (M *ᵥ x) (M' *ᵥ x') := by
  intro i hi
  refine Finset.sum_congr rfl fun k _ => ?_
  show M i k * x k = M' i k * x' k
  by_cases hk : g k = r
  · rw [← hMM i hi, hx k hk]
  · have hik : f i ≠ g k := fun hik => hk (hik.symm.trans hi)
    rw [← hMM i hi, hM i k hik, zero_mul, zero_mul]

lemma mul [Fintype κ] {P P' : Matrix κ μ K} (hM : Regional f g M) (hMM : AgreeIn f r M M')
    (hP : AgreeIn g r P P') : AgreeIn f r (M * P) (M' * P') := by
  intro i hi
  funext j
  exact mulVec hM hMM (fun k hk => congrFun (hP k hk) j) i hi

/-- The transposes of regional matrices. -/
lemma transpose (hM : Regional f g M) (hM' : Regional f g M') (hMM : AgreeIn f r M M') :
    AgreeIn g r Mᵀ M'ᵀ := by
  intro j hj
  funext i
  rw [transpose_apply, transpose_apply]
  by_cases hi : f i = r
  · rw [hMM i hi]
  · have hij : f i ≠ g j := fun hij => hi (hij.trans hj)
    rw [hM i j hij, hM' i j hij]

/-- Entrywise products with regional matrices: only the entries within the region matter. -/
lemma hadamard {N N' : Matrix ι ι K} {P P' : Matrix ι ι K} (hN : Regional f f N)
    (hNN : AgreeIn f r N N') (hP : ∀ i j, f i = r → f j = r → P i j = P' i j) :
    AgreeIn f r (N ⊙ P) (N' ⊙ P') := by
  intro i hi
  funext j
  rw [hadamard_apply, hadamard_apply, ← hNN i hi]
  by_cases hj : f j = r
  · rw [hP i j hi hj]
  · have hij : f i ≠ f j := fun hij => hj (hij.symm.trans hi)
    rw [hN i j hij, zero_mul, zero_mul]

end AgreeIn

end Regions
