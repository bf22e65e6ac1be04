import Mathlib.LinearAlgebra.Matrix.NonsingularInverse
import Mathlib.LinearAlgebra.Matrix.PosDef
import Mathlib.Algebra.Order.Star.Real

/-!
The gain of a linear update, in observation and in ensemble space.

For anomalies `S` and a positive definite error covariance `R` the matrices
`a • R + S * Sᵀ` are invertible, and `push_through` moves their inverse past `Sᵀ`.
`increment_eq_iff` compares two such updates, for two weights of `R`: what an operator
observes of `A *ᵥ x` determines the part of `x` that matters. `sum_gain_eq_iff` compares
the gain of anomalies in parts with the sum of the gains of the parts: by
`posDef_inv_sub_inv` each part alone has too large a gain.
-/

namespace Gain

open Matrix

variable {l m n : Type*} [Fintype l] [Fintype m] [Fintype n]

/-! ### What is observed of an increment -/

/-- An increment that is not observed is no increment. -/
lemma mulVec_transpose_eq_zero (H : Matrix m l ℝ) (A : Matrix l n ℝ) (x : m → ℝ) :
    A *ᵥ ((H * A)ᵀ *ᵥ x) = 0 ↔ (H * A)ᵀ *ᵥ x = 0 := by
  refine ⟨fun h => ?_, fun h => ?_⟩
  · have hobs : (H * A * (H * A)ᵀ) *ᵥ x = 0 := by
      rw [← mulVec_mulVec, ← mulVec_mulVec, h, mulVec_zero]
    exact (self_mul_conjTranspose_mulVec_eq_zero (H * A) x).mp hobs
  · rw [h, mulVec_zero]

/-- Two increments agree if their ensemble weights do. -/
lemma mulVec_transpose_inj (H : Matrix m l ℝ) (A : Matrix l n ℝ) (x y : m → ℝ) :
    A *ᵥ ((H * A)ᵀ *ᵥ x) = A *ᵥ ((H * A)ᵀ *ᵥ y) ↔ (H * A)ᵀ *ᵥ x = (H * A)ᵀ *ᵥ y := by
  have h := mulVec_transpose_eq_zero H A (x - y)
  rwa [mulVec_sub, mulVec_sub, sub_eq_zero, sub_eq_zero] at h

/-! ### Two spaces -/

variable {R : Matrix m m ℝ} {S : Matrix m n ℝ} {a b : ℝ}

/-- The innovation covariance, with weight `a` on the errors. -/
def innovation (R : Matrix m m ℝ) (S : Matrix m n ℝ) (a : ℝ) : Matrix m m ℝ := a • R + S * Sᵀ

lemma posDef_innovation (hR : R.PosDef) (ha : 0 < a) : (innovation R S a).PosDef :=
  (hR.smul ha).add_posSemidef (posSemidef_self_mul_conjTranspose S)

variable [DecidableEq m]

/-- The inverse of a fraction of the innovation covariance. -/
lemma inv_smul_innovation (hR : R.PosDef) (ha : 0 < a) :
    (a⁻¹ • innovation R S a)⁻¹ = a • (innovation R S a)⁻¹ := by
  have hdet := (Matrix.isUnit_iff_isUnit_det _).mp (posDef_innovation (S := S) hR ha).isUnit
  refine inv_eq_right_inv ?_
  rw [smul_mul, Matrix.mul_smul, smul_smul, inv_mul_cancel₀ ha.ne', one_smul,
    mul_nonsing_inv _ hdet]

lemma posSemidef_gram (hR : R.PosDef) (S : Matrix m n ℝ) : (Sᵀ * R⁻¹ * S).PosSemidef :=
  hR.inv.posSemidef.conjTranspose_mul_mul_same S

variable [DecidableEq n]

/-- Its counterpart in ensemble space. -/
noncomputable def precision (R : Matrix m m ℝ) (S : Matrix m n ℝ) (a : ℝ) : Matrix n n ℝ :=
  a • 1 + Sᵀ * R⁻¹ * S

lemma posDef_precision (hR : R.PosDef) (ha : 0 < a) : (precision R S a).PosDef :=
  (PosDef.one.smul ha).add_posSemidef (posSemidef_gram hR S)

/-- **Push-through**: the inverse moves past the anomalies. -/
lemma push_through (hR : R.PosDef) (ha : 0 < a) :
    Sᵀ * (innovation R S a)⁻¹ = (precision R S a)⁻¹ * (Sᵀ * R⁻¹) := by
  have hinn := (Matrix.isUnit_iff_isUnit_det _).mp (posDef_innovation (S := S) hR ha).isUnit
  have hpre := (Matrix.isUnit_iff_isUnit_det _).mp (posDef_precision (S := S) hR ha).isUnit
  have hdet := (Matrix.isUnit_iff_isUnit_det _).mp hR.isUnit
  have hcomm : precision R S a * Sᵀ = Sᵀ * R⁻¹ * innovation R S a := by
    rw [precision, innovation, Matrix.add_mul, Matrix.mul_add, smul_mul, Matrix.one_mul,
      Matrix.mul_smul, Matrix.mul_assoc Sᵀ R⁻¹ R, nonsing_inv_mul R hdet, Matrix.mul_one]
    simp only [Matrix.mul_assoc]
  calc Sᵀ * (innovation R S a)⁻¹
      = (precision R S a)⁻¹ * (precision R S a * Sᵀ) * (innovation R S a)⁻¹ := by
        rw [← Matrix.mul_assoc, nonsing_inv_mul _ hpre, Matrix.one_mul]
    _ = (precision R S a)⁻¹ * (Sᵀ * R⁻¹) * (innovation R S a * (innovation R S a)⁻¹) := by
        rw [hcomm]
        simp only [Matrix.mul_assoc]
    _ = (precision R S a)⁻¹ * (Sᵀ * R⁻¹) := by rw [mul_nonsing_inv _ hinn, Matrix.mul_one]

/-- Two weights give the same ensemble weights only where the anomalies do not meet the
innovation. -/
lemma weights_eq_iff (hR : R.PosDef) (ha : 0 < a) (hb : 0 < b) (e : m → ℝ) :
    Sᵀ *ᵥ ((innovation R S a)⁻¹ *ᵥ e) = Sᵀ *ᵥ ((innovation R S b)⁻¹ *ᵥ e) ↔
      a = b ∨ Sᵀ *ᵥ (R⁻¹ *ᵥ e) = 0 := by
  -- on the smaller side the gain is one solve with `precision`
  have hpush : ∀ {c : ℝ}, 0 < c → Sᵀ *ᵥ ((innovation R S c)⁻¹ *ᵥ e) =
      (precision R S c)⁻¹ *ᵥ (Sᵀ *ᵥ (R⁻¹ *ᵥ e)) := by
    intro c hc
    rw [mulVec_mulVec, push_through hR hc, ← mulVec_mulVec, ← mulVec_mulVec]
  have hsolve : ∀ {c : ℝ} {v u : n → ℝ}, 0 < c → (precision R S c)⁻¹ *ᵥ u = v →
      c • v + (Sᵀ * R⁻¹ * S) *ᵥ v = u := by
    rintro c _ u hc rfl
    have hpre := (Matrix.isUnit_iff_isUnit_det _).mp (posDef_precision (S := S) hR hc).isUnit
    calc _ = precision R S c *ᵥ ((precision R S c)⁻¹ *ᵥ u) := by
          rw [precision, add_mulVec, smul_mulVec, one_mulVec]
      _ = u := by rw [mulVec_mulVec, mul_nonsing_inv _ hpre, one_mulVec]
  rw [hpush ha, hpush hb]
  constructor
  · intro h
    -- one vector `v` solves both, so `(a - b) v` vanishes
    set v := (precision R S b)⁻¹ *ᵥ (Sᵀ *ᵥ (R⁻¹ *ᵥ e)) with hv
    have hva := hsolve ha h
    have hvb := hsolve hb hv.symm
    have hab : (a - b) • v = 0 := by
      rw [sub_smul, sub_eq_zero]
      exact add_right_cancel (hva.trans hvb.symm)
    rcases smul_eq_zero.mp hab with hab | hzero
    · exact Or.inl (sub_eq_zero.mp hab)
    · right
      rw [← hvb, hzero, smul_zero, mulVec_zero, add_zero]
  · rintro (rfl | hzero)
    · rfl
    · rw [hzero, mulVec_zero, mulVec_zero]

/-- Two weights give the same increment only there. -/
theorem increment_eq_iff (H : Matrix m l ℝ) (A : Matrix l n ℝ) (hR : R.PosDef) (ha : 0 < a)
    (hb : 0 < b) (e : m → ℝ) :
    A *ᵥ ((H * A)ᵀ *ᵥ ((innovation R (H * A) a)⁻¹ *ᵥ e)) =
        A *ᵥ ((H * A)ᵀ *ᵥ ((innovation R (H * A) b)⁻¹ *ᵥ e)) ↔
      a = b ∨ (H * A)ᵀ *ᵥ (R⁻¹ *ᵥ e) = 0 :=
  (mulVec_transpose_inj H A _ _).trans (weights_eq_iff hR ha hb e)

/-! ### The gain in parts -/

/-- The inverse is strictly antitone. -/
lemma posDef_inv_sub_inv {A D : Matrix m m ℝ} (hA : A.PosDef) (hD : D.PosDef) :
    (A⁻¹ - (A + D)⁻¹).PosDef := by
  have hB : (A + D).PosDef := hA.add hD
  have hdetA := (Matrix.isUnit_iff_isUnit_det _).mp hA.isUnit
  have hdetB := (Matrix.isUnit_iff_isUnit_det _).mp hB.isUnit
  set B := A + D with hBdef
  have hD' : D = B - A := by rw [hBdef, add_sub_cancel_left]
  have hsub : A⁻¹ - B⁻¹ = B⁻¹ * D * A⁻¹ := by
    rw [hD', Matrix.mul_sub, nonsing_inv_mul _ hdetB, Matrix.sub_mul, Matrix.one_mul,
      Matrix.mul_assoc, mul_nonsing_inv _ hdetA, Matrix.mul_one]
  -- two congruences: one of `D`, and one of `D A⁻¹ D`
  have hsplit : A⁻¹ - B⁻¹ = B⁻¹ * D * B⁻¹ + B⁻¹ * (D * A⁻¹ * D) * B⁻¹ := by
    calc A⁻¹ - B⁻¹ = B⁻¹ * D * (A⁻¹ * (A + D)) * B⁻¹ := by
          rw [hsub, Matrix.mul_assoc _ _ B⁻¹, Matrix.mul_assoc A⁻¹, ← hBdef,
            mul_nonsing_inv _ hdetB, Matrix.mul_one]
      _ = B⁻¹ * D * B⁻¹ + B⁻¹ * (D * A⁻¹ * D) * B⁻¹ := by
          rw [Matrix.mul_add, nonsing_inv_mul _ hdetA, Matrix.mul_add, Matrix.mul_one,
            Matrix.add_mul]
          simp only [Matrix.mul_assoc]
  have hsymm : (B⁻¹)ᴴ = B⁻¹ := hB.inv.isHermitian
  have hinj : Function.Injective (B⁻¹).mulVec := by
    refine Function.LeftInverse.injective (g := B.mulVec) fun x => ?_
    rw [mulVec_mulVec, mul_nonsing_inv _ hdetB, one_mulVec]
  have hfirst : (B⁻¹ * D * B⁻¹).PosDef := by
    have h := hD.conjTranspose_mul_mul_same hinj
    rwa [hsymm] at h
  have hsecond : (B⁻¹ * (D * A⁻¹ * D) * B⁻¹).PosSemidef := by
    have h := (hA.inv.posSemidef.conjTranspose_mul_mul_same D).conjTranspose_mul_mul_same B⁻¹
    rwa [hsymm, show Dᴴ = D from hD.isHermitian] at h
  rw [hsplit]
  exact hfirst.add_posSemidef hsecond

omit [DecidableEq m] [DecidableEq n] in
/-- The trace of a form along anomalies vanishes only for no anomalies. -/
lemma trace_gram_nonneg {D : Matrix m m ℝ} (hD : D.PosDef) (S : Matrix m n ℝ) :
    0 ≤ (Sᵀ * D * S).trace ∧ ((Sᵀ * D * S).trace = 0 → S = 0) := by
  have hdiag : ∀ k, (Sᵀ * D * S) k k = S.col k ⬝ᵥ D *ᵥ S.col k := by
    intro k
    rw [Matrix.mul_assoc, mul_apply', dotProduct_comm, dotProduct_comm]
    rfl
  have hnonneg : ∀ k, 0 ≤ (Sᵀ * D * S) k k := fun k =>
    (hdiag k).symm ▸ hD.posSemidef.dotProduct_mulVec_nonneg (S.col k)
  refine ⟨Finset.sum_nonneg fun k _ => hnonneg k, fun h => ?_⟩
  have hzero := (Finset.sum_eq_zero_iff_of_nonneg fun k _ => hnonneg k).mp h
  ext i k
  by_contra hne
  have hcol : S.col k ≠ 0 := fun h => hne (congrFun h i)
  exact (hD.dotProduct_mulVec_pos hcol).ne' ((hdiag k).symm.trans (hzero k (Finset.mem_univ k)))

section Parts

variable {ρ : Type*} [Fintype ρ] {κ : ρ → Type*}

/-- The parts next to each other. -/
def stack {α : Type*} (A : ∀ r, Matrix l (κ r) α) : Matrix l (Σ r, κ r) α :=
  of fun i k => A k.1 i k.2

omit [DecidableEq m] [DecidableEq n] [Fintype m] [Fintype n] [Fintype ρ] in
lemma mul_stack (H : Matrix m l ℝ) (A : ∀ r, Matrix l (κ r) ℝ) :
    H * stack A = stack fun r => H * A r := rfl

variable [∀ r, Fintype (κ r)]

omit [DecidableEq m] [DecidableEq n] [Fintype l] [Fintype m] [Fintype n] in
lemma stack_mul_transpose (A : ∀ r, Matrix l (κ r) ℝ) (B : ∀ r, Matrix m (κ r) ℝ) :
    stack A * (stack B)ᵀ = ∑ r, A r * (B r)ᵀ := by
  ext i j
  rw [mul_apply, Matrix.sum_apply, Fintype.sum_sigma]
  rfl

/-- **The gains of the parts** add up to the gain of all only where nothing is observed. -/
theorem sum_gain_eq_iff (H : Matrix m l ℝ) (A : ∀ r, Matrix l (κ r) ℝ) (hR : R.PosDef)
    {w : ρ → ℝ} {c : ℝ} (hw : ∀ r, 0 < w r) (hc : ∀ r, w r < c) :
    ∑ r, A r * (H * A r)ᵀ * (innovation R (H * A r) (w r))⁻¹ =
        stack A * (H * stack A)ᵀ * (innovation R (H * stack A) c)⁻¹ ↔
      ∀ r, H * A r = 0 := by
  rw [mul_stack, stack_mul_transpose, Matrix.sum_mul]
  generalize hS : (fun r => H * A r) = S
  have hobs : ∀ r, H * A r = S r := fun r => congrFun hS r
  simp only [hobs]
  constructor
  · intro h
    -- each part has the larger inverse, by the errors and the other parts
    have hpos : ∀ r, ((innovation R (S r) (w r))⁻¹ - (innovation R (stack S) c)⁻¹).PosDef := by
      classical
      intro r
      have hrest : ((c - w r) • R + ∑ s ∈ Finset.univ.erase r, S s * (S s)ᵀ).PosDef :=
        (hR.smul (sub_pos.mpr (hc r))).add_posSemidef
          (posSemidef_sum _ fun s _ => posSemidef_self_mul_conjTranspose (S s))
      have hsplit : innovation R (stack S) c = innovation R (S r) (w r) +
          ((c - w r) • R + ∑ s ∈ Finset.univ.erase r, S s * (S s)ᵀ) := by
        rw [innovation, innovation, stack_mul_transpose,
          ← Finset.add_sum_erase _ _ (Finset.mem_univ r), sub_smul]
        abel
      rw [hsplit]
      exact posDef_inv_sub_inv (posDef_innovation hR (hw r)) hrest
    have htrace : ∑ r, ((S r)ᵀ *
        ((innovation R (S r) (w r))⁻¹ - (innovation R (stack S) c)⁻¹) * S r).trace = 0 := by
      have hgain := congrArg (fun G => (H * G).trace) h
      simp only [Matrix.mul_sum, trace_sum, ← Matrix.mul_assoc, hobs] at hgain
      rw [← sub_eq_zero.mpr hgain, ← Finset.sum_sub_distrib]
      refine Finset.sum_congr rfl fun r _ => ?_
      rw [Matrix.trace_mul_comm, ← Matrix.mul_assoc, Matrix.mul_sub, trace_sub]
    have hzero := (Finset.sum_eq_zero_iff_of_nonneg
      fun r _ => (trace_gram_nonneg (hpos r) (S r)).1).mp htrace
    exact fun r => (trace_gram_nonneg (hpos r) (S r)).2 (hzero r (Finset.mem_univ r))
  · intro h
    refine Finset.sum_congr rfl fun r _ => ?_
    rw [h r, transpose_zero, Matrix.mul_zero, Matrix.zero_mul, Matrix.zero_mul]

end Parts

end Gain
