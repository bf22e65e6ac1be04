import Mathlib.Algebra.Order.Star.Real
import Mathlib.LinearAlgebra.Matrix.NonsingularInverse
import Mathlib.LinearAlgebra.Matrix.PosDef
import Mathlib.Tactic.Abel

/-!
The covariance of the Kalman filter, in the Loewner order.

An observation with operator `h` and positive definite error covariance `r` takes the
covariance `p` to `update h r p`. Any other gain gives a larger covariance
(`update_below_joseph`), so the update is monotone (`update_mono`), although it is not linear.
The update that moves the anomalies with half of the gain (`halfUpdate`) is larger than the
update (`update_below_halfUpdate`), and with the two facts so is every sequence of predictions
and such updates (`Below.observe`).
-/

namespace Kalman

open Matrix

variable {n m : Type*}

/-- The order of covariances. -/
def Below (p q : Matrix n n ℝ) : Prop := (q - p).PosSemidef

lemma Below.refl (p : Matrix n n ℝ) : Below p p := by
  rw [Below, sub_self]
  exact PosSemidef.zero

lemma Below.trans {p q s : Matrix n n ℝ} (hpq : Below p q) (hqs : Below q s) : Below p s := by
  have hsum := hqs.add hpq
  rwa [sub_add_sub_cancel] at hsum

lemma Below.posSemidef {p q : Matrix n n ℝ} (hp : p.PosSemidef) (hpq : Below p q) :
    q.PosSemidef := by
  have hsum := hpq.add hp
  rwa [sub_add_cancel] at hsum

variable [Fintype n]

/-- Predictions keep the order. -/
lemma Below.predict {p q : Matrix n n ℝ} (hpq : Below p q) (a : Matrix n n ℝ) :
    Below (a * p * aᵀ) (a * q * aᵀ) := by
  have hmul := hpq.mul_mul_conjTranspose_same a
  rwa [Matrix.mul_sub, Matrix.sub_mul] at hmul

variable [Fintype m] [DecidableEq m]

/-- The covariance of the innovation. -/
def innovation (h : Matrix m n ℝ) (r : Matrix m m ℝ) (p : Matrix n n ℝ) : Matrix m m ℝ :=
  h * p * hᵀ + r

/-- The Kalman gain. -/
noncomputable def gain (h : Matrix m n ℝ) (r : Matrix m m ℝ) (p : Matrix n n ℝ) :
    Matrix n m ℝ :=
  p * hᵀ * (innovation h r p)⁻¹

variable {h : Matrix m n ℝ} {r : Matrix m m ℝ} {k : Matrix n m ℝ} {p q : Matrix n n ℝ}

omit [DecidableEq m] in
lemma posDef_innovation (hr : r.PosDef) (hp : p.PosSemidef) : (innovation h r p).PosDef :=
  hr.posSemidef_add (hp.mul_mul_conjTranspose_same h)

lemma isUnit_innovation (hr : r.PosDef) (hp : p.PosSemidef) :
    IsUnit (innovation h r p).det :=
  (Matrix.isUnit_iff_isUnit_det _).mp (posDef_innovation hr hp).isUnit

/-- The gain solves the normal equation. -/
lemma gain_mul_innovation (hr : r.PosDef) (hp : p.PosSemidef) :
    gain h r p * innovation h r p = p * hᵀ := by
  rw [gain, Matrix.mul_assoc, nonsing_inv_mul _ (isUnit_innovation hr hp), Matrix.mul_one]

lemma innovation_mul_gain (hr : r.PosDef) (hp : p.PosSemidef) :
    innovation h r p * (gain h r p)ᵀ = h * p := by
  have hpt : pᵀ = p := hp.isHermitian
  have hst : (innovation h r p)ᵀ = innovation h r p := (posDef_innovation hr hp).isHermitian
  have hg := congrArg transpose (gain_mul_innovation (h := h) hr hp)
  rwa [transpose_mul, transpose_mul, hst, transpose_transpose, hpt] at hg

/-- The two cross terms are the same. -/
lemma cross_gain (hr : r.PosDef) (hp : p.PosSemidef) :
    p * hᵀ * (gain h r p)ᵀ = gain h r p * (h * p) := by
  rw [← gain_mul_innovation hr hp, Matrix.mul_assoc, innovation_mul_gain hr hp]

variable [DecidableEq n]

/-- The covariance after an update with the gain `k`. -/
def joseph (h : Matrix m n ℝ) (r : Matrix m m ℝ) (k : Matrix n m ℝ) (p : Matrix n n ℝ) :
    Matrix n n ℝ :=
  (1 - k * h) * p * (1 - k * h)ᵀ + k * r * kᵀ

/-- The covariance after the update of the Kalman filter. -/
noncomputable def update (h : Matrix m n ℝ) (r : Matrix m m ℝ) (p : Matrix n n ℝ) :
    Matrix n n ℝ :=
  (1 - gain h r p * h) * p

/-- The covariance after the anomalies are moved with half of the gain. -/
noncomputable def halfUpdate (h : Matrix m n ℝ) (r : Matrix m m ℝ) (p : Matrix n n ℝ) :
    Matrix n n ℝ :=
  (1 - ((2 : ℕ) : ℝ)⁻¹ • gain h r p * h) * p * (1 - ((2 : ℕ) : ℝ)⁻¹ • gain h r p * h)ᵀ

/-- **Completing the square**: what a gain costs against the Kalman gain. -/
lemma joseph_eq (hr : r.PosDef) (hp : p.PosSemidef) (k : Matrix n m ℝ) :
    joseph h r k p = update h r p +
      (k - gain h r p) * innovation h r p * (k - gain h r p)ᵀ := by
  have hjoseph : joseph h r k p =
      p - k * (h * p) - p * hᵀ * kᵀ + k * innovation h r p * kᵀ := by
    simp only [joseph, innovation, transpose_sub, transpose_one, transpose_mul, Matrix.sub_mul,
      Matrix.mul_sub, Matrix.one_mul, Matrix.mul_one, Matrix.mul_add, Matrix.add_mul,
      Matrix.mul_assoc]
    abel
  have hsquare : (k - gain h r p) * innovation h r p * (k - gain h r p)ᵀ =
      k * innovation h r p * kᵀ - k * (h * p) - p * hᵀ * kᵀ + gain h r p * (h * p) := by
    rw [transpose_sub, Matrix.mul_sub, Matrix.sub_mul, gain_mul_innovation hr hp,
      Matrix.sub_mul, Matrix.sub_mul, Matrix.mul_assoc k _ (gain h r p)ᵀ,
      innovation_mul_gain hr hp, cross_gain hr hp]
    abel
  rw [hjoseph, hsquare, update, Matrix.sub_mul, Matrix.one_mul, Matrix.mul_assoc (gain h r p)]
  abel

/-- **The Kalman gain is the best.** -/
lemma update_below_joseph (hr : r.PosDef) (hp : p.PosSemidef) (k : Matrix n m ℝ) :
    Below (update h r p) (joseph h r k p) := by
  rw [Below, joseph_eq hr hp, add_sub_cancel_left]
  exact (posDef_innovation hr hp).posSemidef.mul_mul_conjTranspose_same _

/-- An update takes away. -/
lemma update_below (hr : r.PosDef) (hp : p.PosSemidef) : Below (update h r p) p := by
  have hzero : joseph h r 0 p = p := by
    rw [joseph, Matrix.zero_mul, Matrix.zero_mul, Matrix.zero_mul, add_zero, sub_zero,
      transpose_one, Matrix.one_mul, Matrix.mul_one]
  have hbelow := update_below_joseph (h := h) hr hp 0
  rwa [hzero] at hbelow

omit [DecidableEq m] in
/-- A fixed gain keeps the order. -/
lemma Below.joseph (hpq : Below p q) (k : Matrix n m ℝ) :
    Below (joseph h r k p) (joseph h r k q) := by
  have hpred := hpq.predict (1 - k * h)
  rwa [Below, Kalman.joseph, Kalman.joseph, add_sub_add_right_eq_sub]

/-- The covariance of the update with the Kalman gain. -/
lemma joseph_gain (hr : r.PosDef) (hp : p.PosSemidef) :
    joseph h r (gain h r p) p = update h r p := by
  rw [joseph_eq hr hp, sub_self, transpose_zero, Matrix.mul_zero, add_zero]

lemma posSemidef_update (hr : r.PosDef) (hp : p.PosSemidef) : (update h r p).PosSemidef := by
  rw [← joseph_gain hr hp]
  exact (hp.mul_mul_conjTranspose_same _).add (hr.posSemidef.mul_mul_conjTranspose_same _)

/-- **Monotonicity** of the update: the gain for the larger covariance will do for the smaller
one. -/
theorem update_mono (hr : r.PosDef) (hp : p.PosSemidef) (hpq : Below p q) :
    Below (update h r p) (update h r q) := by
  rw [← joseph_gain hr (hpq.posSemidef hp)]
  exact (update_below_joseph hr hp _).trans (hpq.joseph _)

/-- What half of the gain leaves. -/
lemma halfUpdate_eq (hr : r.PosDef) (hp : p.PosSemidef) : halfUpdate h r p = update h r p +
    (1 / 4 : ℝ) • (gain h r p * (h * p * hᵀ) * (gain h r p)ᵀ) := by
  have hexpand : halfUpdate h r p = p - (1 / 2 : ℝ) • (gain h r p * (h * p)) -
      (1 / 2 : ℝ) • (p * hᵀ * (gain h r p)ᵀ) +
        (1 / 4 : ℝ) • (gain h r p * (h * p * hᵀ) * (gain h r p)ᵀ) := by
    have hquarter : (1 / 4 : ℝ) = 1 / 2 * (1 / 2) := by norm_num
    rw [hquarter, ← smul_smul]
    simp only [halfUpdate, Nat.cast_two, ← one_div, transpose_sub, transpose_one, transpose_smul,
      transpose_mul, Matrix.sub_mul, Matrix.mul_sub, Matrix.one_mul, Matrix.mul_one,
      Matrix.smul_mul, Matrix.mul_smul, Matrix.mul_assoc, smul_sub]
    abel
  have hhalf : (1 / 2 : ℝ) • (gain h r p * (h * p)) + (1 / 2 : ℝ) • (gain h r p * (h * p)) =
      gain h r p * (h * p) := by
    rw [← add_smul, add_halves, one_smul]
  rw [hexpand, cross_gain hr hp, sub_sub, hhalf, update, Matrix.sub_mul, Matrix.one_mul,
    Matrix.mul_assoc (gain h r p) h p]

/-- Half of the gain leaves more than the whole. -/
theorem update_below_halfUpdate (hr : r.PosDef) (hp : p.PosSemidef) :
    Below (update h r p) (halfUpdate h r p) := by
  rw [Below, halfUpdate_eq hr hp, add_sub_cancel_left]
  exact ((hp.mul_mul_conjTranspose_same h).mul_mul_conjTranspose_same _).smul (by norm_num)

/-- An observation keeps the order of the Kalman filter against the update with half of the
gain. -/
theorem Below.observe (hr : r.PosDef) (hp : p.PosSemidef) (hpq : Below p q) :
    Below (update h r p) (halfUpdate h r q) :=
  (update_mono hr hp hpq).trans (update_below_halfUpdate hr (hpq.posSemidef hp))

end Kalman
