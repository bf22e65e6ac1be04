import Icesee.Lib.RealFourier
import Mathlib.Algebra.BigOperators.Field
import Mathlib.Data.Nat.Dist
import Mathlib.LinearAlgebra.Matrix.Notation

/-!
Samples with an exponential covariance on a ring.

`sample_periodic_exp_cov` draws normal numbers, scales the modes of the sample by the
eigenvalues of the covariance, and transforms back. The sample is a linear image of the
draws (`samplePeriodicExpCov_eq`), whose covariance has every mode that is neither the first
nor at `n / 2` twice (`mixing_mul_transpose`), since its real and its imaginary part have
unit variance each. So the covariance is the one of the docstring only where there is no
such mode (`hasStatedCovariance_iff`).
-/

namespace Icesee

open Finset RealFourier Matrix

/-- What the noise generators raise. -/
inductive NoiseError where
  | valueError (message : String)
  | typeError
  | indexError
  | unboundLocalError (name : String)
  deriving DecidableEq, Repr

namespace PeriodicExpCov

variable (n : ℕ) (sigma2 Lx : ℝ)

/-- `c`, the first row of the circulant covariance. -/
noncomputable def firstRow (k : ℕ) : ℝ := sigma2 * Real.exp (-(min k (n - k) : ℕ) / Lx)

/-- `lam`, the real parts of `np.fft.rfft(c)`. -/
noncomputable def eigenvalues (k : ℕ) : ℝ := (rfft n (firstRow n sigma2 Lx) k).re

/-- `lam` after `lam[lam < 0] = 0.0`. -/
noncomputable def lam (k : ℕ) : ℝ :=
  if eigenvalues n sigma2 Lx k < 0 then 0 else eigenvalues n sigma2 Lx k

/-- `m`, the length of `lam`. -/
def modes : ℕ := n / 2 + 1

/-- `mid`, the number of the complex modes. -/
def mid : ℕ := if n % 2 = 0 then modes n - 2 else modes n - 1

/-- The draws of the first mode and, for even `n`, of the last one come first. -/
def realDraws : ℕ := if n % 2 = 0 then 2 else 1

/-- The mode is `z[0]`, or `z[-1]` for even `n`. -/
def IsRealMode (k : ℕ) : Prop := k = 0 ∨ (n % 2 = 0 ∧ k + 1 = modes n)

instance (k : ℕ) : Decidable (IsRealMode n k) := by unfold IsRealMode; infer_instance

/-- The draw that becomes the real part of a mode. -/
def reDraw (k : ℕ) : ℕ :=
  if k = 0 then 0 else if n % 2 = 0 ∧ k + 1 = modes n then 1 else realDraws n + (k - 1)

/-- The draw that becomes the imaginary part of a complex mode. -/
def imDraw (k : ℕ) : ℕ := realDraws n + mid n + (k - 1)

/-- `z`, from the draws in the order in which they are made. -/
noncomputable def normals (draw : ℕ → ℝ) (k : ℕ) : ℂ :=
  if IsRealMode n k then draw (reDraw n k)
  else draw (reDraw n k) + Complex.I * draw (imDraw n k)

/-- `z *= np.sqrt(lam * n)`. -/
noncomputable def scaled (draw : ℕ → ℝ) (k : ℕ) : ℂ :=
  normals n draw k * √(lam n sigma2 Lx k * n)

end PeriodicExpCov

open PeriodicExpCov

/-- `sample_periodic_exp_cov`, for the draws of `rng`; comparing `None` is a `TypeError`. -/
noncomputable def samplePeriodicExpCov (hdim : ℕ) (sigma2 : ℝ) (Lx : Option ℝ) (draw : ℕ → ℝ) :
    Except NoiseError (List ℝ) :=
  if hdim = 0 then .error (.valueError "hdim must be positive")
  else
    match Lx with
    | none => .error .typeError
    | some Lx =>
      if Lx ≤ 0 then .error (.valueError "Lx must be > 0")
      else if sigma2 < 0 then .error (.valueError "sigma2 must be >= 0")
      else .ok (List.ofFn fun j : Fin hdim => irfft hdim (scaled hdim sigma2 Lx draw) j)

namespace PeriodicExpCov

/-- `d(i,j) = min(|i-j|, hdim-|i-j|)`. -/
def ringDist (n i j : ℕ) : ℕ := min (Nat.dist i j) (n - Nat.dist i j)

/-- `C` of the docstring. -/
noncomputable def covariance (n : ℕ) (sigma2 Lx : ℝ) : Matrix (Fin n) (Fin n) ℝ :=
  of fun i j => sigma2 * Real.exp (-(ringDist n i j : ℕ) / Lx)

/-- The sample is a linear image of the draws, by a matrix with `M Mᵀ = C`. -/
def HasStatedCovariance (n : ℕ) (sigma2 Lx : ℝ) : Prop :=
  ∃ M : Matrix (Fin n) (Fin n) ℝ,
    (∀ draw : ℕ → ℝ, samplePeriodicExpCov n sigma2 (some Lx) draw =
      .ok (List.ofFn (M *ᵥ fun l : Fin n => draw l))) ∧
    M * Mᵀ = covariance n sigma2 Lx

/-! ### The draws and the modes -/

section Draws

variable (n : ℕ)

/-- The mode that a draw is for. -/
def modeOf (l : ℕ) : ℕ :=
  if l < realDraws n + mid n then
    if l = 0 then 0 else if l < realDraws n then n / 2 else l - realDraws n + 1
  else l - realDraws n - mid n + 1

variable {n}

lemma isRealMode_iff (hn : 0 < n) {k : ℕ} : IsRealMode n k ↔ k = 0 ∨ k + k = n := by
  simp only [IsRealMode, modes]
  omega

/-- The numbers of real and of complex modes, by the parity of `n`. -/
lemma realDraws_mid (n : ℕ) :
    (n % 2 = 0 ∧ realDraws n = 2 ∧ mid n = n / 2 - 1) ∨
      (n % 2 = 1 ∧ realDraws n = 1 ∧ mid n = n / 2) := by
  rw [realDraws, mid, modes]
  rcases Nat.mod_two_eq_zero_or_one n with h | h
  · rw [if_pos h, if_pos h]
    exact Or.inl ⟨h, rfl, by omega⟩
  · rw [if_neg (by omega), if_neg (by omega)]
    exact Or.inr ⟨h, rfl, by omega⟩

lemma realDraws_add_mid (hn : 0 < n) : realDraws n + mid n + mid n = n := by
  rcases realDraws_mid n with ⟨hpar, hr, hm⟩ | ⟨hpar, hr, hm⟩ <;> omega

/-- The draws of the real parts come before those of the imaginary parts. -/
lemma reDraw_lt (hn : 0 < n) {k : ℕ} (hk : k < n / 2 + 1) :
    reDraw n k < realDraws n + mid n := by
  rw [reDraw, modes]
  rcases realDraws_mid n with ⟨hpar, hr, hm⟩ | ⟨hpar, hr, hm⟩ <;>
    (rw [hr, hm]; split_ifs <;> omega)

lemma modeOf_reDraw (hn : 0 < n) {k : ℕ} (hk : k < n / 2 + 1) : modeOf n (reDraw n k) = k := by
  rw [modeOf, if_pos (reDraw_lt hn hk), reDraw, modes]
  rcases realDraws_mid n with ⟨hpar, hr, hm⟩ | ⟨hpar, hr, hm⟩ <;>
    (rw [hr]; split_ifs <;> first | contradiction | omega)

lemma modeOf_imDraw {k : ℕ} (hk : 0 < k) : modeOf n (imDraw n k) = k := by
  rw [modeOf, imDraw, if_neg (by omega)]
  omega

lemma reDraw_modeOf (hn : 0 < n) {l : ℕ} (hl : l < realDraws n + mid n) :
    reDraw n (modeOf n l) = l := by
  rw [modeOf, if_pos hl, reDraw, modes]
  rcases realDraws_mid n with ⟨hpar, hr, hm⟩ | ⟨hpar, hr, hm⟩ <;>
    (rw [hr, hm] at hl; rw [hr]; split_ifs <;> first | contradiction | omega)

lemma imDraw_modeOf {l : ℕ} (hl : realDraws n + mid n ≤ l) : imDraw n (modeOf n l) = l := by
  rw [modeOf, if_neg (by omega), imDraw]
  omega

lemma modeOf_lt (hn : 0 < n) {l : ℕ} (hl : l < n) : modeOf n l < n / 2 + 1 := by
  rw [modeOf]
  rcases realDraws_mid n with ⟨hpar, hr, hm⟩ | ⟨hpar, hr, hm⟩ <;> (split_ifs <;> omega)

/-- Every draw is used once. -/
lemma sum_draws (hn : 0 < n) (g : ℕ → ℝ) :
    ∑ l ∈ range n, g l = ∑ k ∈ range (n / 2 + 1),
      (g (reDraw n k) + if IsRealMode n k then 0 else g (imDraw n k)) := by
  -- the draws before `realDraws + mid` are the real parts, in the order of the modes
  have hre : ∑ l ∈ range n with l < realDraws n + mid n, g l =
      ∑ k ∈ range (n / 2 + 1), g (reDraw n k) := by
    refine (sum_nbij' (reDraw n) (modeOf n) ?_ ?_ ?_ ?_ ?_).symm
    · intro k hk
      have hlt := reDraw_lt hn (mem_range.mp hk)
      have hlen := realDraws_add_mid hn
      exact mem_filter.mpr ⟨mem_range.mpr (by omega), hlt⟩
    · intro l hl
      exact mem_range.mpr (modeOf_lt hn (mem_range.mp (mem_filter.mp hl).1))
    · intro k hk
      exact modeOf_reDraw hn (mem_range.mp hk)
    · intro l hl
      exact reDraw_modeOf hn (mem_filter.mp hl).2
    · exact fun _ _ => rfl
  -- the draws behind are the imaginary parts of the modes that have one
  have him : ∑ l ∈ range n with ¬l < realDraws n + mid n, g l =
      ∑ k ∈ range (n / 2 + 1) with ¬IsRealMode n k, g (imDraw n k) := by
    refine (sum_nbij' (imDraw n) (modeOf n) ?_ ?_ ?_ ?_ ?_).symm
    · intro k hk
      simp only [mem_filter, mem_range, isRealMode_iff hn] at hk ⊢
      rw [imDraw]
      rcases realDraws_mid n with ⟨hpar, hr, hm⟩ | ⟨hpar, hr, hm⟩ <;> omega
    · intro l hl
      simp only [mem_filter, mem_range, isRealMode_iff hn] at hl ⊢
      rw [modeOf, if_neg hl.2]
      rcases realDraws_mid n with ⟨hpar, hr, hm⟩ | ⟨hpar, hr, hm⟩ <;> omega
    · intro k hk
      exact modeOf_imDraw (Nat.pos_of_ne_zero fun h => (mem_filter.mp hk).2 (Or.inl h))
    · intro l hl
      exact imDraw_modeOf (not_lt.mp (mem_filter.mp hl).2)
    · exact fun _ _ => rfl
  rw [← sum_filter_add_sum_filter_not (range n) (· < realDraws n + mid n), hre, him, sum_filter,
    ← sum_add_distrib]
  simp only [ite_not]

end Draws

/-! ### The sample as a linear image -/

section Mixing

variable {n : ℕ} {sigma2 Lx : ℝ}

lemma lam_nonneg (k : ℕ) : 0 ≤ lam n sigma2 Lx k := by
  rw [lam]
  split
  · exact le_rfl
  · exact not_lt.mp ‹_›

lemma eigenvalues_le_lam (k : ℕ) : eigenvalues n sigma2 Lx k ≤ lam n sigma2 Lx k := by
  rw [lam]
  split
  · exact le_of_lt ‹_›
  · exact le_rfl

lemma lam_of_nonneg {k : ℕ} (h : 0 ≤ eigenvalues n sigma2 Lx k) :
    lam n sigma2 Lx k = eigenvalues n sigma2 Lx k := if_neg h.not_gt

variable (n sigma2 Lx)

/-- What mode `k` does to its draws. -/
noncomputable def amplitude (k : ℕ) : ℝ := weight n k * √(lam n sigma2 Lx k * n) / n

/-- The draws of the real parts go with a cosine, those of the imaginary parts with a sine. -/
noncomputable def mixingEntry (j l : ℕ) : ℝ :=
  if l < realDraws n + mid n then
    amplitude n sigma2 Lx (modeOf n l) * Real.cos (angle n (modeOf n l) j)
  else -(amplitude n sigma2 Lx (modeOf n l) * Real.sin (angle n (modeOf n l) j))

noncomputable def mixing : Matrix (Fin n) (Fin n) ℝ := of fun j l => mixingEntry n sigma2 Lx j l

variable {n sigma2 Lx}

lemma mixingEntry_reDraw (hn : 0 < n) {k : ℕ} (hk : k < n / 2 + 1) (j : ℕ) :
    mixingEntry n sigma2 Lx j (reDraw n k) =
      amplitude n sigma2 Lx k * Real.cos (angle n k j) := by
  rw [mixingEntry, if_pos (reDraw_lt hn hk), modeOf_reDraw hn hk]

lemma mixingEntry_imDraw {k : ℕ} (hreal : ¬IsRealMode n k) (j : ℕ) :
    mixingEntry n sigma2 Lx j (imDraw n k) =
      -(amplitude n sigma2 Lx k * Real.sin (angle n k j)) := by
  have hpos : 0 < k := Nat.pos_of_ne_zero fun h => hreal (Or.inl h)
  have hge : ¬imDraw n k < realDraws n + mid n := by
    rw [imDraw]
    omega
  rw [mixingEntry, if_neg hge, modeOf_imDraw hpos]

lemma scaled_re (draw : ℕ → ℝ) (k : ℕ) :
    (scaled n sigma2 Lx draw k).re = draw (reDraw n k) * √(lam n sigma2 Lx k * n) := by
  rw [scaled, normals]
  split <;> simp

lemma scaled_im (draw : ℕ → ℝ) (k : ℕ) :
    (scaled n sigma2 Lx draw k).im =
      if IsRealMode n k then 0 else draw (imDraw n k) * √(lam n sigma2 Lx k * n) := by
  rw [scaled, normals]
  split <;> simp

/-- The sample is `mixing` times the draws. -/
lemma irfft_scaled (draw : ℕ → ℝ) (j : Fin n) :
    irfft n (scaled n sigma2 Lx draw) j = (mixing n sigma2 Lx *ᵥ fun l : Fin n => draw l) j := by
  have hn : 0 < n := Fin.pos j
  have hsum : (mixing n sigma2 Lx *ᵥ fun l : Fin n => draw l) j =
      ∑ l ∈ range n, mixingEntry n sigma2 Lx j l * draw l :=
    Fin.sum_univ_eq_sum_range (fun l => mixingEntry n sigma2 Lx j l * draw l) n
  rw [hsum, sum_draws hn, irfft_apply hn, sum_div]
  refine sum_congr rfl fun k hk => ?_
  rw [mixingEntry_reDraw hn (mem_range.mp hk), scaled_re, scaled_im]
  split
  · rw [amplitude]
    ring
  · rename_i hreal
    rw [mixingEntry_imDraw hreal, amplitude]
    ring

/-- `sample_periodic_exp_cov` is linear in the draws. -/
lemma samplePeriodicExpCov_eq (hn : 0 < n) (hsigma2 : 0 ≤ sigma2) (hLx : 0 < Lx)
    (draw : ℕ → ℝ) :
    samplePeriodicExpCov n sigma2 (some Lx) draw =
      .ok (List.ofFn (mixing n sigma2 Lx *ᵥ fun l : Fin n => draw l)) := by
  rw [samplePeriodicExpCov, if_neg hn.ne']
  simp only [if_neg hLx.not_ge, if_neg hsigma2.not_gt, irfft_scaled]

lemma samplePeriodicExpCov_none (hn : 0 < n) (draw : ℕ → ℝ) :
    samplePeriodicExpCov n sigma2 none draw = .error .typeError := by
  simp only [samplePeriodicExpCov, if_neg hn.ne']

/-- There is no other matrix. -/
lemma eq_mixing (hn : 0 < n) (hsigma2 : 0 ≤ sigma2) (hLx : 0 < Lx)
    {M : Matrix (Fin n) (Fin n) ℝ}
    (hM : ∀ draw : ℕ → ℝ, samplePeriodicExpCov n sigma2 (some Lx) draw =
      .ok (List.ofFn (M *ᵥ fun l : Fin n => draw l))) :
    M = mixing n sigma2 Lx := by
  refine Matrix.mulVec_injective (funext fun v => ?_)
  have h := (hM fun l => if hl : l < n then v ⟨l, hl⟩ else 0).symm.trans
    (samplePeriodicExpCov_eq hn hsigma2 hLx _)
  have hv : (fun l : Fin n => if hl : (l : ℕ) < n then v ⟨l, hl⟩ else 0) = v :=
    funext fun l => dif_pos l.2
  rw [hv] at h
  exact List.ofFn_injective (Except.ok.inj h)

/-! ### The covariance of the sample -/

/-- The sine of a real mode is zero. -/
lemma sin_angle_of_isRealMode (hn : 0 < n) {k : ℕ} (hk : IsRealMode n k) (j : ℕ) :
    Real.sin (angle n k j) = 0 := by
  rcases (isRealMode_iff hn).mp hk with rfl | hhalf
  · rw [angle_eq]
    simp
  · have hn' : (n : ℝ) ≠ 0 := Nat.cast_ne_zero.mpr hn.ne'
    have hk2 : (k : ℝ) + k = n := by exact_mod_cast hhalf
    have hangle : angle n k j = j * Real.pi := by
      rw [angle_eq, div_eq_iff hn', ← hk2]
      ring
    rw [hangle, Real.sin_nat_mul_pi]

lemma cos_angle_sub (k i j : ℕ) :
    Real.cos (angle n k i - angle n k j) = Real.cos (angle n k (Nat.dist i j)) := by
  rcases le_total i j with h | h
  · rw [Nat.dist_eq_sub_of_le h, ← Real.cos_neg, angle_eq, angle_eq, angle_eq, Nat.cast_sub h]
    ring_nf
  · rw [Nat.dist_eq_sub_of_le_right h, angle_eq, angle_eq, angle_eq, Nat.cast_sub h]
    ring_nf

lemma amplitude_sq (hn : 0 < n) (k : ℕ) :
    amplitude n sigma2 Lx k ^ 2 = weight n k ^ 2 * lam n sigma2 Lx k / n := by
  have hn' : (0 : ℝ) < n := Nat.cast_pos.mpr hn
  rw [amplitude, div_pow, mul_pow, Real.sq_sqrt (mul_nonneg (lam_nonneg k) hn'.le)]
  field_simp

/-- The covariance of the sample: the complex modes count four times. -/
lemma mixing_mul_transpose (i j : Fin n) :
    (mixing n sigma2 Lx * (mixing n sigma2 Lx)ᵀ) i j = (∑ k ∈ range (n / 2 + 1),
      weight n k ^ 2 * lam n sigma2 Lx k * Real.cos (angle n k (Nat.dist i j))) / n := by
  have hn : 0 < n := Fin.pos i
  have hsum : (mixing n sigma2 Lx * (mixing n sigma2 Lx)ᵀ) i j =
      ∑ l ∈ range n, mixingEntry n sigma2 Lx i l * mixingEntry n sigma2 Lx j l :=
    Fin.sum_univ_eq_sum_range
      (fun l => mixingEntry n sigma2 Lx i l * mixingEntry n sigma2 Lx j l) n
  rw [hsum, sum_draws hn, sum_div]
  refine sum_congr rfl fun k hk => ?_
  have hk' := mem_range.mp hk
  rw [mul_div_right_comm, ← amplitude_sq hn, ← cos_angle_sub, Real.cos_sub,
    mixingEntry_reDraw hn hk', mixingEntry_reDraw hn hk']
  split
  · rename_i hreal
    rw [sin_angle_of_isRealMode hn hreal]
    ring
  · rename_i hreal
    rw [mixingEntry_imDraw hreal, mixingEntry_imDraw hreal]
    ring

/-- The stated covariance: they count twice. -/
lemma covariance_apply (i j : Fin n) :
    covariance n sigma2 Lx i j = (∑ k ∈ range (n / 2 + 1),
      weight n k * eigenvalues n sigma2 Lx k * Real.cos (angle n k (Nat.dist i j))) / n := by
  have hn : 0 < n := Fin.pos i
  have hn' : (n : ℝ) ≠ 0 := Nat.cast_ne_zero.mpr hn.ne'
  have heven : ∀ k, 0 < k → k < n →
      firstRow n sigma2 Lx (n - k) = firstRow n sigma2 Lx k := by
    intro k _ hk
    rw [firstRow, firstRow, Nat.sub_sub_self hk.le, min_comm]
  have hdist : Nat.dist i j < n := by
    have := i.2
    have := j.2
    rw [Nat.dist]
    omega
  have hinv := sum_rfft_mul_cos heven hdist
  simp only [eigenvalues, mul_assoc]
  rw [hinv, mul_div_cancel_left₀ _ hn']
  rfl

/-! ### The eigenvalues -/

lemma eigenvalues_zero_nonneg (hsigma2 : 0 ≤ sigma2) : 0 ≤ eigenvalues n sigma2 Lx 0 := by
  rw [eigenvalues, rfft_re]
  refine sum_nonneg fun j _ => ?_
  rw [angle_eq, Nat.cast_zero, zero_mul, mul_zero, zero_div, Real.cos_zero, mul_one, firstRow]
  exact mul_nonneg hsigma2 (Real.exp_nonneg _)

lemma eigenvalues_one_pos (hn : 1 < n) (hsigma2 : 0 < sigma2) (hLx : 0 < Lx) :
    0 < eigenvalues n sigma2 Lx 1 := by
  have hexp : ∀ {a b : ℝ}, a ≤ b → Real.exp (-b / Lx) ≤ Real.exp (-a / Lx) := fun hab =>
    Real.exp_le_exp.mpr (div_le_div_of_nonneg_right (neg_le_neg hab) hLx.le)
  refine rfft_one_re_pos hn (fun d => sigma2 * Real.exp (-d / Lx))
    (fun a b hab => mul_le_mul_of_nonneg_left (hexp hab) hsigma2.le) ?_
  have hquarter : (0 : ℝ) < n / 4 := by
    have : (0 : ℝ) < n := Nat.cast_pos.mpr (Nat.zero_lt_of_lt hn)
    positivity
  refine mul_lt_mul_of_pos_left (Real.exp_lt_exp.mpr ?_) hsigma2
  exact div_lt_div_of_pos_right (neg_lt_neg hquarter) hLx

/-- Without variance there are no eigenvalues. -/
lemma eigenvalues_of_sigma2_eq_zero (k : ℕ) : eigenvalues n 0 Lx k = 0 := by
  simp [eigenvalues, rfft_re, firstRow]

/-- With two points or less no eigenvalue is negative, and every mode counts once. -/
lemma eigenvalues_nonneg_of_le_two (hle : n ≤ 2) (hsigma2 : 0 < sigma2) (hLx : 0 < Lx) {k : ℕ}
    (hk : k < n / 2 + 1) : 0 ≤ eigenvalues n sigma2 Lx k := by
  rcases Nat.eq_zero_or_pos k with rfl | hpos
  · exact eigenvalues_zero_nonneg hsigma2.le
  · obtain rfl : k = 1 := by omega
    exact (eigenvalues_one_pos (by omega) hsigma2 hLx).le

lemma weight_eq_one (hle : n ≤ 2) {k : ℕ} (hk : k < n / 2 + 1) : weight n k = 1 :=
  if_pos (by omega)

/-- Without complex modes the sample has the stated covariance. -/
lemma mixing_mul_transpose_eq (hsigma2 : 0 ≤ sigma2) (hLx : 0 < Lx) (h : sigma2 = 0 ∨ n ≤ 2) :
    mixing n sigma2 Lx * (mixing n sigma2 Lx)ᵀ = covariance n sigma2 Lx := by
  ext i j
  rw [mixing_mul_transpose, covariance_apply]
  refine congrArg (· / (n : ℝ)) (sum_congr rfl fun k hk => congrArg (· * _) ?_)
  rcases hsigma2.eq_or_lt with rfl | hpos
  · have hzero : eigenvalues n 0 Lx k = 0 := eigenvalues_of_sigma2_eq_zero k
    rw [lam_of_nonneg hzero.ge, hzero, mul_zero, mul_zero]
  · have hle : n ≤ 2 := h.resolve_left hpos.ne'
    have hk' := mem_range.mp hk
    rw [weight_eq_one hle hk', Nat.cast_one, one_pow,
      lam_of_nonneg (eigenvalues_nonneg_of_le_two hle hpos hLx hk')]

/-- A complex mode makes the variance too large. -/
lemma covariance_lt_mixing (hn : 2 < n) (hsigma2 : 0 < sigma2) (hLx : 0 < Lx) (i : Fin n) :
    covariance n sigma2 Lx i i < (mixing n sigma2 Lx * (mixing n sigma2 Lx)ᵀ) i i := by
  have hn' : (0 : ℝ) < n := Nat.cast_pos.mpr (Nat.zero_lt_of_lt hn)
  have hcos : ∀ k, Real.cos (angle n k (Nat.dist i i)) = 1 := by
    intro k
    rw [Nat.dist_self, angle_eq, Nat.cast_zero, mul_zero, mul_zero, zero_div, Real.cos_zero]
  rw [mixing_mul_transpose, covariance_apply]
  simp only [hcos, mul_one]
  refine div_lt_div_of_pos_right (sum_lt_sum (fun k _ => ?_) ⟨1, ?_, ?_⟩) hn'
  · have hone : (1 : ℝ) ≤ weight n k := by
      rw [weight]
      split <;> norm_num
    have hlam : 0 ≤ lam n sigma2 Lx k := lam_nonneg k
    have hle : eigenvalues n sigma2 Lx k ≤ lam n sigma2 Lx k := eigenvalues_le_lam k
    nlinarith [mul_nonneg (sub_nonneg.mpr hone) hlam]
  · exact mem_range.mpr (by omega)
  · have hweight : weight n 1 = 2 := if_neg (by omega)
    have hpos : 0 < eigenvalues n sigma2 Lx 1 := eigenvalues_one_pos (by omega) hsigma2 hLx
    rw [lam_of_nonneg hpos.le, hweight]
    push_cast
    linarith

end Mixing

/-- **Periodic exponential sampling**: the covariance of the sample is the stated one if and
only if there is no complex mode, or no variance at all. -/
theorem hasStatedCovariance_iff {n : ℕ} {sigma2 Lx : ℝ} (hn : 1 ≤ n) (hsigma2 : 0 ≤ sigma2)
    (hLx : 0 < Lx) : HasStatedCovariance n sigma2 Lx ↔ sigma2 = 0 ∨ n ≤ 2 := by
  constructor
  · rintro ⟨M, hM, hcov⟩
    by_contra hnot
    obtain ⟨hne, hlarge⟩ := not_or.mp hnot
    rw [eq_mixing hn hsigma2 hLx hM] at hcov
    have hlt := covariance_lt_mixing (not_le.mp hlarge) (lt_of_le_of_ne hsigma2 (Ne.symm hne)) hLx
      ⟨0, hn⟩
    exact hlt.ne (congrFun (congrFun hcov _) _).symm
  · intro h
    exact ⟨mixing n sigma2 Lx, samplePeriodicExpCov_eq hn hsigma2 hLx,
      mixing_mul_transpose_eq hsigma2 hLx h⟩

/-- Two points. -/
theorem hasStatedCovariance_two : HasStatedCovariance 2 1 1 :=
  (hasStatedCovariance_iff one_le_two zero_le_one one_pos).mpr (Or.inr le_rfl)

/-- Three points have a complex mode. -/
theorem not_hasStatedCovariance_three : ¬HasStatedCovariance 3 1 1 := by
  rintro ⟨M, hM, hcov⟩
  rw [eq_mixing (Nat.succ_pos 2) zero_le_one one_pos hM] at hcov
  exact (covariance_lt_mixing (Nat.lt_succ_self 2) one_pos one_pos 0).ne
    (congrFun (congrFun hcov 0) 0).symm

end PeriodicExpCov

end Icesee
