import Mathlib.Analysis.SpecialFunctions.Complex.Log

/-!
Real discrete Fourier transforms.

`rfft` and `irfft` are the transforms of real sequences of period `n`: of the modes, those
up to `n / 2` are kept, and the others are their conjugates. Sums over all modes fold to
sums over the modes that are kept (`sum_range_fold`), in which every mode but the first and
the one at `n / 2` counts twice.

* `irfft_apply`: the inverse transform in cosines and sines;
* `sum_rfft_mul_cos`: an even sequence comes back from the real parts of its transform;
* `rfft_one_re_pos`: a sequence that decreases along the ring has a positive first mode.
-/

namespace RealFourier

open Finset Real

variable {n : ℕ}

/-- The angle of mode `k` at position `j`. -/
noncomputable def angle (n k j : ℕ) : ℝ := (2 : ℕ) * π * (k * j) / n

/-- Mode `k` of the real sequence `c`. -/
noncomputable def rfft (n : ℕ) (c : ℕ → ℝ) (k : ℕ) : ℂ :=
  ∑ j ∈ range n, c j * Complex.exp (-angle n k j * Complex.I)

/-- All modes, from those up to `n / 2`. -/
noncomputable def hermitian (n : ℕ) (z : ℕ → ℂ) (k : ℕ) : ℂ :=
  if k ≤ n / 2 then z k else star (z (n - k))

/-- The real sequence with the modes `z`. -/
noncomputable def irfft (n : ℕ) (z : ℕ → ℂ) (j : ℕ) : ℝ :=
  (∑ k ∈ range n, (hermitian n z k * Complex.exp (angle n k j * Complex.I)).re) / n

lemma angle_eq (n k j : ℕ) : angle n k j = 2 * π * (k * j) / n := by rw [angle, Nat.cast_two]

/-- How often a mode counts. -/
def weight (n k : ℕ) : ℕ := if k = 0 ∨ k + k = n then 1 else 2

/-! ### The modes that are kept -/

/-- The modes beyond `n / 2` are the mirror images of those between the first and `n / 2`. -/
lemma sum_mirror (f : ℕ → ℝ) :
    ∑ k ∈ range n with ¬k ≤ n / 2, f k = ∑ k ∈ range n with 0 < k ∧ k + k < n, f (n - k) := by
  refine sum_nbij' (n - ·) (n - ·) ?_ ?_ ?_ ?_ ?_
  · intro k hk
    simp only [mem_filter, mem_range] at hk ⊢
    omega
  · intro k hk
    simp only [mem_filter, mem_range] at hk ⊢
    omega
  · intro k hk
    simp only [mem_filter, mem_range] at hk
    omega
  · intro k hk
    simp only [mem_filter, mem_range] at hk
    omega
  · intro k hk
    simp only [mem_filter, mem_range] at hk
    rw [Nat.sub_sub_self hk.1.le]

/-- A symmetric sum over all modes is a sum over the modes that are kept. -/
lemma sum_range_fold (hn : 0 < n) {f : ℕ → ℝ}
    (hf : ∀ k, 0 < k → k + k < n → f (n - k) = f k) :
    ∑ k ∈ range n, f k = ∑ k ∈ range (n / 2 + 1), weight n k * f k := by
  have hkept : (range n).filter (· ≤ n / 2) = range (n / 2 + 1) := by
    ext k
    simp only [mem_filter, mem_range]
    omega
  have hmid : (range n).filter (fun k => 0 < k ∧ k + k < n) =
      (range (n / 2 + 1)).filter fun k => ¬(k = 0 ∨ k + k = n) := by
    ext k
    simp only [mem_filter, mem_range]
    omega
  have hmirror : ∑ k ∈ range n with 0 < k ∧ k + k < n, f (n - k) =
      ∑ k ∈ range (n / 2 + 1), if k = 0 ∨ k + k = n then 0 else f k := by
    rw [sum_congr rfl fun k hk => hf k (mem_filter.mp hk).2.1 (mem_filter.mp hk).2.2, hmid,
      sum_filter]
    simp only [ite_not]
  rw [← sum_filter_add_sum_filter_not (range n) (· ≤ n / 2), sum_mirror, hmirror, hkept,
    ← sum_add_distrib]
  refine sum_congr rfl fun k _ => ?_
  rw [weight]
  split
  · rw [Nat.cast_one, one_mul, add_zero]
  · rw [Nat.cast_two, two_mul]

/-! ### The transforms in cosines and sines -/

lemma rfft_re (c : ℕ → ℝ) (k : ℕ) :
    (rfft n c k).re = ∑ j ∈ range n, c j * cos (angle n k j) := by
  rw [rfft, Complex.re_sum]
  refine sum_congr rfl fun j _ => ?_
  rw [Complex.re_ofReal_mul, ← Complex.ofReal_neg, Complex.exp_ofReal_mul_I_re, cos_neg]

lemma mul_exp_re (z : ℂ) (θ : ℝ) :
    (z * Complex.exp (θ * Complex.I)).re = z.re * cos θ - z.im * sin θ := by
  rw [Complex.mul_re, Complex.exp_ofReal_mul_I_re, Complex.exp_ofReal_mul_I_im]

/-- The mirror image of a mode turns the other way. -/
lemma angle_mirror (hn : 0 < n) {k : ℕ} (hk : k ≤ n) (j : ℕ) :
    angle n (n - k) j = j * (2 * π) - angle n k j := by
  have hn' : (n : ℝ) ≠ 0 := Nat.cast_ne_zero.mpr hn.ne'
  rw [angle_eq, angle_eq, Nat.cast_sub hk]
  field_simp

lemma cos_angle_mirror (hn : 0 < n) {k : ℕ} (hk : k ≤ n) (j : ℕ) :
    cos (angle n (n - k) j) = cos (angle n k j) := by
  rw [angle_mirror hn hk, cos_nat_mul_two_pi_sub]

lemma sin_angle_mirror (hn : 0 < n) {k : ℕ} (hk : k ≤ n) (j : ℕ) :
    sin (angle n (n - k) j) = -sin (angle n k j) := by
  rw [angle_mirror hn hk, sin_nat_mul_two_pi_sub]

/-- The inverse transform in cosines and sines. -/
lemma irfft_apply (hn : 0 < n) (z : ℕ → ℂ) (j : ℕ) :
    irfft n z j = (∑ k ∈ range (n / 2 + 1),
      weight n k * ((z k).re * cos (angle n k j) - (z k).im * sin (angle n k j))) / n := by
  rw [irfft, sum_range_fold hn]
  · refine congrArg (· / (n : ℝ)) (sum_congr rfl fun k hk => ?_)
    rw [mul_exp_re, hermitian, if_pos (Nat.lt_succ_iff.mp (mem_range.mp hk))]
  · intro k hpos hk
    rw [mul_exp_re, mul_exp_re, hermitian, if_neg (by omega), hermitian, if_pos (by omega),
      Nat.sub_sub_self (by omega), cos_angle_mirror hn (by omega),
      sin_angle_mirror hn (by omega), Complex.star_def, Complex.conj_re, Complex.conj_im,
      neg_mul_neg]

/-! ### Even sequences -/

/-- The modes of a single position cancel, unless it is a whole turn away. -/
lemma sum_cos (hn : 0 < n) (d : ℤ) :
    ∑ k ∈ range n, cos (2 * π * (k * d) / n) = if (n : ℤ) ∣ d then (n : ℝ) else 0 := by
  have hn' : (n : ℂ) ≠ 0 := Nat.cast_ne_zero.mpr hn.ne'
  -- the modes are the powers of one root of unity
  set x : ℂ := Complex.exp (d / n * (2 * π * Complex.I)) with hx
  have hcos : ∀ k : ℕ, cos (2 * π * (k * d) / n) = (x ^ k).re := by
    intro k
    rw [← Complex.exp_ofReal_mul_I_re, hx, ← Complex.exp_nat_mul]
    push_cast
    ring_nf
  have hpow : x ^ n = 1 := by
    rw [hx, ← Complex.exp_nat_mul, ← mul_assoc, mul_div_cancel₀ _ hn']
    exact Complex.exp_int_mul_two_pi_mul_I d
  simp only [hcos]
  rw [← Complex.re_sum]
  have hone : x = 1 ↔ (n : ℤ) ∣ d := by
    rw [hx, Complex.exp_eq_one_iff]
    constructor
    · rintro ⟨m, hm⟩
      have hdm := mul_right_cancel₀ Complex.two_pi_I_ne_zero hm
      rw [div_eq_iff hn'] at hdm
      exact ⟨m, by exact_mod_cast hdm.trans (mul_comm _ _)⟩
    · rintro ⟨m, rfl⟩
      refine ⟨m, ?_⟩
      push_cast
      rw [mul_div_cancel_left₀ _ hn']
  split
  · rename_i hd
    rw [hone.mpr hd]
    simp
  · rename_i hd
    rw [geom_sum_eq (mt hone.mp hd), hpow, sub_self, zero_div, Complex.zero_re]

/-- Two positions have the modes of one in common, and of its mirror image. -/
lemma two_mul_sum_cos_mul_cos {j d : ℕ} (hj : j < n) (hd : d < n) :
    2 * ∑ k ∈ range n, cos (angle n k j) * cos (angle n k d) =
      (if j = d then (n : ℝ) else 0) + if j = (n - d) % n then (n : ℝ) else 0 := by
  have hn : 0 < n := Nat.zero_lt_of_lt hd
  have hsplit : ∀ k : ℕ, 2 * (cos (angle n k j) * cos (angle n k d)) =
      cos (2 * π * (k * (j - d : ℤ)) / n) + cos (2 * π * (k * (j + d : ℤ)) / n) := by
    intro k
    rw [← mul_assoc, two_mul_cos_mul_cos]
    congr 2 <;> (rw [angle_eq, angle_eq]; push_cast; ring)
  -- both positions are below `n`, so their difference is a multiple of `n` only if it is zero
  have hsub : (n : ℤ) ∣ j - d ↔ j = d := by
    constructor
    · intro h
      have hzero := Int.eq_zero_of_abs_lt_dvd h (abs_lt.mpr ⟨by omega, by omega⟩)
      omega
    · rintro rfl
      simp
  -- and their sum only if they mirror each other
  have hadd : (n : ℤ) ∣ j + d ↔ j = (n - d) % n := by
    rw [← Int.natCast_add, Int.natCast_dvd_natCast]
    rcases Nat.eq_zero_or_pos d with rfl | hpos
    · rw [Nat.sub_zero, Nat.mod_self, add_zero]
      exact ⟨fun h => Nat.eq_zero_of_dvd_of_lt h hj, fun h => h ▸ dvd_zero n⟩
    · rw [Nat.mod_eq_of_lt (by omega)]
      constructor
      · intro h
        have hle := Nat.le_of_dvd (by omega) h
        have hdiff : n ∣ j + d - n := Nat.dvd_sub h (dvd_refl n)
        have hzero := Nat.eq_zero_of_dvd_of_lt hdiff (by omega)
        omega
      · rintro rfl
        rw [Nat.sub_add_cancel hd.le]
  rw [mul_sum, sum_congr rfl fun k _ => hsplit k, sum_add_distrib, sum_cos hn, sum_cos hn]
  simp only [hsub, hadd]

/-- An even sequence comes back from its modes. -/
lemma sum_rfft_mul_cos {c : ℕ → ℝ} (hc : ∀ j, 0 < j → j < n → c (n - j) = c j) {d : ℕ}
    (hd : d < n) :
    ∑ k ∈ range (n / 2 + 1), weight n k * ((rfft n c k).re * cos (angle n k d)) = n * c d := by
  have hn : 0 < n := Nat.zero_lt_of_lt hd
  have hmirror : c ((n - d) % n) = c d := by
    rcases Nat.eq_zero_or_pos d with rfl | hpos
    · rw [Nat.sub_zero, Nat.mod_self]
    · rw [Nat.mod_eq_of_lt (Nat.sub_lt hn hpos), hc d hpos hd]
  -- half of the modes with their weights are all modes
  rw [← sum_range_fold hn fun k _ hk => by
    simp only [rfft_re, cos_angle_mirror hn (by omega : k ≤ n)]]
  -- both sums swapped: what is left are the modes that two positions share
  have hswap : ∑ k ∈ range n, (rfft n c k).re * cos (angle n k d) =
      ∑ j ∈ range n, c j * ∑ k ∈ range n, cos (angle n k j) * cos (angle n k d) := by
    simp only [rfft_re, sum_mul, mul_sum, mul_assoc]
    exact sum_comm
  refine mul_left_cancel₀ two_ne_zero ?_
  calc 2 * ∑ k ∈ range n, (rfft n c k).re * cos (angle n k d)
      = ∑ j ∈ range n, (c j * (if j = d then (n : ℝ) else 0) +
          c j * if j = (n - d) % n then (n : ℝ) else 0) := by
        rw [hswap, mul_sum]
        refine sum_congr rfl fun j hj => ?_
        rw [← mul_add, ← two_mul_sum_cos_mul_cos (mem_range.mp hj) hd, mul_left_comm]
    _ = c d * n + c ((n - d) % n) * n := by
        simp only [mul_ite, mul_zero, sum_add_distrib, sum_ite_eq', mem_range, hd,
          Nat.mod_lt _ hn, if_true]
    _ = 2 * (n * c d) := by rw [hmirror]; ring

/-! ### The first mode -/

/-- The cosine of the first mode is positive within a quarter of the ring, negative beyond. -/
lemma cos_angle_one (hn : 0 < n) {d : ℕ} (hd : d + d ≤ n) :
    ((d : ℝ) ≤ n / 4 → 0 ≤ cos (angle n 1 d)) ∧ ((n : ℝ) / 4 ≤ d → cos (angle n 1 d) ≤ 0) := by
  have hn' : (0 : ℝ) < n := Nat.cast_pos.mpr hn
  have hpi := pi_pos
  have hle : (d : ℝ) + d ≤ n := by exact_mod_cast hd
  -- the angle is `π` times a number below one, and `1/2` of it is a quarter of the ring
  have hangle : angle n 1 d = π * (2 * d / n) := by
    rw [angle_eq, Nat.cast_one, one_mul]
    ring
  rw [hangle]
  constructor
  · intro h
    refine cos_nonneg_of_mem_Icc ⟨?_, ?_⟩
    · have : 0 ≤ π * (2 * d / n) := by positivity
      linarith
    · rw [div_eq_mul_inv π, ← one_div]
      refine mul_le_mul_of_nonneg_left ?_ hpi.le
      rw [div_le_iff₀ hn']
      linarith
  · intro h
    refine cos_nonpos_of_pi_div_two_le_of_le ?_ ?_
    · rw [div_eq_mul_inv π, ← one_div]
      refine mul_le_mul_of_nonneg_left ?_ hpi.le
      rw [le_div_iff₀ hn']
      linarith
    · have : π * (2 * d / n) ≤ π * 1 := by
        refine mul_le_mul_of_nonneg_left ?_ hpi.le
        rw [div_le_one hn']
        linarith
      linarith

/-- A sequence that decreases along the ring has a positive first mode. -/
lemma rfft_one_re_pos (hn : 1 < n) (φ : ℝ → ℝ) (hφ : Antitone φ) (hφ0 : φ (n / 4) < φ 0) :
    0 < (rfft n (fun j => φ (min j (n - j) : ℕ)) 1).re := by
  have hn' : 0 < n := Nat.zero_lt_of_lt hn
  -- the cosines cancel, so that the value at a quarter of the ring can be taken off
  have hcancel : ∑ j ∈ range n, cos (angle n 1 j) = 0 := by
    have h := sum_cos hn' 1
    rw [if_neg (by intro h; have := Int.le_of_dvd one_pos h; omega)] at h
    refine Eq.trans (sum_congr rfl fun j _ => ?_) h
    rw [angle_eq]
    push_cast
    ring_nf
  have hshift : (rfft n (fun j => φ (min j (n - j) : ℕ)) 1).re =
      ∑ j ∈ range n, (φ (min j (n - j) : ℕ) - φ (n / 4)) * cos (angle n 1 j) := by
    simp only [sub_mul, sum_sub_distrib, ← mul_sum, hcancel, mul_zero, sub_zero, rfft_re]
  have hmirror : ∀ j ∈ range n, cos (angle n 1 j) = cos (angle n 1 (min j (n - j))) := by
    intro j hj
    rcases min_choice j (n - j) with h | h
    · rw [h]
    · rw [h, angle_eq, angle_eq, mul_comm ((1 : ℕ) : ℝ), mul_comm ((1 : ℕ) : ℝ)]
      exact (cos_angle_mirror hn' (mem_range.mp hj).le 1).symm
  rw [hshift]
  refine sum_pos' (fun j hj => ?_) ⟨0, mem_range.mpr hn', ?_⟩
  · rw [hmirror j hj]
    have hd : min j (n - j) + min j (n - j) ≤ n := by
      have := mem_range.mp hj
      omega
    rcases le_total ((min j (n - j) : ℕ) : ℝ) (n / 4) with h | h
    · exact mul_nonneg (sub_nonneg.mpr (hφ h)) ((cos_angle_one hn' hd).1 h)
    · exact mul_nonneg_of_nonpos_of_nonpos (sub_nonpos.mpr (hφ h)) ((cos_angle_one hn' hd).2 h)
  · rw [Nat.zero_min, angle_eq]
    simp only [Nat.cast_zero, mul_zero, zero_div, cos_zero, mul_one, sub_pos]
    exact hφ0

end RealFourier
