import Mathlib

/-!
The Gaspari-Cohn weights.

There are four translations of one piecewise rational function: `gaspariCohn`,
`gaspariCohnV0`, the branch of `_localization_matrix` and `gaspariCohnSpatial`. Two of them
are the same function (`localizationMatrix_eq`), and that one is a taper in the sense of
`IsTaper` (`isTaper_weights`). The other two have another second piece, and `gaspari_cohn`
does not return what it computes (`weights_agreement`).
-/

namespace Icesee

open Set Filter Topology

/-! ### The four functions -/

section Weights

variable {K : Type} [Field K] [LinearOrder K]

/-- The fractions of the source: `a/b`. -/
def ratio (a b : ℕ) : K := (a : K) / b

/-- The first piece as `gaspari_cohn`, `gaspari_cohn_v0` and `_localization_matrix` have it. -/
def innerWeight (r : K) : K :=
  (((-ratio 1 4 * r + ratio 1 2) * r + ratio 5 8) * r - ratio 5 3) * r ^ 2 + 1

/-- An entry of `taper` in `gaspari_cohn`. -/
def taperWeight (r : K) : K :=
  let r := |r|
  if 0 ≤ r ∧ r ≤ 1 then innerWeight r
  else if 1 < r ∧ r ≤ (2 : ℕ) then
    ((((ratio 1 12 * r - ratio 1 2) * r + ratio 5 8) * r + ratio 5 3) * r - (5 : ℕ)) * r ^ 2 +
      (4 : ℕ) - (2 : ℕ) / ((3 : ℕ) * r)
  else 0

/-- `gaspari_cohn`. It ends after the assignments to `taper`, without a `return`. -/
def gaspariCohn (r : List K) : Option (List K) :=
  let _taper := r.map taperWeight
  none

/-- The second piece in `gaspari_cohn_v0`. -/
def outerWeight (r : K) : K :=
  ((((ratio 1 12 * r - ratio 1 2) * r + ratio 5 8) * r + ratio 5 3) * r - (5 : ℕ)) * r + (4 : ℕ) -
    (2 : ℕ) / ((3 : ℕ) * if r = 0 then ratio 1 (10 ^ 10) else r)

/-- An entry of `gc` in `gaspari_cohn_v0`. -/
def weightV0 (r : K) : K :=
  if 0 ≤ r ∧ r < 1 then innerWeight r
  else if 1 ≤ r ∧ r < (2 : ℕ) then outerWeight r
  else 0

/-- `gaspari_cohn_v0`. -/
def gaspariCohnV0 (r : List K) : List K := r.map weightV0

/-- An entry of the matrix in the branch `gaspari_cohn` of `_localization_matrix`. -/
def localizationWeight (localizationRadius distance : K) : K :=
  let radius := distance / (ratio 1 2 * localizationRadius)
  let radiusSafe := if radius = 0 then ratio 1 (10 ^ 10) else radius
  if radius < 1 then innerWeight radius
  else if 1 ≤ radius ∧ radius < (2 : ℕ) then
    ((((ratio 1 12 * radiusSafe - ratio 1 2) * radiusSafe + ratio 5 8) * radiusSafe + ratio 5 3) *
      radiusSafe - (5 : ℕ)) * radiusSafe + (4 : ℕ) - ratio 2 3 / radiusSafe
  else 0

/-- The branch `gaspari_cohn` of `_localization_matrix`. -/
def localizationMatrix (euclideanDistance : List K) (localizationRadius : K) : List K :=
  euclideanDistance.map (localizationWeight localizationRadius)

/-- An entry of `out` in `gaspari_cohn_spatial`. -/
def spatialWeight (r : K) : K :=
  let r := |r|
  let out :=
    if r ≤ 1 then
      1 - ratio 5 3 * r ^ 2 + ratio 5 8 * r ^ 3 + ratio 1 2 * r ^ 4 - ratio 1 4 * r ^ 5
    else if 1 < r ∧ r ≤ (2 : ℕ) then
      -ratio 5 3 * r + ratio 5 8 * r ^ 2 + ratio 1 2 * r ^ 3 - ratio 1 4 * r ^ 4 +
        ratio 1 12 * ((2 : ℕ) / r - 1 / r ^ 4)
    else 0
  if (2 : ℕ) < r then 0 else out

/-- `gaspari_cohn_spatial`. Its second argument is not used. -/
def gaspariCohnSpatial (r : List K) (_L : K) : List K := r.map spatialWeight

/-- All four return one array, `_localization_matrix` for the distances `r * radius / 2`. -/
def WeightsAgree (r : List K) (radius : K) : Prop :=
  ∃ w, gaspariCohn r = some w ∧ gaspariCohnV0 r = w ∧
    localizationMatrix (r.map fun x => x * radius / (2 : ℕ)) radius = w ∧
    gaspariCohnSpatial r radius = w

end Weights

/-! ### Where they agree -/

section Agreement

variable {K : Type} [Field K] [LinearOrder K] {r radius : K}

omit [LinearOrder K] in
/-- The pieces with their numbers in the field. -/
lemma innerWeight_apply (r : K) :
    innerWeight r = (((-(1 / 4) * r + 1 / 2) * r + 5 / 8) * r - 5 / 3) * r ^ 2 + 1 := by
  simp only [innerWeight, ratio, Nat.cast_ofNat, Nat.cast_one]

lemma outerWeight_apply (hr : r ≠ 0) : outerWeight r =
    ((((1 / 12 * r - 1 / 2) * r + 5 / 8) * r + 5 / 3) * r - 5) * r + 4 - 2 / (3 * r) := by
  simp only [outerWeight, ratio, Nat.cast_ofNat, Nat.cast_one, if_neg hr]

lemma weightV0_apply (r : K) : weightV0 r =
    if 0 ≤ r ∧ r < 1 then innerWeight r else if 1 ≤ r ∧ r < 2 then outerWeight r else 0 := by
  simp only [weightV0, Nat.cast_ofNat]

variable [IsStrictOrderedRing K]

/-- The branch of `_localization_matrix` is `gaspari_cohn_v0`, at the distance over half of
the radius. -/
lemma localizationWeight_eq (hradius : 0 < radius) {d : K} (hd : 0 ≤ d) :
    localizationWeight radius d = weightV0 (d / (radius / 2)) := by
  have hhalf : ratio 1 2 * radius = radius / 2 := by
    rw [ratio, Nat.cast_one, Nat.cast_ofNat, one_div_mul_eq_div]
  have hpos : 0 ≤ d / (radius / 2) := by positivity
  rw [localizationWeight, weightV0, hhalf]
  generalize d / (radius / 2) = x at hpos
  simp only [hpos, true_and]
  refine if_congr Iff.rfl rfl ?_
  split_ifs with houter hzero
  · exact absurd houter.1 (by rw [hzero]; exact not_le.mpr one_pos)
  · rw [outerWeight, if_neg hzero, ratio, ratio, ratio, ratio, ratio, div_div]
  · rfl

/-- Below one the first pieces are the same. -/
lemma taperWeight_of_le_one (h0 : 0 ≤ r) (h1 : r ≤ 1) : taperWeight r = innerWeight r := by
  rw [taperWeight, abs_of_nonneg h0, if_pos ⟨h0, h1⟩]

lemma spatialWeight_of_le_one (h0 : 0 ≤ r) (h1 : r ≤ 1) : spatialWeight r = innerWeight r := by
  rw [spatialWeight, abs_of_nonneg h0]
  simp only [if_pos h1, ratio, Nat.cast_ofNat, Nat.cast_one]
  rw [if_neg (by linarith), innerWeight_apply]
  ring

/-- The two pieces meet. -/
lemma innerWeight_one : innerWeight (1 : K) = outerWeight 1 := by
  rw [innerWeight_apply, outerWeight_apply one_ne_zero]
  norm_num

lemma weightV0_of_le_one (h0 : 0 ≤ r) (h1 : r ≤ 1) : weightV0 r = innerWeight r := by
  rcases h1.lt_or_eq with h | rfl
  · rw [weightV0_apply, if_pos ⟨h0, h⟩]
  · rw [weightV0_apply, if_neg (by simp), if_pos ⟨le_rfl, one_lt_two⟩, innerWeight_one]

lemma weightV0_of_two_le (h : 2 ≤ r) : weightV0 r = 0 := by
  rw [weightV0_apply, if_neg fun h' => by linarith [h'.2], if_neg fun h' => by linarith [h'.2]]

/-- The second piece has a factor that vanishes of fourth order at two. -/
lemma outerWeight_eq (hr : r ≠ 0) :
    outerWeight r = (2 - r) ^ 4 * (r ^ 2 + 2 * r - 1 / 2) / (12 * r) := by
  rw [outerWeight_apply hr]
  field_simp
  ring

lemma weightV0_eq_outerWeight (h1 : 1 ≤ r) (h2 : r ≤ 2) : weightV0 r = outerWeight r := by
  rcases h2.lt_or_eq with h | rfl
  · rw [weightV0_apply, if_neg fun h' => by linarith [h'.2], if_pos ⟨h1, h⟩]
  · rw [weightV0_of_two_le le_rfl, outerWeight_eq two_ne_zero, sub_self]
    norm_num

lemma outerWeight_nonneg (h1 : 1 ≤ r) : 0 ≤ outerWeight r := by
  have hfactor : 0 ≤ r ^ 2 + 2 * r - 1 / 2 := by nlinarith
  have hpow : 0 ≤ (2 - r) ^ 4 := by positivity
  rw [outerWeight_eq (by linarith)]
  exact div_nonneg (mul_nonneg hpow hfactor) (by linarith)

/-! ### Where the others differ -/

/-- Beyond one the second piece of `gaspari_cohn` is below zero where a weight is not. -/
lemma taperWeight_lt (h1 : 1 < r) (h2 : r ≤ 2) : taperWeight r < outerWeight r := by
  have h0 : 0 < r := one_pos.trans h1
  have hfactor : (((1 / 12 * r - 1 / 2) * r + 5 / 8) * r + 5 / 3) * r - 5 < 0 := by
    nlinarith [mul_nonneg (mul_nonneg h0.le h0.le) (sub_nonneg.mpr h2),
      mul_nonneg h0.le (sub_nonneg.mpr h2), mul_nonneg (mul_nonneg h0.le (sub_nonneg.mpr h2)) h0.le]
  have hpow : r < r ^ 2 := by nlinarith
  rw [taperWeight, abs_of_pos h0, if_neg fun h => by linarith [h.2],
    if_pos ⟨h1, by rwa [Nat.cast_ofNat]⟩, outerWeight_apply h0.ne']
  simp only [ratio, Nat.cast_ofNat, Nat.cast_one]
  have hmul := mul_lt_mul_of_neg_left hpow hfactor
  linarith

/-- So is the second piece of `gaspari_cohn_spatial`. -/
lemma spatialWeight_neg (h1 : 1 < r) (h2 : r ≤ 2) : spatialWeight r < 0 := by
  have h0 : 0 < r := one_pos.trans h1
  have hinv : 1 / 12 * (2 / r - 1 / r ^ 4) < 1 / 6 := by
    have hpow : 0 < 1 / r ^ 4 := by positivity
    have hdiv : 2 / r < 2 := by
      rw [div_lt_iff₀ h0]
      linarith
    linarith
  have hcubic : 1 / 6 ≤ 5 / 3 - 5 / 8 * r - 1 / 2 * r ^ 2 + 1 / 4 * r ^ 3 := by
    nlinarith [mul_nonneg (sub_nonneg.mpr h1.le) (sq_nonneg (r - 9 / 5)), sq_nonneg (r - 9 / 5)]
  have hpoly : -(5 / 3) * r + 5 / 8 * r ^ 2 + 1 / 2 * r ^ 3 - 1 / 4 * r ^ 4 ≤ -(1 / 6) := by
    nlinarith [mul_le_mul h1.le hcubic (by norm_num) h0.le]
  rw [spatialWeight, abs_of_pos h0]
  simp only [if_neg (not_le.mpr h1), ratio, Nat.cast_ofNat, Nat.cast_one,
    if_pos (And.intro h1 h2)]
  rw [if_neg h2.not_gt]
  linarith

/-- Beyond two everything is zero. -/
lemma weights_of_two_lt (h0 : 2 < r) : taperWeight r = 0 ∧ spatialWeight r = 0 := by
  have hpos : 0 < r := two_pos.trans h0
  rw [taperWeight, spatialWeight, abs_of_pos hpos, Nat.cast_ofNat]
  exact ⟨by rw [if_neg fun h => by linarith [h.2], if_neg fun h => by linarith [h.2]], if_pos h0⟩

/-- A weight of `gaspari_cohn` is the right one outside of `(1, 2]`. -/
lemma taperWeight_eq_iff (h0 : 0 ≤ r) : taperWeight r = weightV0 r ↔ r ≤ 1 ∨ 2 < r := by
  rcases le_or_gt r 1 with h1 | h1
  · exact iff_of_true (by rw [taperWeight_of_le_one h0 h1, weightV0_of_le_one h0 h1]) (.inl h1)
  · rcases le_or_gt r 2 with h2 | h2
    · refine iff_of_false ?_ (by rintro (h | h) <;> linarith)
      rw [weightV0_eq_outerWeight h1.le h2]
      exact (taperWeight_lt h1 h2).ne
    · exact iff_of_true (by rw [(weights_of_two_lt h2).1, weightV0_of_two_le h2.le]) (.inr h2)

lemma spatialWeight_eq_iff (h0 : 0 ≤ r) : spatialWeight r = weightV0 r ↔ r ≤ 1 ∨ 2 < r := by
  rcases le_or_gt r 1 with h1 | h1
  · exact iff_of_true (by rw [spatialWeight_of_le_one h0 h1, weightV0_of_le_one h0 h1]) (.inl h1)
  · rcases le_or_gt r 2 with h2 | h2
    · refine iff_of_false ?_ (by rintro (h | h) <;> linarith)
      rw [weightV0_eq_outerWeight h1.le h2]
      exact ((spatialWeight_neg h1 h2).trans_le (outerWeight_nonneg h1.le)).ne
    · exact iff_of_true (by rw [(weights_of_two_lt h2).2, weightV0_of_two_le h2.le]) (.inr h2)

/-- The branch of `_localization_matrix` at the distances `x * radius / 2`. -/
lemma localizationMatrix_eq {rs : List K} (hrs : ∀ x ∈ rs, 0 ≤ x) (hradius : 0 < radius) :
    localizationMatrix (rs.map fun x => x * radius / 2) radius = gaspariCohnV0 rs := by
  rw [localizationMatrix, gaspariCohnV0, List.map_map]
  refine List.map_congr_left fun x hx => ?_
  have hnonneg : 0 ≤ x * radius / 2 := by
    have := mul_nonneg (hrs x hx) hradius.le
    positivity
  have hquot : x * radius / 2 / (radius / 2) = x := by
    have := hradius.ne'
    field_simp
  rw [Function.comp_apply, localizationWeight_eq hradius hnonneg, hquot]

/-- **The four translations**: they never return one array, as `gaspari_cohn` returns
none. `gaspari_cohn_v0` and the branch of `_localization_matrix` always agree, and what
`gaspari_cohn` computes and what `gaspari_cohn_spatial` returns agree with them exactly for
arrays without an entry in `(1, 2]`. -/
theorem weights_agreement (rs : List K) (hrs : ∀ x ∈ rs, 0 ≤ x) (hradius : 0 < radius) :
    ¬ WeightsAgree rs radius ∧
      localizationMatrix (rs.map fun x => x * radius / 2) radius = gaspariCohnV0 rs ∧
      (rs.map taperWeight = gaspariCohnV0 rs ↔ ∀ x ∈ rs, x ≤ 1 ∨ 2 < x) ∧
      (gaspariCohnSpatial rs radius = gaspariCohnV0 rs ↔ ∀ x ∈ rs, x ≤ 1 ∨ 2 < x) := by
  refine ⟨?_, localizationMatrix_eq hrs hradius, ?_, ?_⟩
  · rintro ⟨w, hnone, -⟩
    cases hnone
  · rw [gaspariCohnV0, List.map_inj_left]
    exact forall₂_congr fun x hx => taperWeight_eq_iff (hrs x hx)
  · rw [gaspariCohnSpatial, gaspariCohnV0, List.map_inj_left]
    exact forall₂_congr fun x hx => spatialWeight_eq_iff (hrs x hx)

/-- A single point at distance zero. -/
theorem weights_agreement_zero : ¬ WeightsAgree [(0 : ℚ)] 1 ∧
    gaspariCohnSpatial [(0 : ℚ)] 1 = gaspariCohnV0 [0] :=
  have h := weights_agreement [(0 : ℚ)] (by simp) one_pos
  ⟨h.1, h.2.2.2.mpr (by simp)⟩

/-- There is nothing to compare at the point one and a half. -/
theorem not_weightsAgree_one_half : gaspariCohn [(3 / 2 : ℚ)] = none ∧
    ¬ WeightsAgree [(3 / 2 : ℚ)] 1 := by
  refine ⟨rfl, ?_⟩
  rintro ⟨w, hnone, -⟩
  cases hnone

end Agreement

/-! ### The taper -/

/-- What a localization needs of its weights: they are between zero and one, one at distance
zero only, do not increase with the distance, and go out at the cut-off. -/
structure IsTaper (w : ℝ → ℝ) (cutoff : ℝ) : Prop where
  mem_Icc : ∀ r, 0 ≤ r → w r ∈ Icc 0 1
  eq_one_iff : ∀ r, 0 ≤ r → (w r = 1 ↔ r = 0)
  antitoneOn : AntitoneOn w (Ici 0)
  tendsto_cutoff : Tendsto w (𝓝 cutoff) (𝓝 0)
  eq_zero : ∀ r, cutoff ≤ r → w r = 0

/-- A taper of the distance in another unit. -/
lemma IsTaper.comp_div {w : ℝ → ℝ} {cutoff unit : ℝ} (h : IsTaper w cutoff) (hunit : 0 < unit) :
    IsTaper (fun d => w (d / unit)) (cutoff * unit) where
  mem_Icc d hd := h.mem_Icc _ (div_nonneg hd hunit.le)
  eq_one_iff d hd := by
    rw [h.eq_one_iff _ (div_nonneg hd hunit.le), div_eq_zero_iff, or_iff_left hunit.ne']
  antitoneOn d hd e he hde := h.antitoneOn (div_nonneg hd hunit.le) (div_nonneg he hunit.le)
    (div_le_div_of_nonneg_right hde hunit.le)
  tendsto_cutoff := by
    refine h.tendsto_cutoff.comp ?_
    have hdiv : Tendsto (fun d => d / unit) (𝓝 (cutoff * unit)) (𝓝 (cutoff * unit / unit)) :=
      (continuous_id.div_const unit).tendsto _
    rwa [mul_div_cancel_right₀ _ hunit.ne'] at hdiv
  eq_zero d hd := h.eq_zero _ ((le_div_iff₀ hunit).mpr hd)

/-! ### The pieces -/

/-- The first piece decreases. -/
lemma antitoneOn_innerWeight : AntitoneOn (innerWeight : ℝ → ℝ) (Icc 0 1) := by
  have hderiv : ∀ r : ℝ, HasDerivAt innerWeight
      (-r * (10 / 3 - 15 / 8 * r - 2 * r ^ 2 + 5 / 4 * r ^ 3)) r := by
    intro r
    have hsum := ((((hasDerivAt_pow 2 r).const_mul (-(5 / 3))).add
      ((hasDerivAt_pow 3 r).const_mul (5 / 8))).add ((hasDerivAt_pow 4 r).const_mul (1 / 2))).add
        ((hasDerivAt_pow 5 r).const_mul (-(1 / 4)))
    refine ((hsum.add_const 1).congr_deriv ?_).congr_of_eventuallyEq (.of_eq (funext fun x => ?_))
    · norm_num
      ring
    · show innerWeight x = -(5 / 3) * x ^ 2 + 5 / 8 * x ^ 3 + 1 / 2 * x ^ 4 + -(1 / 4) * x ^ 5 + 1
      rw [innerWeight_apply]
      ring
  refine antitoneOn_of_hasDerivWithinAt_nonpos (convex_Icc 0 1)
    (fun r _ => (hderiv r).continuousAt.continuousWithinAt)
    (fun r _ => (hderiv r).hasDerivWithinAt) fun r hr => ?_
  rw [interior_Icc] at hr
  have hfactor : 0 ≤ 10 / 3 - 15 / 8 * r - 2 * r ^ 2 + 5 / 4 * r ^ 3 := by
    nlinarith [mul_pos hr.1 (sub_pos.mpr hr.2), mul_nonneg (sq_nonneg r) (sub_pos.mpr hr.2).le]
  rw [neg_mul]
  exact neg_nonpos.mpr (mul_nonneg hr.1.le hfactor)

/-- So does the second one up to its zero: the fourth power falls faster than its factor
grows. -/
lemma antitoneOn_outerWeight : AntitoneOn (outerWeight : ℝ → ℝ) (Icc 1 2) := by
  intro x hx y hy hxy
  obtain ⟨hx1, -⟩ := hx
  obtain ⟨hy1, hy2⟩ := hy
  have hform : ∀ r : ℝ, 1 ≤ r → outerWeight r = (2 - r) ^ 4 * (r + 2 - 1 / (2 * r)) / 12 := by
    intro r hr
    have hr0 : r ≠ 0 := by linarith
    rw [outerWeight_eq hr0]
    field_simp
  rw [hform x hx1, hform y hy1]
  -- the second factor grows at most by `3/2` for each unit
  have hgrow : y + 2 - 1 / (2 * y) ≤ x + 2 - 1 / (2 * x) + 3 / 2 * (y - x) := by
    have hdiff : 1 / (2 * x) - 1 / (2 * y) = (y - x) / (2 * x * y) := by
      have hx0 : x ≠ 0 := by linarith
      have hy0 : y ≠ 0 := by linarith
      field_simp
    have hxy1 : 1 ≤ x * y := one_le_mul_of_one_le_of_one_le hx1 hy1
    have hle : (y - x) / (2 * x * y) ≤ (y - x) / 2 :=
      div_le_div_of_nonneg_left (sub_nonneg.mpr hxy) two_pos (by linarith)
    linarith
  have hfactor : 5 / 2 ≤ x + 2 - 1 / (2 * x) := by
    have hle : 1 / (2 * x) ≤ 1 / 2 := one_div_le_one_div_of_le two_pos (by linarith)
    linarith
  set v := x + 2 - 1 / (2 * x) with hv
  set v' := y + 2 - 1 / (2 * y) with hv'
  set b := 2 - y with hb
  set h := y - x with hh
  have hb0 : 0 ≤ b := sub_nonneg.mpr hy2
  have hb1 : b ≤ 1 := by linarith
  have hh0 : 0 ≤ h := sub_nonneg.mpr hxy
  have hbh : 2 - x = b + h := by rw [hb, hh]; ring
  -- the fourth power falls by its derivative at least
  have hpow : b ^ 4 + 4 * b ^ 3 * h ≤ (b + h) ^ 4 := by
    have hrest : 0 ≤ 6 * b ^ 2 * h ^ 2 + 4 * b * h ^ 3 + h ^ 4 := by positivity
    calc b ^ 4 + 4 * b ^ 3 * h
        ≤ b ^ 4 + 4 * b ^ 3 * h + (6 * b ^ 2 * h ^ 2 + 4 * b * h ^ 3 + h ^ 4) := by linarith
      _ = (b + h) ^ 4 := by ring
  -- and that is more than what the other factor gains
  have hlast : b ^ 4 * (3 / 2 * h) ≤ 4 * b ^ 3 * h * v := by
    have hb3 : 0 ≤ b ^ 3 * h := by positivity
    calc b ^ 4 * (3 / 2 * h) = b ^ 3 * h * (3 / 2 * b) := by ring
      _ ≤ b ^ 3 * h * (4 * v) := mul_le_mul_of_nonneg_left (by linarith) hb3
      _ = 4 * b ^ 3 * h * v := by ring
  refine div_le_div_of_nonneg_right ?_ (by norm_num)
  calc b ^ 4 * v' ≤ b ^ 4 * (v + 3 / 2 * h) := mul_le_mul_of_nonneg_left hgrow (by positivity)
    _ = b ^ 4 * v + b ^ 4 * (3 / 2 * h) := by ring
    _ ≤ b ^ 4 * v + 4 * b ^ 3 * h * v := by linarith
    _ = (b ^ 4 + 4 * b ^ 3 * h) * v := by ring
    _ ≤ (b + h) ^ 4 * v := mul_le_mul_of_nonneg_right hpow (by linarith)
    _ = (2 - x) ^ 4 * v := by rw [hbh]

/-! ### The weights -/

/-- The weights follow the second piece near the cut-off and are zero from there on. -/
lemma weightV0_eq_min {r : ℝ} (h1 : 1 ≤ r) : weightV0 r = outerWeight (min r 2) := by
  rcases le_total r 2 with h2 | h2
  · rw [min_eq_left h2, weightV0_eq_outerWeight h1 h2]
  · rw [min_eq_right h2, weightV0_of_two_le h2, ← weightV0_eq_outerWeight one_le_two le_rfl,
      weightV0_of_two_le le_rfl]

/-- They do not increase: neither piece does, and the pieces meet. -/
lemma antitoneOn_weightV0 : AntitoneOn (weightV0 : ℝ → ℝ) (Ici 0) := by
  have hinner : AntitoneOn (weightV0 : ℝ → ℝ) (Icc 0 1) :=
    antitoneOn_innerWeight.congr fun r hr => (weightV0_of_le_one hr.1 hr.2).symm
  have houter : AntitoneOn (weightV0 : ℝ → ℝ) (Ici 1) := by
    intro x hx y hy hxy
    rw [weightV0_eq_min hx, weightV0_eq_min hy]
    exact antitoneOn_outerWeight ⟨le_min hx one_le_two, min_le_right x 2⟩
      ⟨le_min hy one_le_two, min_le_right y 2⟩ (min_le_min_right 2 hxy)
  rw [← Icc_union_Ici_eq_Ici zero_le_one]
  exact hinner.union_right houter (isGreatest_Icc zero_le_one) isLeast_Ici

/-- They go out at the cut-off, as the second piece is continuous. -/
lemma tendsto_weightV0 : Tendsto (weightV0 : ℝ → ℝ) (𝓝 2) (𝓝 0) := by
  have hcont : ContinuousAt (fun r : ℝ => (2 - r) ^ 4 * (r ^ 2 + 2 * r - 1 / 2) / (12 * r)) 2 :=
    ContinuousAt.div (by fun_prop) (by fun_prop) (by norm_num)
  have hmin : Tendsto (fun r : ℝ => min r 2) (𝓝 2) (𝓝 2) := by
    have hc : Continuous fun r : ℝ => min r 2 := continuous_id.min continuous_const
    have := hc.tendsto 2
    rwa [min_self] at this
  have hlim := hcont.tendsto.comp hmin
  rw [sub_self, zero_pow four_ne_zero, zero_mul, zero_div] at hlim
  refine hlim.congr' ?_
  filter_upwards [Ioi_mem_nhds (show (1 : ℝ) < 2 by norm_num)] with r hr
  have hne : min r 2 ≠ 0 := (lt_min (one_pos.trans hr) two_pos).ne'
  rw [weightV0_eq_min (le_of_lt hr), outerWeight_eq hne]
  rfl

/-- Below the cut-off there is a first piece and a second one, both under one. -/
lemma weightV0_lt_one {r : ℝ} (h0 : 0 < r) : weightV0 r < 1 := by
  have hinner : ∀ x : ℝ, 0 < x → x ≤ 1 → weightV0 x < 1 := by
    intro x hx hx1
    have hfactor : 0 < 5 / 3 - 5 / 8 * x - 1 / 2 * x ^ 2 + 1 / 4 * x ^ 3 := by
      have hpow : 0 ≤ 1 / 4 * x ^ 3 := by positivity
      have hsq : x ^ 2 ≤ 1 := pow_le_one₀ hx.le hx1
      linarith
    have hdrop := mul_pos (pow_pos hx 2) hfactor
    rw [weightV0_of_le_one hx.le hx1, innerWeight_apply]
    linarith
  rcases le_total r 1 with h1 | h1
  · exact hinner r h0 h1
  · exact (antitoneOn_weightV0 (mem_Ici.mpr zero_le_one) h0.le h1).trans_lt
      (hinner 1 one_pos le_rfl)

lemma weightV0_nonneg {r : ℝ} (h0 : 0 ≤ r) : 0 ≤ weightV0 r := by
  have hzero : weightV0 (max r 2) = 0 := weightV0_of_two_le (le_max_right r 2)
  rw [← hzero]
  exact antitoneOn_weightV0 h0 (h0.trans (le_max_left r 2)) (le_max_left r 2)

lemma isTaper_weightV0 : IsTaper weightV0 2 where
  mem_Icc r hr := by
    refine ⟨weightV0_nonneg hr, ?_⟩
    rcases hr.eq_or_lt with rfl | h0
    · simp [weightV0, innerWeight]
    · exact (weightV0_lt_one h0).le
  eq_one_iff r hr := by
    refine ⟨fun h => ?_, fun h => by simp [h, weightV0, innerWeight]⟩
    by_contra hne
    exact (weightV0_lt_one (lt_of_le_of_ne hr (Ne.symm hne))).ne h
  antitoneOn := antitoneOn_weightV0
  tendsto_cutoff := tendsto_weightV0
  eq_zero _ hr := weightV0_of_two_le hr

/-- A taper is one on the distances that count. -/
lemma IsTaper.congr {w w' : ℝ → ℝ} {cutoff : ℝ} (h : IsTaper w cutoff) (hcut : 0 < cutoff)
    (heq : ∀ r, 0 ≤ r → w' r = w r) : IsTaper w' cutoff where
  mem_Icc r hr := heq r hr ▸ h.mem_Icc r hr
  eq_one_iff r hr := by rw [heq r hr, h.eq_one_iff r hr]
  antitoneOn := h.antitoneOn.congr fun r hr => (heq r hr).symm
  tendsto_cutoff := by
    refine h.tendsto_cutoff.congr' ?_
    filter_upwards [Ioi_mem_nhds hcut] with r hr
    exact (heq r (le_of_lt hr)).symm
  eq_zero r hr := by rw [heq r (hcut.le.trans hr), h.eq_zero r hr]

/-- **The quality of the taper**: the weights of `gaspari_cohn_v0` are a taper that ends at
two and whose pieces meet at one, and the branch of `_localization_matrix` gives these
weights, so that they end at the radius. -/
theorem isTaper_weights : IsTaper weightV0 2 ∧ innerWeight (1 : ℝ) = outerWeight 1 ∧
    ∀ radius : ℝ, 0 < radius → IsTaper (localizationWeight radius) radius ∧
      ∀ d, 0 ≤ d → localizationWeight radius d = weightV0 (d / (radius / 2)) := by
  refine ⟨isTaper_weightV0, innerWeight_one, fun radius hradius => ⟨?_, fun d hd =>
    localizationWeight_eq hradius hd⟩⟩
  have hunit : 2 * (radius / 2) = radius := by ring
  have hscaled := isTaper_weightV0.comp_div (half_pos hradius)
  rw [hunit] at hscaled
  exact hscaled.congr hradius fun d hd => localizationWeight_eq hradius hd

end Icesee
