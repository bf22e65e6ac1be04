import Icesee.Analysis.Truncation

/-!
`DEnKF_X5`.

The transform of the deterministic filter adds the mean part to the anomaly part. The mean
is in both of them, and `(np.eye(Nens) - one_N) @ X4prime` is a vector, which NumPy adds
to every row: column `j` sums to `2 + Nens * X4prime[j]` (`sum_denkfX5`), and the mean of
the analysis is twice the mean of the forecast (`mean_denkfX5`). The check of the column
sums compares the truth value of `.all()` with `1.0`, so it reports a column sum of zero.
-/

namespace Icesee

open Matrix

section Denkf

variable {K : Type} [Field K] {m nd N : ℕ}

/-! ### The function -/

/-- `one_N`. -/
def oneN (K : Type) [Field K] (N : ℕ) : Matrix (Fin N) (Fin N) K := of fun _ _ => 1 / N

/-- `np.eye(Nens) - one_N`. -/
def centring (K : Type) [Field K] (N : ℕ) : Matrix (Fin N) (Fin N) K := 1 - oneN K N

/-- A vector and a matrix: NumPy adds the vector to every row. -/
def broadcastRow (v : Fin N → K) : Matrix (Fin N) (Fin N) K := of fun _ j => v j

/-- `np.sum(x, axis=0)`. -/
def columnSums (x : Matrix (Fin N) (Fin N) K) (j : Fin N) : K := ∑ i, x i j

/-- What `DEnKF_X5` computes and returns. -/
structure DenkfX5 (K : Type) (N : ℕ) where
  x4 : Matrix (Fin N) (Fin N) K
  x4prime : Fin N → K
  x5 : Matrix (Fin N) (Fin N) K
  x5prime : Matrix (Fin N) (Fin N) K
  /-- Whether `Sum of each X5 column is not 1.0` is printed. -/
  reported : Bool

variable [LinearOrder K]

/-- `DEnKF_X5`, for an observation `d` of length `m`. -/
def denkfX5 (svd : Matrix (Fin m) (Fin N) K → SVD (Fin m) (Fin (min m N)) (Fin N) K)
    (H : Matrix (Fin m) (Fin nd) K) (ensemble : Matrix (Fin nd) (Fin N) K) (d : Fin m → K) :
    DenkfX5 K N :=
  let eta := H * perturbations ensemble
  let ha := H * perturbations ensemble
  let haprime := ha * centring K N
  let s := svd (haprime + eta)
  let sig := enkfSig (sigSquared s)
  let x1 : Matrix (Fin (min m N)) (Fin m) K := of fun i j => sig.getD i 0 * s.u j i
  let x2 := x1 * ha
  let wprime := d - H *ᵥ ensembleMean ensemble
  let x2prime := x1 *ᵥ wprime
  let x3 := s.u * x2
  let x3prime := s.u *ᵥ x2prime
  let x4 := haprimeᵀ * x3
  let x4prime := haprimeᵀ *ᵥ x3prime
  let x5prime := oneN K N + broadcastRow (centring K N *ᵥ x4prime)
  let x5 := 1 - (1 / (2 : ℕ) : K) • (centring K N * x4) + oneN K N +
    broadcastRow (centring K N *ᵥ x4prime)
  { x4 := x4
    x4prime := x4prime
    x5 := x5
    x5prime := x5prime
    -- `np.sum(X5, axis=0).all() != 1.0`
    reported := decide ((if ∀ j, columnSums x5 j ≠ 0 then 1 else 0) ≠ (1 : K)) }

/-- What the transform should do: the columns of `X5` sum to one, or a message says that
some do not; the mean of the forecast is counted once, and the anomalies are halved in
`X4`. -/
structure DenkfTransform (svd : Matrix (Fin m) (Fin N) K → SVD (Fin m) (Fin (min m N)) (Fin N) K)
    (H : Matrix (Fin m) (Fin nd) K) (A : Matrix (Fin nd) (Fin N) K) (d : Fin m → K) : Prop where
  sums : (∀ j, columnSums (denkfX5 svd H A d).x5 j = 1) ∨ (denkfX5 svd H A d).reported
  mean : ensembleMean (A * (denkfX5 svd H A d).x5) =
    ensembleMean A + perturbations A *ᵥ (denkfX5 svd H A d).x4prime
  anomalies : perturbations (A * (denkfX5 svd H A d).x5) =
    perturbations A * (1 - (1 / 2 : K) • (denkfX5 svd H A d).x4)

end Denkf

/-! ### Centring -/

section Centring

variable {K : Type} [Field K] {nd N : ℕ} {A : Matrix (Fin nd) (Fin N) K}

lemma mul_oneN : A * oneN K N = of fun i _ => ensembleMean A i := by
  ext i j
  simp [oneN, Matrix.mul_apply, ensembleMean, Finset.sum_mul, div_eq_mul_inv]

/-- Centring takes the mean away. -/
lemma mul_centring : A * centring K N = perturbations A := by
  rw [centring, Matrix.mul_sub, Matrix.mul_one, mul_oneN, perturbations_eq]

lemma perturbations_mul_centring (hN : (N : K) ≠ 0) :
    perturbations A * centring K N = perturbations A := by
  rw [centring, Matrix.mul_sub, Matrix.mul_one, mul_oneN, ensembleMean_perturbations hN]
  exact sub_zero _

/-- The columns of what is centred from the left sum to zero. -/
lemma columnSums_centring (hN : (N : K) ≠ 0) (x : Matrix (Fin N) (Fin N) K) (j : Fin N) :
    columnSums (centring K N * x) j = 0 := by
  have hmean : ∀ i, (centring K N * x : Matrix (Fin N) (Fin N) K) i j =
      x i j - (∑ k, x k j) / N := by
    intro i
    rw [centring, Matrix.sub_mul, Matrix.one_mul, Matrix.sub_apply, Matrix.mul_apply,
      Finset.sum_div]
    exact congrArg _ (Finset.sum_congr rfl fun k _ => one_div_mul_eq_div _ _)
  rw [columnSums, Finset.sum_congr rfl fun i _ => hmean i, Finset.sum_sub_distrib,
    Finset.sum_const, Finset.card_univ, Fintype.card_fin, nsmul_eq_mul, mul_div_cancel₀ _ hN,
    sub_self]

/-- A vector that sums to zero is centred. -/
lemma centring_mulVec {v : Fin N → K} (hv : ∑ j, v j = 0) : centring K N *ᵥ v = v := by
  have hone : oneN K N *ᵥ v = 0 := by
    funext i
    show ∑ j, 1 / (N : K) * v j = 0
    rw [← Finset.mul_sum, hv, mul_zero]
  rw [centring, sub_mulVec, one_mulVec, hone, sub_zero]

/-- What a broadcast vector adds to the members. -/
lemma mul_broadcastRow (hN : (N : K) ≠ 0) (v : Fin N → K) :
    A * broadcastRow v = of fun i j => N * ensembleMean A i * v j := by
  ext i j
  simp only [broadcastRow, Matrix.mul_apply, of_apply, ensembleMean, mul_div_cancel₀ _ hN,
    Finset.sum_mul]

end Centring

/-! ### What the transform does -/

section Transform

variable {K : Type} [Field K] [LinearOrder K] {m nd N : ℕ}
  {svd : Matrix (Fin m) (Fin N) K → SVD (Fin m) (Fin (min m N)) (Fin N) K}
  {H : Matrix (Fin m) (Fin nd) K} {A : Matrix (Fin nd) (Fin N) K} {d : Fin m → K}

/-- The weights of the mean part are seen through the observed perturbations. -/
lemma x4prime_eq (hN : (N : K) ≠ 0) :
    ∃ z, (denkfX5 svd H A d).x4prime = (H * perturbations A)ᵀ *ᵥ z := by
  rw [← perturbations_mul_centring hN, ← Matrix.mul_assoc]
  exact ⟨_, rfl⟩

lemma sum_x4prime (hN : (N : K) ≠ 0) : ∑ j, (denkfX5 svd H A d).x4prime j = 0 := by
  obtain ⟨z, hz⟩ : ∃ z, (denkfX5 svd H A d).x4prime = (H * perturbations A)ᵀ *ᵥ z := x4prime_eq hN
  rw [hz, sum_observed_weights hN]

lemma centring_mulVec_x4prime (hN : (N : K) ≠ 0) :
    centring K N *ᵥ (denkfX5 svd H A d).x4prime = (denkfX5 svd H A d).x4prime :=
  centring_mulVec (sum_x4prime hN)

/-- The anomaly part of the members has weights that cancel. -/
lemma x4_mulVec_one (hN : (N : K) ≠ 0) : ((denkfX5 svd H A d).x4 *ᵥ fun _ => 1) = 0 := by
  have hha : ((H * perturbations A) *ᵥ fun _ => 1) = 0 := by
    rw [← mulVec_mulVec, perturbations_mulVec_one hN, mulVec_zero]
  simp only [denkfX5, ← mulVec_mulVec, hha, mulVec_zero]

/-- **The column sums**: one for the identity, one for the mean, and the broadcast weight. -/
theorem sum_denkfX5 (hN : (N : K) ≠ 0) (j : Fin N) :
    columnSums (denkfX5 svd H A d).x5 j = 2 + N * (denkfX5 svd H A d).x4prime j := by
  have hcentred := columnSums_centring hN (denkfX5 svd H A d).x4 j
  have hx5 : ∀ i, (denkfX5 svd H A d).x5 i j = (1 : Matrix (Fin N) (Fin N) K) i j -
      1 / 2 * (centring K N * (denkfX5 svd H A d).x4 : Matrix (Fin N) (Fin N) K) i j + 1 / N +
        (denkfX5 svd H A d).x4prime j := by
    intro i
    rw [← congrFun (centring_mulVec_x4prime hN) j]
    rfl
  have hone : ∑ i, (1 : Matrix (Fin N) (Fin N) K) i j = 1 := by simp [Matrix.one_apply]
  rw [columnSums] at hcentred ⊢
  rw [Finset.sum_congr rfl fun i _ => hx5 i, Finset.sum_add_distrib, Finset.sum_add_distrib,
    Finset.sum_sub_distrib, hone, ← Finset.mul_sum, hcentred, Finset.sum_const, Finset.sum_const,
    Finset.card_univ, Fintype.card_fin, nsmul_eq_mul, nsmul_eq_mul, mul_one_div_cancel hN]
  ring

/-- The members after the update. -/
lemma mul_denkfX5 (hN : (N : K) ≠ 0) : A * (denkfX5 svd H A d).x5 =
    perturbations A * (1 - (1 / 2 : K) • (denkfX5 svd H A d).x4) +
      (of fun i j => 2 * ensembleMean A i +
        N * ensembleMean A i * (denkfX5 svd H A d).x4prime j) := by
  have hx5 : (denkfX5 svd H A d).x5 = 1 - (1 / 2 : K) • (centring K N * (denkfX5 svd H A d).x4) +
      oneN K N + broadcastRow (denkfX5 svd H A d).x4prime := by
    conv_rhs => rw [← centring_mulVec_x4prime hN]
    rfl
  rw [hx5, Matrix.mul_add, Matrix.mul_add, Matrix.mul_sub, Matrix.mul_one, Matrix.mul_smul,
    ← Matrix.mul_assoc, mul_centring, mul_oneN, mul_broadcastRow hN, Matrix.mul_sub, Matrix.mul_one,
    Matrix.mul_smul]
  ext i j
  simp only [Matrix.add_apply, Matrix.sub_apply, of_apply, perturbations]
  ring

/-- **The mean of the analysis** is twice the mean of the forecast. -/
theorem mean_denkfX5 (hN : (N : K) ≠ 0) :
    ensembleMean (A * (denkfX5 svd H A d).x5) = (2 : K) • ensembleMean A := by
  have hanomalies : ensembleMean (perturbations A *
      (1 - (1 / 2 : K) • (denkfX5 svd H A d).x4)) = 0 := by
    rw [ensembleMean_eq, ← mulVec_mulVec, sub_mulVec, one_mulVec, smul_mulVec, x4_mulVec_one hN,
      smul_zero, sub_zero, perturbations_mulVec_one hN, smul_zero]
  rw [mul_denkfX5 hN, ensembleMean_add, hanomalies, zero_add]
  funext i
  show (∑ j, (2 * ensembleMean A i + N * ensembleMean A i * (denkfX5 svd H A d).x4prime j)) / N =
    2 * ensembleMean A i
  rw [Finset.sum_add_distrib, ← Finset.mul_sum (f := (denkfX5 svd H A d).x4prime),
    sum_x4prime hN, mul_zero, add_zero, Finset.sum_const, Finset.card_univ, Fintype.card_fin,
    nsmul_eq_mul, mul_div_cancel_left₀ _ hN]

/-- The anomalies of the analysis keep the mean in the broadcast part. -/
lemma perturbations_denkfX5 (hN : (N : K) ≠ 0) : perturbations (A * (denkfX5 svd H A d).x5) =
    perturbations A * (1 - (1 / 2 : K) • (denkfX5 svd H A d).x4) +
      of fun i j => N * ensembleMean A i * (denkfX5 svd H A d).x4prime j := by
  rw [perturbations_eq, mean_denkfX5 hN, mul_denkfX5 hN]
  ext i j
  simp only [Matrix.add_apply, Matrix.sub_apply, of_apply, Pi.smul_apply, smul_eq_mul]
  ring

variable [IsStrictOrderedRing K]

/-- The message is printed if a column sums to zero. -/
lemma reported_iff (hN : (N : K) ≠ 0) : (denkfX5 svd H A d).reported ↔
    ∃ j, 2 + N * (denkfX5 svd H A d).x4prime j = 0 := by
  have hreported : (denkfX5 svd H A d).reported ↔
      ¬ ∀ j, columnSums (denkfX5 svd H A d).x5 j ≠ 0 := by
    simp [denkfX5]
  rw [hreported, not_forall]
  simp only [sum_denkfX5 hN, ne_eq, not_not]

/-- A column sum of one or zero needs a weight: weights that lower the sum of every column
cannot cancel. -/
lemma exists_weight_ne_zero (hN : 0 < N) (h : (∀ j, columnSums (denkfX5 svd H A d).x5 j = 1) ∨
    (denkfX5 svd H A d).reported) : ∃ j, (denkfX5 svd H A d).x4prime j ≠ 0 := by
  have hN0 : (N : K) ≠ 0 := Nat.cast_ne_zero.mpr hN.ne'
  rcases h with hone | hreported
  · refine ⟨⟨0, hN⟩, fun h0 => ?_⟩
    have hcol := hone ⟨0, hN⟩
    rw [sum_denkfX5 hN0, h0, mul_zero, add_zero] at hcol
    linarith
  · obtain ⟨j, hj⟩ := (reported_iff hN0).mp hreported
    refine ⟨j, fun h0 => ?_⟩
    rw [h0, mul_zero, add_zero] at hj
    exact two_ne_zero hj

/-- Weights that do not move anything are zero, since they come from the observed
perturbations. -/
lemma x4prime_eq_zero (hN : (N : K) ≠ 0)
    (hmove : perturbations A *ᵥ (denkfX5 svd H A d).x4prime = 0) :
    (denkfX5 svd H A d).x4prime = 0 := by
  obtain ⟨z, hz⟩ : ∃ z, (denkfX5 svd H A d).x4prime = (H * perturbations A)ᵀ *ᵥ z :=
    x4prime_eq hN
  set v := (denkfX5 svd H A d).x4prime
  refine dotProduct_self_eq_zero.mp ?_
  calc v ⬝ᵥ v = v ⬝ᵥ ((H * perturbations A)ᵀ *ᵥ z) := by rw [← hz]
    _ = ((H * perturbations A) *ᵥ v) ⬝ᵥ z := by rw [dotProduct_mulVec, vecMul_transpose]
    _ = 0 := by rw [← mulVec_mulVec, hmove, mulVec_zero, zero_dotProduct]

/-- **The transform** is never the one of the filter: a column sum of one or zero needs a
weight, and with the mean counted once the weights move the members by the mean, which the
anomalies require to vanish. -/
theorem not_denkfTransform
    (svd : Matrix (Fin m) (Fin N) K → SVD (Fin m) (Fin (min m N)) (Fin N) K)
    (H : Matrix (Fin m) (Fin nd) K) (A : Matrix (Fin nd) (Fin N) K) (d : Fin m → K)
    (hN : 2 ≤ N) : ¬ DenkfTransform svd H A d := by
  intro h
  have hN0 : (N : K) ≠ 0 := Nat.cast_ne_zero.mpr (by omega)
  obtain ⟨j, hj⟩ := exists_weight_ne_zero (by omega) h.sums
  -- the broadcast part of the anomalies vanishes, so the mean does
  have hmean0 : ensembleMean A = 0 := by
    funext i
    have hij := congrFun (congrFun ((perturbations_denkfX5 hN0).symm.trans h.anomalies) i) j
    have hzero : (N : K) * ensembleMean A i * (denkfX5 svd H A d).x4prime j = 0 :=
      add_eq_left.mp hij
    exact (mul_eq_zero.mp ((mul_eq_zero.mp hzero).resolve_right hj)).resolve_left hN0
  -- then the weights do not move anything
  have hmove : perturbations A *ᵥ (denkfX5 svd H A d).x4prime = 0 := by
    have hmean := h.mean
    rw [mean_denkfX5 hN0, hmean0, smul_zero, zero_add] at hmean
    exact hmean.symm
  exact hj (congrFun (x4prime_eq_zero hN0 hmove) j)

/-- Two rows of four members, one observation. -/
theorem not_denkfTransform_two_rows :
    2 ≤ 4 ∧ ¬ DenkfTransform (fun _ => firstRowSVD) !![1, 0] twoRows fun _ => 3 :=
  ⟨by decide, not_denkfTransform (fun _ => firstRowSVD) !![1, 0] twoRows (fun _ => 3) (by decide)⟩

end Transform

/-- The spread row with its mean observed: the weights are zero, every column sums to two,
and nothing is reported. -/
theorem not_denkfTransform_spreadRow :
    IsSVD ((1 : Matrix (Fin 1) (Fin 1) ℝ) * perturbations (ofInt spreadRow) * centring ℝ 4 +
        (1 : Matrix (Fin 1) (Fin 1) ℝ) * perturbations (ofInt spreadRow)) spreadRowSVD ∧
      ¬ DenkfTransform (fun _ => spreadRowSVD) 1 (ofInt spreadRow) 0 := by
  have hN : ((4 : ℕ) : ℝ) ≠ 0 := by norm_num
  refine ⟨?_, fun h => ?_⟩
  · rw [Matrix.mul_assoc, perturbations_mul_centring hN]
    exact isSVD_spreadRow (r := 1) one_pos
  · have hmean : ensembleMean (ofInt spreadRow) = 0 := ensembleMean_ofInt (by decide)
    have hweights : (denkfX5 (fun _ => spreadRowSVD) 1 (ofInt spreadRow) 0).x4prime = 0 := by
      simp only [denkfX5, hmean, mulVec_zero, sub_zero]
    rcases h.sums with hone | hreported
    · have hcol := hone 0
      rw [sum_denkfX5 hN, hweights] at hcol
      norm_num at hcol
    · obtain ⟨j, hj⟩ := (reported_iff hN).mp hreported
      rw [hweights] at hj
      norm_num at hj

end Icesee
