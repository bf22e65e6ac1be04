import Icesee.Driver.Events
import Icesee.Lib.Gain
import Icesee.Lib.Svd

/-!
The four serial filters and their analysis means.

`EnKF_Analysis` and `DEnKF_Analysis` are called with the covariance of the ensemble,
`EnRSKF_Analysis` and `EnTKF_Analysis` with its perturbations, and the driver divides
both by `Nens - 1`. Every mean is the forecast mean and an `increment`, in which the
observation errors have a weight (`mean_serialAnalysis`): `Nens - 1` for the first two,
its square for the other two. `sharedMean_iff` says when this makes no difference.
The observation function is linear, and the square root filters do not perturb anything.
-/

namespace Icesee

open Matrix Gain

/-! ### Ensembles -/

section Ensemble

variable {K : Type} [Field K] {n m N : ℕ}

/-- `np.mean(ensemble, axis=1)`. -/
def ensembleMean (A : Matrix (Fin n) (Fin N) K) : Fin n → K := fun i => (∑ j, A i j) / N

/-- `ensemble_vec - np.tile(ensemble_vec_mean.reshape(-1,1), Nens)`. -/
def perturbations (A : Matrix (Fin n) (Fin N) K) : Matrix (Fin n) (Fin N) K :=
  of fun i j => A i j - ensembleMean A i

lemma ensembleMean_eq (A : Matrix (Fin n) (Fin N) K) :
    ensembleMean A = (N : K)⁻¹ • A *ᵥ fun _ => 1 := by
  funext i
  simp [ensembleMean, mulVec, dotProduct, div_eq_inv_mul]

/-- The mean is linear. -/
lemma ensembleMean_mul (M : Matrix (Fin m) (Fin n) K) (A : Matrix (Fin n) (Fin N) K) :
    ensembleMean (M * A) = M *ᵥ ensembleMean A := by
  rw [ensembleMean_eq, ensembleMean_eq, mulVec_smul, mulVec_mulVec]

lemma ensembleMean_add (A B : Matrix (Fin n) (Fin N) K) :
    ensembleMean (A + B) = ensembleMean A + ensembleMean B := by
  simp only [ensembleMean_eq, add_mulVec, smul_add]

lemma ensembleMean_sub (A B : Matrix (Fin n) (Fin N) K) :
    ensembleMean (A - B) = ensembleMean A - ensembleMean B := by
  simp only [ensembleMean_eq, sub_mulVec, smul_sub]

/-- The mean of equal columns. -/
lemma ensembleMean_const (hN : (N : K) ≠ 0) (x : Fin n → K) :
    ensembleMean (of fun i (_ : Fin N) => x i) = x := by
  funext i
  simp [ensembleMean, mul_div_cancel_left₀ _ hN]

lemma perturbations_eq (A : Matrix (Fin n) (Fin N) K) :
    perturbations A = A - of fun i _ => ensembleMean A i := rfl

/-- The perturbations have mean zero. -/
lemma ensembleMean_perturbations (hN : (N : K) ≠ 0) (A : Matrix (Fin n) (Fin N) K) :
    ensembleMean (perturbations A) = 0 := by
  rw [perturbations_eq, ensembleMean_sub, ensembleMean_const hN, sub_self]

end Ensemble

/-! ### Integer ensembles -/

section Integers

variable {k l r : ℕ}

/-- An integer matrix, in the reals. -/
def ofInt (M : Matrix (Fin k) (Fin l) ℤ) : Matrix (Fin k) (Fin l) ℝ := M.map Int.cast

lemma ofInt_mul (M : Matrix (Fin k) (Fin r) ℤ) (M' : Matrix (Fin r) (Fin l) ℤ) :
    ofInt M * ofInt M' = ofInt (M * M') :=
  (Matrix.map_mul (f := Int.castRingHom ℝ)).symm

lemma ofInt_diagonal (d : Fin k → ℤ) : ofInt (diagonal d) = diagonal fun i => (d i : ℝ) :=
  diagonal_map Int.cast_zero

lemma ensembleMean_ofInt {M : Matrix (Fin k) (Fin l) ℤ} (h : ∀ i, ∑ j, M i j = 0) :
    ensembleMean (ofInt M) = 0 := by
  funext i
  show (∑ j, (M i j : ℝ)) / _ = 0
  rw [← Int.cast_sum, h, Int.cast_zero, zero_div]

lemma perturbations_ofInt {M : Matrix (Fin k) (Fin l) ℤ} (h : ∀ i, ∑ j, M i j = 0) :
    perturbations (ofInt M) = ofInt M := by
  rw [perturbations_eq, ensembleMean_ofInt h]
  exact sub_zero _

end Integers

/-! ### The filters -/

/-- A linear observation: the matrix of `Observation_function` and of `Obs_Jacobian`, the
observation and its error covariance. -/
structure LinearObs (n m : ℕ) where
  h : Matrix (Fin m) (Fin n) ℝ
  observationVec : Fin m → ℝ
  covObs : Matrix (Fin m) (Fin m) ℝ
  covObs_posDef : covObs.PosDef

noncomputable section

variable {n m N : ℕ}

/-- `np.linalg.solve`. -/
def solve (a : Matrix (Fin m) (Fin m) ℝ) (b : Matrix (Fin m) (Fin N) ℝ) :
    Matrix (Fin m) (Fin N) ℝ := a⁻¹ * b

/-- `Cov_model` under `EnKF_flag or DEnKF_flag`. -/
def covModel (A : Matrix (Fin n) (Fin N) ℝ) : Matrix (Fin n) (Fin n) ℝ :=
  (1 / ((N : ℝ) - 1)) • (perturbations A * (perturbations A)ᵀ)

/-- `Cov_model` under `EnRSKF_flag or EnTKF_flag`. -/
def covModelSqrt (A : Matrix (Fin n) (Fin N) ℝ) : Matrix (Fin n) (Fin N) ℝ :=
  (1 / ((N : ℝ) - 1)) • perturbations A

namespace LinearObs

variable (obs : LinearObs n m)

/-- `_compute_kalman_gain`. -/
def computeKalmanGain (cov : Matrix (Fin n) (Fin n) ℝ) : Matrix (Fin n) (Fin m) ℝ :=
  cov * obs.hᵀ * (obs.h * cov * obs.hᵀ + obs.covObs)⁻¹

/-- `EnKF_Analysis`, with the draws of `multivariate_normal.rvs`. -/
def enkfAnalysis (cov : Matrix (Fin n) (Fin n) ℝ) (draws : Fin N → Fin m → ℝ)
    (ensemble : Matrix (Fin n) (Fin N) ℝ) : Matrix (Fin n) (Fin N) ℝ :=
  of fun i ens => ensemble i ens +
    (obs.computeKalmanGain cov *ᵥ
      (obs.observationVec + draws ens - obs.h *ᵥ fun k => ensemble k ens)) i

/-- `DEnKF_Analysis`. -/
def denkfAnalysis (cov : Matrix (Fin n) (Fin n) ℝ) (ensemble : Matrix (Fin n) (Fin N) ℝ) :
    Matrix (Fin n) (Fin N) ℝ :=
  let kalGain := obs.computeKalmanGain cov
  let forecastMean := ensembleMean ensemble
  let analysisMean := forecastMean + kalGain *ᵥ (obs.observationVec - obs.h *ᵥ forecastMean)
  let forecastAnomalies := of fun i ens => ensemble i ens - forecastMean i
  let analysisAnomalies := of fun i ens => forecastAnomalies i ens -
    (((1 / 2 : ℝ) • kalGain) *ᵥ (obs.h *ᵥ fun k => forecastAnomalies k ens)) i
  of fun i ens => analysisAnomalies i ens + analysisMean i

/-- `EnRSKF_Analysis`. -/
def enrskfAnalysis (cov ensemble : Matrix (Fin n) (Fin N) ℝ) : Matrix (Fin n) (Fin N) ℝ :=
  let obsAnomaly := of fun r ens => obs.observationVec r - (obs.h * ensemble) r ens
  let v := obs.h * cov
  let innov := obs.covObs + v * vᵀ
  of fun i ens => ensembleMean ensemble i + (cov * vᵀ * solve innov obsAnomaly) i ens

/-- The matrix that `EnTKF_Analysis` decomposes. -/
def entkfGram (cov : Matrix (Fin n) (Fin N) ℝ) : Matrix (Fin N) (Fin N) ℝ :=
  (obs.h * cov)ᵀ * solve obs.covObs (obs.h * cov)

/-- `EnTKF_Analysis`, with `np.linalg.svd`. -/
def entkfAnalysis (svd : Matrix (Fin N) (Fin N) ℝ → SVD (Fin N) (Fin N) (Fin N) ℝ)
    (cov ensemble : Matrix (Fin n) (Fin N) ℝ) : Matrix (Fin n) (Fin N) ℝ :=
  let obsAnomaly := of fun r ens => obs.observationVec r - (obs.h * ensemble) r ens
  let obsOperator := obs.h * cov
  let s := svd (obs.entkfGram cov)
  let invAnalysisErrorCov := s.u * diagonal (fun i => 1 / (s.sig i + 1)) * s.uᵀ
  let rhs := obsOperatorᵀ * solve obs.covObs obsAnomaly
  of fun i ens => ensembleMean ensemble i + (cov * invAnalysisErrorCov * rhs) i ens

/-- The analysis of the driver, for the `Cov_model` that it prepares. -/
def serialAnalysis (svd : Matrix (Fin N) (Fin N) ℝ → SVD (Fin N) (Fin N) (Fin N) ℝ)
    (draws : Fin N → Fin m → ℝ) (A : Matrix (Fin n) (Fin N) ℝ) :
    FilterType → Matrix (Fin n) (Fin N) ℝ
  | .EnKF => obs.enkfAnalysis (covModel A) draws A
  | .DEnKF => obs.denkfAnalysis (covModel A) A
  | .EnRSKF => obs.enrskfAnalysis (covModelSqrt A) A
  | .EnTKF => obs.entkfAnalysis svd (covModelSqrt A) A

/-- The mean of the Kalman filter with the sample covariance. -/
def kalmanMean (A : Matrix (Fin n) (Fin N) ℝ) : Fin n → ℝ :=
  let p := (1 / ((N : ℝ) - 1)) • (perturbations A * (perturbations A)ᵀ)
  ensembleMean A + (p * obs.hᵀ * (obs.h * p * obs.hᵀ + obs.covObs)⁻¹) *ᵥ
    (obs.observationVec - obs.h *ᵥ ensembleMean A)

/-- All four filters have this mean, without perturbations of the observation. -/
def SharedMean (svd : Matrix (Fin N) (Fin N) ℝ → SVD (Fin N) (Fin N) (Fin N) ℝ)
    (A : Matrix (Fin n) (Fin N) ℝ) : Prop :=
  ∀ ft, ensembleMean (obs.serialAnalysis svd 0 A ft) = obs.kalmanMean A

/-! ### The increments -/

/-- The observed perturbations. -/
def observed (A : Matrix (Fin n) (Fin N) ℝ) : Matrix (Fin m) (Fin N) ℝ := obs.h * perturbations A

/-- The observation against the forecast mean. -/
def departure (A : Matrix (Fin n) (Fin N) ℝ) : Fin m → ℝ :=
  obs.observationVec - obs.h *ᵥ ensembleMean A

/-- The departure against the innovation covariance. -/
def innovationWeights (A : Matrix (Fin n) (Fin N) ℝ) : Fin m → ℝ :=
  (obs.h * covModel A * obs.hᵀ + obs.covObs)⁻¹ *ᵥ obs.departure A

/-- The departure where the observation errors have weight `a`. -/
def weighted (A : Matrix (Fin n) (Fin N) ℝ) (a : ℝ) : Fin m → ℝ :=
  (innovation obs.covObs (obs.observed A) a)⁻¹ *ᵥ obs.departure A

/-- The update of the mean with these weights. -/
def increment (A : Matrix (Fin n) (Fin N) ℝ) (a : ℝ) : Fin n → ℝ :=
  perturbations A *ᵥ ((obs.observed A)ᵀ *ᵥ obs.weighted A a)

end LinearObs

/-- The weight of the observation errors, against the divisor of the sample covariance. -/
def FilterType.errorWeight (N : ℕ) : FilterType → ℝ
  | EnKF | DEnKF => (N : ℝ) - 1
  | EnRSKF | EnTKF => ((N : ℝ) - 1) ^ 2

namespace LinearObs

variable {obs : LinearObs n m} {A : Matrix (Fin n) (Fin N) ℝ}

/-- A scaled covariance, observed. -/
lemma observed_covariance (k : ℝ) :
    obs.h * (k⁻¹ • (perturbations A * (perturbations A)ᵀ)) * obs.hᵀ =
      k⁻¹ • (obs.observed A * (obs.observed A)ᵀ) := by
  rw [observed, transpose_mul, Matrix.mul_smul, Matrix.smul_mul]
  simp only [Matrix.mul_assoc]

/-- Its innovation covariance. -/
lemma innovation_eq {k : ℝ} (hk : 0 < k) :
    obs.h * (k⁻¹ • (perturbations A * (perturbations A)ᵀ)) * obs.hᵀ + obs.covObs =
      k⁻¹ • innovation obs.covObs (obs.observed A) k := by
  rw [observed_covariance, innovation, smul_add, smul_smul, inv_mul_cancel₀ hk.ne', one_smul,
    add_comm]

/-- The Kalman gain of a scaled covariance. -/
lemma gain_mulVec {k : ℝ} (hk : 0 < k) :
    obs.computeKalmanGain (k⁻¹ • (perturbations A * (perturbations A)ᵀ)) *ᵥ obs.departure A =
      obs.increment A k := by
  rw [computeKalmanGain, innovation_eq hk, inv_smul_innovation obs.covObs_posDef hk,
    Matrix.mul_smul, Matrix.smul_mul, Matrix.smul_mul, smul_smul, mul_inv_cancel₀ hk.ne', one_smul,
    increment, weighted, observed, transpose_mul, mulVec_mulVec, mulVec_mulVec]
  simp only [Matrix.mul_assoc]

/-- The serial innovation is a multiple of the weighted departure. -/
lemma innovationWeights_eq (obs : LinearObs n m) {k : ℝ} (hk : 0 < k)
    (hcov : covModel A = k⁻¹ • (perturbations A * (perturbations A)ᵀ)) :
    obs.innovationWeights A = k • obs.weighted A k := by
  rw [innovationWeights, hcov, innovation_eq hk, inv_smul_innovation obs.covObs_posDef hk,
    smul_mulVec, weighted]

/-- The weighted departure solves for the departure. -/
lemma departure_eq (obs : LinearObs n m) (A : Matrix (Fin n) (Fin N) ℝ) {k : ℝ} (hk : 0 < k) :
    obs.departure A = k • obs.covObs *ᵥ obs.weighted A k +
    (obs.observed A * (obs.observed A)ᵀ) *ᵥ obs.weighted A k := by
  have hdet := (Matrix.isUnit_iff_isUnit_det _).mp
    (posDef_innovation (S := obs.observed A) obs.covObs_posDef hk).isUnit
  calc obs.departure A
      = innovation obs.covObs (obs.observed A) k *ᵥ obs.weighted A k := by
        rw [weighted, mulVec_mulVec, mul_nonsing_inv _ hdet, one_mulVec]
    _ = _ := by rw [innovation, add_mulVec, smul_mulVec]

/-- The square root filters weight the errors with the square. -/
lemma sqrt_increment {k : ℝ} (hk : 0 < k) :
    (k⁻¹ • perturbations A) *ᵥ ((obs.h * (k⁻¹ • perturbations A))ᵀ *ᵥ
      ((innovation obs.covObs (obs.h * (k⁻¹ • perturbations A)) 1)⁻¹ *ᵥ obs.departure A)) =
      obs.increment A (k ^ 2) := by
  have hk2 : 0 < k ^ 2 := pow_pos hk 2
  have hobs : obs.h * (k⁻¹ • perturbations A) = k⁻¹ • obs.observed A := by
    rw [Matrix.mul_smul, observed]
  have hinn : innovation obs.covObs (k⁻¹ • obs.observed A) 1 =
      (k ^ 2)⁻¹ • innovation obs.covObs (obs.observed A) (k ^ 2) := by
    rw [innovation, innovation, smul_add, smul_smul, inv_mul_cancel₀ hk2.ne', transpose_smul,
      Matrix.smul_mul, Matrix.mul_smul, smul_smul, pow_two, mul_inv]
  have hone : k⁻¹ * k⁻¹ * k ^ 2 = 1 := by field_simp
  rw [hobs, hinn, inv_smul_innovation obs.covObs_posDef hk2, increment, weighted, smul_mulVec,
    transpose_smul, smul_mulVec, smul_mulVec, mulVec_smul, mulVec_smul, mulVec_smul, smul_smul,
    smul_smul, hone, one_smul]

/-! ### The four means -/

/-- The mean of an analysis that adds a linear image of the departures. -/
lemma ensembleMean_update (obs : LinearObs n m) (A : Matrix (Fin n) (Fin N) ℝ)
    (hN : (N : ℝ) ≠ 0) (M : Matrix (Fin n) (Fin m) ℝ) :
    ensembleMean (of fun i ens => ensembleMean A i +
      (M * of fun r ens => obs.observationVec r - (obs.h * A) r ens) i ens) =
        ensembleMean A + M *ᵥ obs.departure A := by
  set B : Matrix (Fin m) (Fin N) ℝ := of fun r ens => obs.observationVec r - (obs.h * A) r ens
    with hB
  have hdep : ensembleMean B = obs.departure A := by
    have hsub : B = (of fun r _ => obs.observationVec r) - obs.h * A := rfl
    rw [hsub, ensembleMean_sub, ensembleMean_const hN, ensembleMean_mul, departure]
  have hadd : (of fun i ens => ensembleMean A i + (M * B) i ens) =
      (of fun i _ => ensembleMean A i) + M * B := rfl
  rw [hadd, ensembleMean_add, ensembleMean_const hN, ensembleMean_mul, hdep]

/-- `EnKF_Analysis` without perturbations updates every member with its own departure. -/
lemma mean_enkfAnalysis (hN : (N : ℝ) ≠ 0) (cov : Matrix (Fin n) (Fin n) ℝ) :
    ensembleMean (obs.enkfAnalysis cov 0 A) =
      ensembleMean A + obs.computeKalmanGain cov *ᵥ obs.departure A := by
  have hcols : obs.enkfAnalysis cov 0 A = A + obs.computeKalmanGain cov *
      ((of fun r _ => obs.observationVec r) - obs.h * A) := by
    ext i ens
    simp only [enkfAnalysis, of_apply, Pi.zero_apply, add_zero, Matrix.add_apply]
    rfl
  rw [hcols, ensembleMean_add, ensembleMean_mul, ensembleMean_sub, ensembleMean_const hN,
    ensembleMean_mul, departure]

/-- `DEnKF_Analysis` updates the mean, and its anomalies have mean zero. -/
lemma mean_denkfAnalysis (hN : (N : ℝ) ≠ 0) (cov : Matrix (Fin n) (Fin n) ℝ) :
    ensembleMean (obs.denkfAnalysis cov A) =
      ensembleMean A + obs.computeKalmanGain cov *ᵥ obs.departure A := by
  have hcols : obs.denkfAnalysis cov A =
      (perturbations A - ((1 / 2 : ℝ) • obs.computeKalmanGain cov) * (obs.h * perturbations A)) +
        of fun i _ => (ensembleMean A + obs.computeKalmanGain cov *ᵥ obs.departure A) i := by
    ext i ens
    rfl
  rw [hcols, ensembleMean_add, ensembleMean_sub, ensembleMean_mul, ensembleMean_mul,
    ensembleMean_perturbations hN, mulVec_zero, mulVec_zero, sub_zero, zero_add,
    ensembleMean_const hN]

/-- What `EnTKF_Analysis` assembles from the decomposition. -/
lemma inv_precision {cov : Matrix (Fin n) (Fin N) ℝ} {s : SVD (Fin N) (Fin N) (Fin N) ℝ}
    (hsvd : IsSVD (obs.entkfGram cov) s) :
    s.u * diagonal (fun i => 1 / (s.sig i + 1)) * s.uᵀ =
      (precision obs.covObs (obs.h * cov) 1)⁻¹ := by
  have hgram : obs.entkfGram cov = (obs.h * cov)ᵀ * obs.covObs⁻¹ * (obs.h * cov) := by
    rw [entkfGram, solve]
    simp only [Matrix.mul_assoc]
  have hpsd : (obs.entkfGram cov).PosSemidef := hgram ▸ posSemidef_gram obs.covObs_posDef _
  rw [precision, one_smul, ← hgram]
  exact (hsvd.inv_one_add hpsd).symm

/-- `EnRSKF_Analysis` weights the departures in observation space. -/
lemma enrskfAnalysis_eq (obs : LinearObs n m) (cov A : Matrix (Fin n) (Fin N) ℝ) :
    obs.enrskfAnalysis cov A = of fun i ens => ensembleMean A i +
      (cov * ((obs.h * cov)ᵀ * (innovation obs.covObs (obs.h * cov) 1)⁻¹) *
        of fun r ens => obs.observationVec r - (obs.h * A) r ens) i ens := by
  rw [enrskfAnalysis, innovation, one_smul]
  simp only [solve, Matrix.mul_assoc]

/-- `EnTKF_Analysis` weights them in ensemble space. -/
lemma entkfAnalysis_eq (obs : LinearObs n m) (cov A : Matrix (Fin n) (Fin N) ℝ)
    {svd : Matrix (Fin N) (Fin N) ℝ → SVD (Fin N) (Fin N) (Fin N) ℝ}
    (hsvd : IsSVD (obs.entkfGram cov) (svd (obs.entkfGram cov))) :
    obs.entkfAnalysis svd cov A = of fun i ens => ensembleMean A i +
      (cov * ((precision obs.covObs (obs.h * cov) 1)⁻¹ * ((obs.h * cov)ᵀ * obs.covObs⁻¹)) *
        of fun r ens => obs.observationVec r - (obs.h * A) r ens) i ens := by
  rw [entkfAnalysis]
  simp only [inv_precision hsvd, solve, Matrix.mul_assoc]

/-- `EnRSKF_Analysis` has the gain of its `Cov_model`. -/
lemma mean_enrskfAnalysis (hN : (N : ℝ) ≠ 0) (cov : Matrix (Fin n) (Fin N) ℝ) :
    ensembleMean (obs.enrskfAnalysis cov A) = ensembleMean A + cov *ᵥ ((obs.h * cov)ᵀ *ᵥ
      ((innovation obs.covObs (obs.h * cov) 1)⁻¹ *ᵥ obs.departure A)) := by
  rw [enrskfAnalysis_eq, ensembleMean_update obs A hN, ← mulVec_mulVec, ← mulVec_mulVec]

/-- `EnTKF_Analysis` has the same mean. -/
lemma mean_entkfAnalysis (hN : (N : ℝ) ≠ 0) (cov : Matrix (Fin n) (Fin N) ℝ)
    {svd : Matrix (Fin N) (Fin N) ℝ → SVD (Fin N) (Fin N) (Fin N) ℝ}
    (hsvd : IsSVD (obs.entkfGram cov) (svd (obs.entkfGram cov))) :
    ensembleMean (obs.entkfAnalysis svd cov A) = ensembleMean (obs.enrskfAnalysis cov A) := by
  rw [entkfAnalysis_eq obs cov A hsvd, enrskfAnalysis_eq, ensembleMean_update obs A hN,
    ensembleMean_update obs A hN, push_through obs.covObs_posDef one_pos]

/-- The mean of every filter, for the `Cov_model` that the driver prepares. -/
theorem mean_serialAnalysis (hN : 2 ≤ N)
    {svd : Matrix (Fin N) (Fin N) ℝ → SVD (Fin N) (Fin N) (Fin N) ℝ}
    (hsvd : IsSVD (obs.entkfGram (covModelSqrt A)) (svd (obs.entkfGram (covModelSqrt A))))
    (ft : FilterType) :
    ensembleMean (obs.serialAnalysis svd 0 A ft) =
      ensembleMean A + obs.increment A (ft.errorWeight N) := by
  have hcast : (2 : ℝ) ≤ N := by exact_mod_cast hN
  have hN0 : (N : ℝ) ≠ 0 := by linarith
  have hk : 0 < (N : ℝ) - 1 := by linarith
  have hgain : obs.computeKalmanGain (covModel A) *ᵥ obs.departure A =
      obs.increment A ((N : ℝ) - 1) := by
    rw [covModel, one_div]
    exact gain_mulVec hk
  have hsqrt : ensembleMean (obs.enrskfAnalysis (covModelSqrt A) A) =
      ensembleMean A + obs.increment A (((N : ℝ) - 1) ^ 2) := by
    rw [mean_enrskfAnalysis hN0, covModelSqrt, one_div, sqrt_increment hk]
  cases ft with
  | EnKF => exact (mean_enkfAnalysis hN0 _).trans (congrArg _ hgain)
  | DEnKF => exact (mean_denkfAnalysis hN0 _).trans (congrArg _ hgain)
  | EnRSKF => exact hsqrt
  | EnTKF => exact (mean_entkfAnalysis hN0 _ hsvd).trans hsqrt

/-- The mean of the Kalman filter in the same form. -/
lemma kalmanMean_eq (hN : 2 ≤ N) :
    obs.kalmanMean A = ensembleMean A + obs.increment A ((N : ℝ) - 1) := by
  have hcast : (2 : ℝ) ≤ N := by exact_mod_cast hN
  have hk : 0 < (N : ℝ) - 1 := by linarith
  rw [kalmanMean, one_div]
  exact congrArg _ (gain_mulVec hk)

/-- The two weights of the errors give the same increment for two members, where the
divisor is its own square, or if the spread does not meet the departure. -/
lemma increment_weights_iff (hN : 2 ≤ N) :
    obs.increment A (((N : ℝ) - 1) ^ 2) = obs.increment A ((N : ℝ) - 1) ↔
      N = 2 ∨ (obs.h * perturbations A)ᵀ *ᵥ (obs.covObs⁻¹ *ᵥ
        (obs.observationVec - obs.h *ᵥ ensembleMean A)) = 0 := by
  have hcast : (2 : ℝ) ≤ N := by exact_mod_cast hN
  have hk : 0 < (N : ℝ) - 1 := by linarith
  have hweight : ((N : ℝ) - 1) ^ 2 = (N : ℝ) - 1 ↔ N = 2 := by
    rw [pow_two, mul_eq_left₀ hk.ne', sub_eq_iff_eq_add, one_add_one_eq_two]
    exact_mod_cast Iff.rfl
  rw [← hweight]
  exact increment_eq_iff obs.h (perturbations A) obs.covObs_posDef (pow_pos hk 2) hk _

/-- **The four filters** share the mean of the Kalman filter if and only if there are two
members, or the observed perturbations do not meet the departure from the mean. -/
theorem sharedMean_iff (obs : LinearObs n m) (A : Matrix (Fin n) (Fin N) ℝ) (hN : 2 ≤ N)
    {svd : Matrix (Fin N) (Fin N) ℝ → SVD (Fin N) (Fin N) (Fin N) ℝ}
    (hsvd : IsSVD (obs.entkfGram (covModelSqrt A)) (svd (obs.entkfGram (covModelSqrt A)))) :
    obs.SharedMean svd A ↔
      N = 2 ∨ (obs.h * perturbations A)ᵀ *ᵥ (obs.covObs⁻¹ *ᵥ
        (obs.observationVec - obs.h *ᵥ ensembleMean A)) = 0 := by
  simp only [SharedMean, mean_serialAnalysis hN hsvd, kalmanMean_eq hN, add_right_inj]
  rw [← increment_weights_iff hN]
  refine ⟨fun h => ?_, fun h ft => ?_⟩
  · exact h .EnRSKF
  · cases ft with
    | EnKF => rfl
    | DEnKF => rfl
    | EnRSKF => exact h
    | EnTKF => exact h

/-! ### Four members -/

/-- Two states of four members, with the spread in the first one. -/
def spread : Matrix (Fin 2) (Fin 4) ℤ := !![1, 1, -1, -1; 0, 0, 0, 0]

/-- Both states are observed, with unit errors. -/
def observeBoth (y : Fin 2 → ℝ) : LinearObs 2 2 := ⟨1, y, 1, PosDef.one⟩

/-- Orthogonal columns, the first one along the spread. -/
def alternating : Matrix (Fin 4) (Fin 4) ℤ :=
  !![1, 1, 1, 1; 1, -1, 1, -1; -1, -1, 1, 1; -1, 1, 1, -1]

/-- The decomposition that `EnTKF_Analysis` needs for the spread. -/
def spreadSVD : SVD (Fin 4) (Fin 4) (Fin 4) ℝ where
  u := (1 / 2 : ℝ) • ofInt alternating
  sig := (4 / 9 : ℝ) • fun i => if i = 0 then 1 else 0
  vt := (1 / 2 : ℝ) • ofInt alternatingᵀ

lemma ensembleMean_spread : ensembleMean (ofInt spread) = 0 :=
  ensembleMean_ofInt (by decide)

lemma perturbations_spread : perturbations (ofInt spread) = ofInt spread :=
  perturbations_ofInt (by decide)

lemma entkfGram_spread (y : Fin 2 → ℝ) : (observeBoth y).entkfGram (covModelSqrt (ofInt spread)) =
    (1 / 9 : ℝ) • ofInt (spreadᵀ * spread) := by
  have hcov : covModelSqrt (ofInt spread) = (1 / 3 : ℝ) • ofInt spread := by
    rw [covModelSqrt, perturbations_spread]
    norm_num
  show (1 * covModelSqrt (ofInt spread))ᵀ * (1⁻¹ * (1 * covModelSqrt (ofInt spread))) = _
  rw [hcov, inv_one, Matrix.one_mul, Matrix.one_mul, transpose_smul, Matrix.smul_mul,
    Matrix.mul_smul, smul_smul, ← ofInt_mul]
  norm_num
  rfl

lemma spreadSVD_orthogonal : spreadSVD.vt * spreadSVD.u = 1 := by
  have hgram : alternatingᵀ * alternating = diagonal fun _ => 4 := by decide
  rw [spreadSVD, Matrix.smul_mul, Matrix.mul_smul, smul_smul, ofInt_mul, hgram, ofInt_diagonal,
    ← diagonal_smul, ← diagonal_one]
  congr 1
  funext i
  norm_num

lemma isSVD_spread (y : Fin 2 → ℝ) :
    IsSVD ((observeBoth y).entkfGram (covModelSqrt (ofInt spread))) spreadSVD where
  left := spreadSVD_orthogonal
  right := spreadSVD_orthogonal
  nonneg i := by
    show 0 ≤ (4 / 9 : ℝ) * if i = 0 then 1 else 0
    split <;> norm_num
  antitone i j hij := by
    show ((4 / 9 : ℝ) * if j = 0 then 1 else 0) ≤ (4 / 9 : ℝ) * if i = 0 then 1 else 0
    have hzero : j = 0 → i = 0 := fun h => le_antisymm (h ▸ hij) (Fin.zero_le i)
    refine mul_le_mul_of_nonneg_left ?_ (by norm_num)
    split_ifs with hj hi
    · exact le_rfl
    · exact absurd (hzero hj) hi
    · exact zero_le_one
    · exact le_rfl
  factor := by
    have hfactor : alternating * diagonal (fun i => if i = 0 then 1 else 0) * alternatingᵀ =
      spreadᵀ * spread := by decide
    rw [entkfGram_spread, ← hfactor, ← ofInt_mul, ← ofInt_mul, ofInt_diagonal]
    simp only [spreadSVD, diagonal_smul, Matrix.smul_mul, Matrix.mul_smul, smul_smul, Int.cast_ite,
      Int.cast_one, Int.cast_zero]
    norm_num

/-- A departure that the spread does not meet: all four filters agree. -/
theorem sharedMean_off_spread :
    (observeBoth ![0, 1]).SharedMean (fun _ => spreadSVD) (ofInt spread) := by
  refine (sharedMean_iff (observeBoth ![0, 1]) (ofInt spread) (by norm_num)
    (isSVD_spread ![0, 1])).mpr (Or.inr ?_)
  rw [perturbations_spread, ensembleMean_spread]
  funext j
  fin_cases j <;> simp [observeBoth, ofInt, spread, mulVec, dotProduct]

/-- A departure along the spread: the square root filters update less. -/
theorem not_sharedMean_along_spread :
    ¬ (observeBoth ![1, 0]).SharedMean (fun _ => spreadSVD) (ofInt spread) := by
  intro h
  have hmean := h .EnRSKF
  rw [mean_serialAnalysis (by norm_num) (isSVD_spread _), kalmanMean_eq (by norm_num),
    add_right_inj] at hmean
  have hzero := ((increment_weights_iff (by norm_num)).mp hmean).resolve_left (by norm_num)
  rw [perturbations_spread, ensembleMean_spread] at hzero
  have hfirst := congrFun hzero 0
  simp [observeBoth, ofInt, spread, mulVec, dotProduct] at hfirst

end LinearObs

end

end Icesee
