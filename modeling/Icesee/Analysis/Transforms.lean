import Icesee.Analysis.Filters

/-!
The serial filters as transforms of the whole ensemble.

`enrskfAnalysis` solves in observation space, `entkfAnalysis` inverts in ensemble space
through a decomposition: `enrskfAnalysis_eq_entkfAnalysis` says that every member is the
same. `denkfAnalysis_statistics` collects what the deterministic filter does to the mean,
the anomalies and the sample covariance, and that it does not depend on the order of the
members.
-/

namespace Icesee

open Matrix Gain

noncomputable section

variable {n m N : ℕ}

/-! ### Ensembles in another order -/

section Order

variable {K : Type} [Field K] (A : Matrix (Fin n) (Fin N) K) (σ : Equiv.Perm (Fin N))

lemma ensembleMean_permute : ensembleMean (A.submatrix id σ) = ensembleMean A := by
  funext i
  show (∑ j, A i (σ j)) / (N : K) = (∑ j, A i j) / N
  rw [Equiv.sum_comp σ fun j => A i j]

lemma perturbations_permute :
    perturbations (A.submatrix id σ) = (perturbations A).submatrix id σ := by
  ext i j
  show A i (σ j) - ensembleMean (A.submatrix id σ) i = A i (σ j) - ensembleMean A i
  rw [ensembleMean_permute]

end Order

/-- The sample covariance does not see the order of the members. -/
lemma covModel_permute (A : Matrix (Fin n) (Fin N) ℝ) (σ : Equiv.Perm (Fin N)) :
    covModel (A.submatrix id σ) = covModel A := by
  rw [covModel, covModel, perturbations_permute]
  congr 1
  ext i k
  show ∑ j, perturbations A i (σ j) * perturbations A k (σ j) = ∑ j, perturbations A i j *
    perturbations A k j
  exact Equiv.sum_comp σ fun j => perturbations A i j * perturbations A k j

lemma covModel_transpose (A : Matrix (Fin n) (Fin N) ℝ) : (covModel A)ᵀ = covModel A := by
  rw [covModel, transpose_smul, transpose_mul, transpose_transpose]

namespace LinearObs

/-! ### The two square root filters -/

/-- **The square root filters coincide**: for a decomposition of the Gram matrix,
`EnRSKF_Analysis` and `EnTKF_Analysis` return the same ensemble. -/
theorem enrskfAnalysis_eq_entkfAnalysis (obs : LinearObs n m) (cov A : Matrix (Fin n) (Fin N) ℝ)
    {svd : Matrix (Fin N) (Fin N) ℝ → SVD (Fin N) (Fin N) (Fin N) ℝ}
    (hsvd : IsSVD (obs.entkfGram cov) (svd (obs.entkfGram cov))) :
    obs.enrskfAnalysis cov A = obs.entkfAnalysis svd cov A := by
  rw [enrskfAnalysis_eq, entkfAnalysis_eq obs cov A hsvd, push_through obs.covObs_posDef one_pos]

/-- Both, for the spread of four members. -/
theorem enrskfAnalysis_eq_entkfAnalysis_spread :
    (observeBoth ![1, 2]).enrskfAnalysis (covModelSqrt (ofInt spread)) (ofInt spread) =
      (observeBoth ![1, 2]).entkfAnalysis (fun _ => spreadSVD) (covModelSqrt (ofInt spread))
        (ofInt spread) :=
  enrskfAnalysis_eq_entkfAnalysis (observeBoth ![1, 2]) (covModelSqrt (ofInt spread))
    (ofInt spread) (isSVD_spread ![1, 2])

/-! ### The deterministic filter -/

variable (obs : LinearObs n m)

/-- What `DEnKF_Analysis` multiplies the anomalies with. -/
def halfUpdate (cov : Matrix (Fin n) (Fin n) ℝ) : Matrix (Fin n) (Fin n) ℝ :=
  1 - ((2 : ℕ) : ℝ)⁻¹ • (obs.computeKalmanGain cov * obs.h)

lemma halfUpdate_eq (cov : Matrix (Fin n) (Fin n) ℝ) :
    obs.halfUpdate cov = 1 - (1 / 2 : ℝ) • (obs.computeKalmanGain cov * obs.h) := by
  rw [halfUpdate, Nat.cast_two, one_div]

/-- The analysis is the transformed anomalies around the updated mean. -/
lemma denkfAnalysis_eq (cov : Matrix (Fin n) (Fin n) ℝ) (A : Matrix (Fin n) (Fin N) ℝ) :
    obs.denkfAnalysis cov A = obs.halfUpdate cov * perturbations A +
      of fun i _ => (ensembleMean A + obs.computeKalmanGain cov *ᵥ obs.departure A) i := by
  have hanomalies : obs.halfUpdate cov * perturbations A = perturbations A -
      ((1 / 2 : ℝ) • obs.computeKalmanGain cov) * (obs.h * perturbations A) := by
    rw [halfUpdate_eq, Matrix.sub_mul, Matrix.one_mul, Matrix.smul_mul, Matrix.smul_mul,
      Matrix.mul_assoc]
  rw [hanomalies]
  ext i ens
  rfl

/-- Its anomalies are the transformed anomalies. -/
lemma perturbations_denkfAnalysis (hN : (N : ℝ) ≠ 0) (cov : Matrix (Fin n) (Fin n) ℝ)
    (A : Matrix (Fin n) (Fin N) ℝ) :
    perturbations (obs.denkfAnalysis cov A) = obs.halfUpdate cov * perturbations A := by
  rw [perturbations_eq, mean_denkfAnalysis hN, denkfAnalysis_eq, add_sub_cancel_right]

/-- Its sample covariance is the transformed sample covariance. -/
lemma covModel_denkfAnalysis (hN : (N : ℝ) ≠ 0) (cov : Matrix (Fin n) (Fin n) ℝ)
    (A : Matrix (Fin n) (Fin N) ℝ) :
    covModel (obs.denkfAnalysis cov A) =
      obs.halfUpdate cov * covModel A * (obs.halfUpdate cov)ᵀ := by
  rw [covModel, obs.perturbations_denkfAnalysis hN, covModel, transpose_mul, Matrix.mul_smul,
    Matrix.smul_mul]
  simp only [Matrix.mul_assoc]

/-- The gain of a symmetric covariance removes a symmetric part of it. -/
lemma computeKalmanGain_symm {cov : Matrix (Fin n) (Fin n) ℝ} (hcov : covᵀ = cov) :
    (obs.computeKalmanGain cov * obs.h * cov)ᵀ = obs.computeKalmanGain cov * obs.h * cov := by
  have hinn : (obs.h * cov * obs.hᵀ + obs.covObs)ᵀ = obs.h * cov * obs.hᵀ + obs.covObs := by
    have hobs : obs.covObsᵀ = obs.covObs := obs.covObs_posDef.isHermitian
    rw [transpose_add, transpose_mul, transpose_mul, transpose_transpose, hcov, hobs,
      Matrix.mul_assoc]
  rw [computeKalmanGain, transpose_mul, transpose_mul, transpose_mul, transpose_mul,
    transpose_transpose, transpose_nonsing_inv, hinn, hcov]
  simp only [Matrix.mul_assoc]

/-- The transform takes half of the removed part from both sides. -/
lemma halfUpdate_mul_mul_transpose {cov : Matrix (Fin n) (Fin n) ℝ} (hcov : covᵀ = cov) :
    obs.halfUpdate cov * cov * (obs.halfUpdate cov)ᵀ =
      (1 - obs.computeKalmanGain cov * obs.h) * cov + (1 / 4 : ℝ) •
        (obs.computeKalmanGain cov * obs.h * cov * obs.hᵀ * (obs.computeKalmanGain cov)ᵀ) := by
  set g := obs.computeKalmanGain cov * obs.h with hg
  have hright : cov * gᵀ = g * cov := by
    have hsymm := obs.computeKalmanGain_symm hcov
    rwa [← hg, transpose_mul, hcov] at hsymm
  have htail : g * cov * obs.hᵀ * (obs.computeKalmanGain cov)ᵀ = g * cov * gᵀ := by
    rw [hg, transpose_mul, Matrix.mul_assoc _ obs.hᵀ]
  have hhalf : (1 / 2 : ℝ) • (g * cov) + (1 / 2 : ℝ) • (g * cov) = g * cov := by
    rw [← add_smul]
    norm_num
  -- the half update on both sides, multiplied out
  calc obs.halfUpdate cov * cov * (obs.halfUpdate cov)ᵀ
      = cov - (1 / 2 : ℝ) • (g * cov) - (1 / 2 : ℝ) • (cov * gᵀ) +
          (1 / 4 : ℝ) • (g * cov * gᵀ) := by
        rw [halfUpdate_eq, ← hg, transpose_sub, transpose_one, transpose_smul, Matrix.sub_mul,
          Matrix.one_mul, Matrix.smul_mul, Matrix.mul_sub, Matrix.mul_one, Matrix.mul_smul,
          Matrix.sub_mul, Matrix.smul_mul, smul_sub, smul_smul]
        norm_num
        abel
    _ = cov - ((1 / 2 : ℝ) • (g * cov) + (1 / 2 : ℝ) • (g * cov)) +
          (1 / 4 : ℝ) • (g * cov * gᵀ) := by rw [hright, sub_sub]
    _ = _ := by rw [hhalf, htail, Matrix.sub_mul, Matrix.one_mul]

/-- The members are updated one by one. -/
lemma denkfAnalysis_permute (cov : Matrix (Fin n) (Fin n) ℝ) (A : Matrix (Fin n) (Fin N) ℝ)
    (σ : Equiv.Perm (Fin N)) :
    obs.denkfAnalysis cov (A.submatrix id σ) = (obs.denkfAnalysis cov A).submatrix id σ := by
  rw [denkfAnalysis_eq, denkfAnalysis_eq, perturbations_permute, departure, departure,
    ensembleMean_permute]
  rfl

/-- **The statistics of `DEnKF_Analysis`**: the mean of the Kalman filter, anomalies under
half of the gain, the sample covariance that follows from them, and no dependence on the
order of the members. -/
theorem denkfAnalysis_statistics (cov : Matrix (Fin n) (Fin n) ℝ) (A : Matrix (Fin n) (Fin N) ℝ)
    (hN : 2 ≤ N) {K : Matrix (Fin n) (Fin m) ℝ}
    (hK : K = cov * obs.hᵀ * (obs.h * cov * obs.hᵀ + obs.covObs)⁻¹) :
    ensembleMean (obs.denkfAnalysis cov A) =
        ensembleMean A + K *ᵥ (obs.observationVec - obs.h *ᵥ ensembleMean A) ∧
      perturbations (obs.denkfAnalysis cov A) =
        (1 - (1 / 2 : ℝ) • (K * obs.h)) * perturbations A ∧
      (cov = covModel A →
        covModel (obs.denkfAnalysis cov A) =
            (1 - (1 / 2 : ℝ) • (K * obs.h)) * cov * (1 - (1 / 2 : ℝ) • (K * obs.h))ᵀ ∧
          covModel (obs.denkfAnalysis cov A) =
            (1 - K * obs.h) * cov + (1 / 4 : ℝ) • (K * obs.h * cov * obs.hᵀ * Kᵀ)) ∧
      ∀ σ : Equiv.Perm (Fin N),
        obs.denkfAnalysis cov (A.submatrix id σ) = (obs.denkfAnalysis cov A).submatrix id σ ∧
          covModel (A.submatrix id σ) = covModel A := by
  -- `K` is what `_compute_kalman_gain` returns
  obtain rfl : K = obs.computeKalmanGain cov := hK
  have hN0 : (N : ℝ) ≠ 0 := by
    have hcast : (2 : ℝ) ≤ N := by exact_mod_cast hN
    linarith
  rw [← halfUpdate_eq]
  refine ⟨mean_denkfAnalysis hN0 cov, obs.perturbations_denkfAnalysis hN0 cov A, fun hcov => ?_,
    fun σ => ⟨obs.denkfAnalysis_permute cov A σ, covModel_permute A σ⟩⟩
  have hsample := obs.covModel_denkfAnalysis hN0 cov A
  rw [← hcov] at hsample
  have hsymm : covᵀ = cov := by rw [hcov, covModel_transpose]
  exact ⟨hsample, hsample.trans (obs.halfUpdate_mul_mul_transpose hsymm)⟩

/-- For the spread of four members, with its own sample covariance. -/
theorem denkfAnalysis_statistics_spread :
    let obs := observeBoth ![1, 2]
    let cov := covModel (ofInt spread)
    let K := cov * obs.hᵀ * (obs.h * cov * obs.hᵀ + obs.covObs)⁻¹
    covModel (obs.denkfAnalysis cov (ofInt spread)) =
      (1 - K * obs.h) * cov + (1 / 4 : ℝ) • (K * obs.h * cov * obs.hᵀ * Kᵀ) := by
  have hstatistics := (observeBoth ![1, 2]).denkfAnalysis_statistics (covModel (ofInt spread))
    (ofInt spread) (by decide) rfl
  exact (hstatistics.2.2.1 rfl).2

end LinearObs

end

end Icesee
