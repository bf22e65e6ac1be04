import Icesee.Analysis.Transforms
import Icesee.Analysis.X5Effect
import Icesee.Driver.SerialCycle
import Icesee.Lib.Kalman

/-!
A serial run against the Kalman filter.

With an affine model, no noise on the state variables and at least two members
(`AffineCycle`, in the setting of `SerialCycle`), the mean and the covariance of the ensemble
have recursions of their own. The DEnKF moves the anomalies with half of the gain
(`denkf_moments`), and its covariance is at no time below that of the Kalman filter which starts
from the same moments (`kalman_below`): what half of the gain leaves at one observation goes
through all later predictions and observations. The EnKF follows the Kalman filter itself, if
the draws of every analysis have the moments that they stand for (`enkf_moments`).

The square root filters replace the anomalies by an image of the observed ones. From the first
observation on the spread of the ensemble has no more directions than were observed then
(`sqrt_rank_le`), however little the observation says.
-/

namespace Icesee

open Matrix Counting

variable {n m N nt : ℕ}

/-- A mean and a covariance. -/
structure Moments (n : ℕ) where
  mean : Fin n → ℝ
  cov : Matrix (Fin n) (Fin n) ℝ

noncomputable section

namespace Moments

/-- The moments of an ensemble. -/
def ofEnsemble (A : Matrix (Fin n) (Fin N) ℝ) : Moments n := ⟨ensembleMean A, covModel A⟩

/-- The moments under `x ↦ M x + f`. -/
def predict (s : Moments n) (M : Matrix (Fin n) (Fin n) ℝ) (f : Fin n → ℝ) : Moments n :=
  ⟨M *ᵥ s.mean + f, M * s.cov * Mᵀ⟩

/-- The moments after an observation: the mean has the Kalman gain, and `upd` says what is done
to the covariance. -/
def observe (upd : Matrix (Fin m) (Fin n) ℝ → Matrix (Fin m) (Fin m) ℝ →
      Matrix (Fin n) (Fin n) ℝ → Matrix (Fin n) (Fin n) ℝ)
    (s : Moments n) (obs : LinearObs n m) : Moments n where
  mean := s.mean + Kalman.gain obs.h obs.covObs s.cov *ᵥ
    (obs.observationVec - obs.h *ᵥ s.mean)
  cov := upd obs.h obs.covObs s.cov

end Moments

/-! ### Moments of an ensemble -/

section Ensemble

open Moments

variable {A : Matrix (Fin n) (Fin N) ℝ}

lemma posSemidef_covModel (hN : 2 ≤ N) (A : Matrix (Fin n) (Fin N) ℝ) :
    (covModel A).PosSemidef := by
  have hcast : (2 : ℝ) ≤ N := by exact_mod_cast hN
  exact (posSemidef_self_mul_conjTranspose (perturbations A)).smul
    (one_div_nonneg.mpr (by linarith))

lemma perturbations_mul (M : Matrix (Fin m) (Fin n) ℝ) (A : Matrix (Fin n) (Fin N) ℝ) :
    perturbations (M * A) = M * perturbations A := by
  have hmean : (of fun i (_ : Fin N) => ensembleMean (M * A) i) =
      M * of fun i (_ : Fin N) => ensembleMean A i := by
    rw [ensembleMean_mul]
    rfl
  rw [perturbations_eq, hmean, ← Matrix.mul_sub, perturbations_eq]

lemma perturbations_add (A B : Matrix (Fin n) (Fin N) ℝ) :
    perturbations (A + B) = perturbations A + perturbations B := by
  have hmean : (of fun i (_ : Fin N) => ensembleMean (A + B) i) =
      (of fun i (_ : Fin N) => ensembleMean A i) + of fun i (_ : Fin N) => ensembleMean B i := by
    rw [ensembleMean_add]
    rfl
  rw [perturbations_eq, hmean, add_sub_add_comm, perturbations_eq, perturbations_eq]

lemma covModel_add_const (hN : (N : ℝ) ≠ 0) (x : Fin n → ℝ) :
    covModel (A + of fun i _ => x i) = covModel A := by
  rw [covModel, perturbations_add_const hN, covModel]

/-- An affine model acts on the moments. -/
lemma ofEnsemble_affine (hN : (N : ℝ) ≠ 0) (M : Matrix (Fin n) (Fin n) ℝ) (f : Fin n → ℝ) :
    ofEnsemble (M * A + of fun i _ => f i) = (ofEnsemble A).predict M f := by
  have hmean : ensembleMean (M * A + of fun i _ => f i) = M *ᵥ ensembleMean A + f := by
    rw [ensembleMean_add, ensembleMean_mul, ensembleMean_const hN]
  have hcov : covModel (M * A + of fun i _ => f i) = M * covModel A * Mᵀ := by
    rw [covModel_add_const hN, covModel, perturbations_mul, transpose_mul, covModel,
      Matrix.mul_smul, Matrix.smul_mul]
    simp only [Matrix.mul_assoc]
  rw [ofEnsemble, hmean, hcov]
  rfl

/-- `DEnKF_Analysis` acts on the moments, with half of the gain for the covariance. -/
lemma ofEnsemble_denkfAnalysis (hN : (N : ℝ) ≠ 0) (obs : LinearObs n m) :
    ofEnsemble (obs.denkfAnalysis (covModel A) A) =
      (ofEnsemble A).observe Kalman.halfUpdate obs := by
  have hhalf : obs.halfUpdate (covModel A) =
      1 - ((2 : ℕ) : ℝ)⁻¹ • Kalman.gain obs.h obs.covObs (covModel A) * obs.h := by
    rw [LinearObs.halfUpdate, Matrix.smul_mul]
    rfl
  rw [ofEnsemble, LinearObs.mean_denkfAnalysis hN, LinearObs.covModel_denkfAnalysis _ hN, hhalf]
  rfl

/-- The covariance of a sum of images of two ensembles with nothing in common. -/
lemma covModel_add {B : Matrix (Fin m) (Fin N) ℝ}
    (h : perturbations A * (perturbations B)ᵀ = 0) (L : Matrix (Fin n) (Fin n) ℝ)
    (K : Matrix (Fin n) (Fin m) ℝ) :
    covModel (L * A + K * B) = L * covModel A * Lᵀ + K * covModel B * Kᵀ := by
  have hswap : perturbations B * (perturbations A)ᵀ = 0 := by
    rw [← transpose_transpose (perturbations B), ← transpose_mul, h, transpose_zero]
  have hsquare : (L * perturbations A + K * perturbations B) *
      (L * perturbations A + K * perturbations B)ᵀ =
        L * (perturbations A * (perturbations A)ᵀ) * Lᵀ +
          K * (perturbations B * (perturbations B)ᵀ) * Kᵀ := by
    calc _ = L * (perturbations A * (perturbations A)ᵀ) * Lᵀ +
          L * (perturbations A * (perturbations B)ᵀ) * Kᵀ +
            (K * (perturbations B * (perturbations A)ᵀ) * Lᵀ +
              K * (perturbations B * (perturbations B)ᵀ) * Kᵀ) := by
          simp only [transpose_add, transpose_mul, Matrix.mul_add, Matrix.add_mul,
            Matrix.mul_assoc]
          abel
      _ = _ := by
          rw [h, hswap, Matrix.mul_zero, Matrix.mul_zero, Matrix.zero_mul, Matrix.zero_mul,
            add_zero, zero_add]
  rw [covModel, perturbations_add, perturbations_mul, perturbations_mul, hsquare, smul_add,
    covModel, covModel]
  simp only [Matrix.mul_smul, Matrix.smul_mul]

/-- The draws of an analysis have the moments that they stand for: no mean, the covariance of the
observation errors, and nothing in common with the ensemble. -/
structure ExactDraws (obs : LinearObs n m) (draws : Fin N → Fin m → ℝ)
    (A : Matrix (Fin n) (Fin N) ℝ) : Prop where
  mean : ensembleMean (of draws)ᵀ = 0
  cov : covModel (of draws)ᵀ = obs.covObs
  cross : perturbations A * (perturbations (of draws)ᵀ)ᵀ = 0

/-- `EnKF_Analysis` of all members at once. -/
lemma enkfAnalysis_eq (obs : LinearObs n m) (cov : Matrix (Fin n) (Fin n) ℝ)
    (draws : Fin N → Fin m → ℝ) :
    obs.enkfAnalysis cov draws A =
      (1 - obs.computeKalmanGain cov * obs.h) * A + obs.computeKalmanGain cov * (of draws)ᵀ +
        of fun i _ => (obs.computeKalmanGain cov *ᵥ obs.observationVec) i := by
  ext i ens
  have hgain : (obs.computeKalmanGain cov * obs.h * A) i ens =
      (obs.computeKalmanGain cov *ᵥ (obs.h *ᵥ fun k => A k ens)) i := by
    rw [Matrix.mul_assoc]
    rfl
  simp only [LinearObs.enkfAnalysis, of_apply, mulVec_sub, mulVec_add, Pi.sub_apply,
    Pi.add_apply, Matrix.sub_mul, Matrix.one_mul, Matrix.add_apply, Matrix.sub_apply, hgain]
  have hdraws : (obs.computeKalmanGain cov * (of draws)ᵀ) i ens =
      (obs.computeKalmanGain cov *ᵥ draws ens) i := rfl
  rw [hdraws]
  ring

/-- With such draws `EnKF_Analysis` is the update of the Kalman filter. -/
lemma ofEnsemble_enkfAnalysis (hN : 2 ≤ N) {obs : LinearObs n m} {draws : Fin N → Fin m → ℝ}
    (h : ExactDraws obs draws A) :
    ofEnsemble (obs.enkfAnalysis (covModel A) draws A) =
      (ofEnsemble A).observe Kalman.update obs := by
  have hN0 : (N : ℝ) ≠ 0 := Nat.cast_ne_zero.mpr (by omega)
  set K := obs.computeKalmanGain (covModel A) with hK
  have hmean : ensembleMean (obs.enkfAnalysis (covModel A) draws A) =
      ensembleMean A + K *ᵥ (obs.observationVec - obs.h *ᵥ ensembleMean A) := by
    rw [enkfAnalysis_eq, ensembleMean_add, ensembleMean_const hN0, ensembleMean_add,
      ensembleMean_mul, ensembleMean_mul, h.mean, mulVec_zero, add_zero, sub_mulVec, one_mulVec,
      ← mulVec_mulVec, mulVec_sub]
    abel
  have hcov : covModel (obs.enkfAnalysis (covModel A) draws A) =
      Kalman.joseph obs.h obs.covObs K (covModel A) := by
    rw [enkfAnalysis_eq, covModel_add_const hN0, covModel_add h.cross, h.cov]
    rfl
  rw [ofEnsemble, hmean, hcov, hK]
  exact congrArg (Moments.mk _)
    (Kalman.joseph_gain obs.covObs_posDef (posSemidef_covModel hN A))

end Ensemble

/-! ### The run -/

/-- A cycle with an affine model and without noise on the state variables. -/
structure AffineCycle (n m N nt : ℕ) extends SerialCycle n m N nt where
  propagator : ℕ → Matrix (Fin n) (Fin n) ℝ
  forcing : ℕ → Fin n → ℝ
  affine : ∀ k x, forecastStepSingle k x = propagator k *ᵥ x + forcing k
  noiseless : ∀ i, isState i → sigQ i = 0
  members : 2 ≤ N

namespace AffineCycle

variable (c : AffineCycle n m N nt)

/-- The moments at time `t`: predictions, and observations at the scheduled steps, with their
columns. -/
def moments (upd : Matrix (Fin m) (Fin n) ℝ → Matrix (Fin m) (Fin m) ℝ →
      Matrix (Fin n) (Fin n) ℝ → Matrix (Fin n) (Fin n) ℝ) (s : Moments n) : ℕ → Moments n
  | 0 => s
  | t + 1 =>
      let forecast := (moments upd s t).predict (c.propagator t) (c.forcing t)
      if (t : ℤ) ∈ c.schedule.times then
        forecast.observe upd (c.column (below c.schedule.times t))
      else forecast

include c in
lemma cast_ne_zero : (N : ℝ) ≠ 0 :=
  Nat.cast_ne_zero.mpr (by have := c.members; omega)

/-- The forecast of all members at once. -/
lemma forecastStep_eq (k : ℕ) (A : Matrix (Fin n) (Fin N) ℝ) :
    c.forecastStep k A = c.propagator k * A + of fun i _ => c.forcing k i := by
  ext i j
  have hnoise : c.isState i → √c.dt * c.sigQ i * c.rho * c.carried k (j + 1) i = 0 := by
    intro hi
    rw [c.noiseless i hi, mul_zero, zero_mul, zero_mul]
  rw [SerialCycle.forecastStep, SerialCycle.forecastLoop_eq]
  simp only [of_apply, if_pos j.isLt, c.affine, Matrix.add_apply, Pi.add_apply]
  rw [ite_eq_right_iff.mpr hnoise, add_zero]
  rfl

/-- The forecast acts on the moments. -/
lemma ofEnsemble_forecastStep (k : ℕ) (A : Matrix (Fin n) (Fin N) ℝ) :
    Moments.ofEnsemble (c.forecastStep k A) =
      (Moments.ofEnsemble A).predict (c.propagator k) (c.forcing k) := by
  rw [c.forecastStep_eq, ofEnsemble_affine c.cast_ne_zero]

/-- The moments follow the recursion, as long as the analyses act on them as it does. -/
lemma ofEnsemble_trajectory (upd : Matrix (Fin m) (Fin n) ℝ → Matrix (Fin m) (Fin m) ℝ →
      Matrix (Fin n) (Fin n) ℝ → Matrix (Fin n) (Fin n) ℝ) (A : Matrix (Fin n) (Fin N) ℝ)
    {u : ℕ} (h : ∀ k < u, (k : ℤ) ∈ c.schedule.times →
      Moments.ofEnsemble (c.analysis k (c.forecastStep k (c.trajectory A k))) =
        (Moments.ofEnsemble (c.forecastStep k (c.trajectory A k))).observe upd
          (c.column (below c.schedule.times k))) :
    Moments.ofEnsemble (c.trajectory A u) = c.moments upd (Moments.ofEnsemble A) u := by
  induction u with
  | zero => rfl
  | succ u ih =>
      have hih := ih fun k hk => h k (Nat.lt_succ_of_lt hk)
      simp only [SerialCycle.trajectory, SerialCycle.cycle, moments]
      by_cases hmem : (u : ℤ) ∈ c.schedule.times
      · rw [if_pos hmem, if_pos hmem, h u (Nat.lt_succ_self u) hmem, ofEnsemble_forecastStep, hih]
      · rw [if_neg hmem, if_neg hmem, ofEnsemble_forecastStep, hih]

/-- What the file has, from the trajectory. -/
lemma run_moments {s : CycleState n N} {t u : ℕ} (hu : u ≤ t) {p : Moments n}
    (h : Moments.ofEnsemble (c.trajectory (s.ensemble 0) u) = p) :
    Moments.ofEnsemble ((c.run s t).ensemble u) = p ∧
      (0 < u → (c.run s t).ensembleMean u = p.mean) := by
  obtain ⟨hslice, hmean⟩ := c.run_spec s t u
  rw [if_pos hu] at hslice
  refine ⟨by rw [hslice, h], fun hpos => ?_⟩
  rw [hmean, if_pos ⟨hpos, hu⟩, ← h]
  rfl

variable {c}

lemma denkf_trajectory (hfilter : c.filter = .DEnKF) (A : Matrix (Fin n) (Fin N) ℝ) (u : ℕ) :
    Moments.ofEnsemble (c.trajectory A u) =
      c.moments Kalman.halfUpdate (Moments.ofEnsemble A) u := by
  refine c.ofEnsemble_trajectory _ A fun k hk hmem => ?_
  rw [SerialCycle.analysis, hfilter]
  exact ofEnsemble_denkfAnalysis c.cast_ne_zero _

/-- **The DEnKF**: at every time that has been reached, the slice and its mean have the moments of
the recursion with half of the gain. -/
theorem denkf_moments (hfilter : c.filter = .DEnKF) (s : CycleState n N) {t u : ℕ}
    (hu : u ≤ t) :
    Moments.ofEnsemble ((c.run s t).ensemble u) =
        c.moments Kalman.halfUpdate (Moments.ofEnsemble (s.ensemble 0)) u ∧
      (0 < u → (c.run s t).ensembleMean u =
        (c.moments Kalman.halfUpdate (Moments.ofEnsemble (s.ensemble 0)) u).mean) :=
  c.run_moments hu (denkf_trajectory hfilter _ u)

/-- **The EnKF**: as long as the draws have the moments that they stand for, the slices and their
means have those of the Kalman filter. -/
theorem enkf_moments (hfilter : c.filter = .EnKF) (s : CycleState n N) {t u : ℕ} (hu : u ≤ t)
    (hdraws : ∀ k < u, (k : ℤ) ∈ c.schedule.times →
      ExactDraws (c.column (below c.schedule.times k)) (c.draws k)
        (c.forecastStep k ((c.run s t).ensemble k))) :
    Moments.ofEnsemble ((c.run s t).ensemble u) =
        c.moments Kalman.update (Moments.ofEnsemble (s.ensemble 0)) u ∧
      (0 < u → (c.run s t).ensembleMean u =
        (c.moments Kalman.update (Moments.ofEnsemble (s.ensemble 0)) u).mean) := by
  refine c.run_moments hu (c.ofEnsemble_trajectory _ _ fun k hk hmem => ?_)
  have hexact := hdraws k hk hmem
  rw [(c.run_spec s t k).1, if_pos (hk.le.trans hu)] at hexact
  rw [SerialCycle.analysis, hfilter]
  exact ofEnsemble_enkfAnalysis c.members hexact

/-! ### Against the Kalman filter -/

/-- The Kalman filter has a covariance, below that of the recursion with half of the gain. -/
lemma posSemidef_below (c : AffineCycle n m N nt) {s : Moments n} (hs : s.cov.PosSemidef) (t : ℕ) :
    (c.moments Kalman.update s t).cov.PosSemidef ∧
      Kalman.Below (c.moments Kalman.update s t).cov (c.moments Kalman.halfUpdate s t).cov := by
  induction t with
  | zero => exact ⟨hs, Kalman.Below.refl _⟩
  | succ t ih =>
      have hpsd := ih.1.mul_mul_conjTranspose_same (c.propagator t)
      have hbelow := ih.2.predict (c.propagator t)
      simp only [moments]
      by_cases hmem : (t : ℤ) ∈ c.schedule.times
      · have hobs := (c.column (below c.schedule.times t)).covObs_posDef
        rw [if_pos hmem, if_pos hmem]
        exact ⟨Kalman.posSemidef_update hobs hpsd, hbelow.observe hobs hpsd⟩
      · rw [if_neg hmem, if_neg hmem]
        exact ⟨hpsd, hbelow⟩

/-- **The covariance of a run** is at no time below that of the Kalman filter. -/
theorem kalman_below (hfilter : c.filter = .DEnKF) (s : CycleState n N) {t u : ℕ}
    (hu : u ≤ t) :
    Kalman.Below (c.moments Kalman.update (Moments.ofEnsemble (s.ensemble 0)) u).cov
      (covModel ((c.run s t).ensemble u)) := by
  have hcov : covModel ((c.run s t).ensemble u) =
      (c.moments Kalman.halfUpdate (Moments.ofEnsemble (s.ensemble 0)) u).cov :=
    congrArg Moments.cov (c.run_moments hu (denkf_trajectory hfilter _ u)).1
  rw [hcov]
  exact (c.posSemidef_below (posSemidef_covModel c.members _) u).2

/-! ### The square root filters -/

/-- An analysis that adds an image of the departures of the members to the mean keeps that image
of the anomalies alone. -/
lemma perturbations_of_departures (hN : (N : ℝ) ≠ 0) (obs : LinearObs n m)
    (A : Matrix (Fin n) (Fin N) ℝ) (G : Matrix (Fin n) (Fin m) ℝ) :
    perturbations (of fun i ens => ensembleMean A i +
      (G * of fun r ens => obs.observationVec r - (obs.h * A) r ens) i ens) =
        -G * (obs.h * perturbations A) := by
  have hdep : (of fun r ens => obs.observationVec r - (obs.h * A) r ens) =
      (of fun r (_ : Fin N) => obs.observationVec r) - obs.h * A := rfl
  have hconst : G * (of fun r (_ : Fin N) => obs.observationVec r) =
      of fun i (_ : Fin N) => (G *ᵥ obs.observationVec) i := rfl
  have hcols : (of fun i ens => ensembleMean A i +
      (G * of fun r ens => obs.observationVec r - (obs.h * A) r ens) i ens) =
        -G * (obs.h * A) + of fun i _ => (ensembleMean A + G *ᵥ obs.observationVec) i := by
    ext i ens
    rw [hdep, Matrix.mul_sub, hconst, Matrix.neg_mul]
    simp only [of_apply, Matrix.sub_apply, Matrix.add_apply, Matrix.neg_apply, Pi.add_apply]
    ring
  rw [hcols, perturbations_add_const hN, perturbations_mul, perturbations_mul]

/-- Both square root filters are such analyses, whatever the decomposition returns. -/
lemma perturbations_analysis (hfilter : c.filter = .EnRSKF ∨ c.filter = .EnTKF) (k : ℕ)
    (A : Matrix (Fin n) (Fin N) ℝ) : ∃ G : Matrix (Fin n) (Fin m) ℝ,
      perturbations (c.analysis k A) =
        G * ((c.column (below c.schedule.times k)).h * perturbations A) := by
  set obs := c.column (below c.schedule.times k) with hobs
  rcases hfilter with hfilter | hfilter
  · rw [SerialCycle.analysis, hfilter, ← hobs, LinearObs.serialAnalysis, obs.enrskfAnalysis_eq]
    exact ⟨_, perturbations_of_departures c.cast_ne_zero obs A _⟩
  · set s := c.svd (obs.entkfGram (covModelSqrt A)) with hs
    have hgain : obs.entkfAnalysis c.svd (covModelSqrt A) A = of fun i ens =>
        ensembleMean A i + (covModelSqrt A * (s.u * diagonal (fun i => 1 / (s.sig i + 1)) *
          s.uᵀ * ((obs.h * covModelSqrt A)ᵀ * obs.covObs⁻¹)) *
            of fun r ens => obs.observationVec r - (obs.h * A) r ens) i ens := by
      rw [LinearObs.entkfAnalysis, ← hs]
      simp only [solve, Matrix.mul_assoc]
    rw [SerialCycle.analysis, hfilter, ← hobs, LinearObs.serialAnalysis, hgain]
    exact ⟨_, perturbations_of_departures c.cast_ne_zero obs A _⟩

/-- The forecast has an image of the anomalies. -/
lemma rank_forecastStep_le (c : AffineCycle n m N nt) (k : ℕ) (A : Matrix (Fin n) (Fin N) ℝ) :
    (perturbations (c.forecastStep k A)).rank ≤ (perturbations A).rank := by
  rw [c.forecastStep_eq, perturbations_add_const c.cast_ne_zero, perturbations_mul]
  exact rank_mul_le_right _ _

/-- An analysis has no more directions than were observed, and no new ones. -/
lemma rank_analysis_le (hfilter : c.filter = .EnRSKF ∨ c.filter = .EnTKF) (k : ℕ)
    (A : Matrix (Fin n) (Fin N) ℝ) :
    (perturbations (c.analysis k A)).rank ≤ (c.column (below c.schedule.times k)).h.rank ∧
      (perturbations (c.analysis k A)).rank ≤ (perturbations A).rank := by
  obtain ⟨G, hG⟩ := perturbations_analysis hfilter k A
  rw [hG, ← Matrix.mul_assoc]
  refine ⟨?_, rank_mul_le_right _ _⟩
  calc (G * (c.column (below c.schedule.times k)).h * perturbations A).rank
      ≤ (G * (c.column (below c.schedule.times k)).h).rank := rank_mul_le_left _ _
    _ ≤ _ := rank_mul_le_right _ _

/-- A cycle makes no new directions. -/
lemma rank_cycle_le (hfilter : c.filter = .EnRSKF ∨ c.filter = .EnTKF) (k : ℕ)
    (A : Matrix (Fin n) (Fin N) ℝ) :
    (perturbations (c.cycle k A)).rank ≤ (perturbations A).rank := by
  have hforecast := c.rank_forecastStep_le k A
  rw [SerialCycle.cycle]
  split_ifs with hmem
  · exact (rank_analysis_le hfilter k _).2.trans hforecast
  · exact hforecast

/-- **The square root filters**: after an observation the spread never has more directions than
were observed then. -/
theorem sqrt_rank_le (hfilter : c.filter = .EnRSKF ∨ c.filter = .EnTKF) (s : CycleState n N)
    {k u t : ℕ} (hk : (k : ℤ) ∈ c.schedule.times) (hku : k < u) (hut : u ≤ t) :
    (perturbations ((c.run s t).ensemble u)).rank ≤
      (c.column (below c.schedule.times k)).h.rank := by
  rw [(c.run_spec s t u).1, if_pos hut]
  clear hut
  induction u, hku using Nat.le_induction with
  | base =>
      rw [SerialCycle.trajectory, SerialCycle.cycle, if_pos hk]
      exact (rank_analysis_le hfilter k _).1
  | succ u hku ih => exact (rank_cycle_le hfilter u _).trans ih

/-! ### Two steps -/

lemma sorted_second : ([1] : List ℤ).SortedLT := by decide

lemma inGrid_second : ∀ k ∈ ([1] : List ℤ), 0 ≤ k ∧ k ≤ (2 : ℕ) := by decide

lemma two_le_five : 2 ≤ 5 := by decide

/-- A spread in the first of two states, and draws that have nothing in common with it. -/
def pairs : Matrix (Fin 2) (Fin 5) ℤ := !![1, 1, -1, -1, 0; 0, 0, 0, 0, 0]

def pairDraws : Matrix (Fin 2) (Fin 5) ℤ := !![1, -1, 1, -1, 0; 1, -1, -1, 1, 0]

/-- A shear of two states, observed at the second of two steps. -/
def shear (filter : FilterType) : AffineCycle 2 2 5 2 where
  filter := filter
  schedule := ⟨⟨[1], sorted_second⟩, inGrid_second⟩
  forecastStepSingle _ x := !![1, 1; 0, 1] *ᵥ x + ![0, 1]
  isState _ := true
  sigQ := 0
  alpha := 0
  dt := 1
  rho := 1
  noise := 0
  field _ _ := 0
  column _ := LinearObs.observeBoth ![1, 1]
  svd _ := ⟨1, 0, 1⟩
  draws _ := (ofInt pairDraws)ᵀ
  propagator _ := !![1, 1; 0, 1]
  forcing _ := ![0, 1]
  affine _ _ := rfl
  noiseless _ _ := rfl
  members := two_le_five

/-- The file before the loop. -/
def pairsFile : CycleState 2 5 := ⟨0, fun _ => ofInt pairs, fun _ => 0⟩

lemma exactDraws_pairs {A : Matrix (Fin 2) (Fin 5) ℝ} {M : Matrix (Fin 2) (Fin 2) ℝ}
    (h : perturbations A = M * ofInt pairs) :
    ExactDraws (LinearObs.observeBoth ![1, 1]) (ofInt pairDraws)ᵀ A where
  mean := ensembleMean_ofInt (by decide)
  cov := by
    have hgram : pairDraws * pairDrawsᵀ = diagonal fun _ => 4 := by decide
    show covModel (ofInt pairDraws) = 1
    rw [covModel, perturbations_ofInt (by decide)]
    show (1 / (((5 : ℕ) : ℝ) - 1)) • (ofInt pairDraws * ofInt pairDrawsᵀ) = 1
    rw [ofInt_mul, hgram, ofInt_diagonal, ← diagonal_smul, ← diagonal_one]
    congr 1
    funext i
    norm_num
  cross := by
    have hcross : pairs * pairDrawsᵀ = 0 := by decide
    show perturbations A * (perturbations (ofInt pairDraws))ᵀ = 0
    rw [h, perturbations_ofInt (M := pairDraws) (by decide)]
    show M * ofInt pairs * ofInt pairDrawsᵀ = 0
    rw [Matrix.mul_assoc, ofInt_mul, hcross, ofInt, Matrix.map_zero _ Int.cast_zero,
      Matrix.mul_zero]

theorem enkf_moments_shear :
    Moments.ofEnsemble (((shear .EnKF).run pairsFile 2).ensemble 2) =
        (shear .EnKF).moments Kalman.update (Moments.ofEnsemble (ofInt pairs)) 2 ∧
      ((shear .EnKF).run pairsFile 2).ensembleMean 2 = ((shear .EnKF).moments
        Kalman.update (Moments.ofEnsemble (ofInt pairs)) 2).mean := by
  have hzero : ((0 : ℕ) : ℤ) ∉ (shear .EnKF).schedule.times := by decide
  refine And.imp_right (fun h => h two_pos)
    (enkf_moments (c := shear .EnKF) rfl pairsFile le_rfl fun k hk hmem => ?_)
  obtain rfl : k = 1 := by exact_mod_cast List.mem_singleton.mp hmem
  have hfirst : ((shear .EnKF).run pairsFile 2).ensemble 1 =
      (shear .EnKF).forecastStep 0 (ofInt pairs) := by
    rw [((shear .EnKF).run_spec pairsFile 2 1).1, if_pos one_le_two, SerialCycle.trajectory,
      SerialCycle.cycle, if_neg hzero]
    rfl
  refine exactDraws_pairs (M := !![1, 1; 0, 1] * !![1, 1; 0, 1]) ?_
  have hmembers := cast_ne_zero (shear .EnKF)
  rw [hfirst, forecastStep_eq, forecastStep_eq, perturbations_add_const hmembers,
    perturbations_mul, perturbations_add_const hmembers, perturbations_mul,
    perturbations_ofInt (by decide), Matrix.mul_assoc]
  rfl

theorem denkf_moments_shear :
    Moments.ofEnsemble (((shear .DEnKF).run pairsFile 2).ensemble 2) =
        (shear .DEnKF).moments Kalman.halfUpdate (Moments.ofEnsemble (ofInt pairs)) 2 ∧
      ((shear .DEnKF).run pairsFile 2).ensembleMean 2 = ((shear .DEnKF).moments
        Kalman.halfUpdate (Moments.ofEnsemble (ofInt pairs)) 2).mean :=
  ⟨(denkf_moments (c := shear .DEnKF) rfl pairsFile le_rfl).1,
    (denkf_moments (c := shear .DEnKF) rfl pairsFile le_rfl).2 two_pos⟩

theorem kalman_below_shear :
    Kalman.Below ((shear .DEnKF).moments Kalman.update (Moments.ofEnsemble (ofInt pairs)) 2).cov
      (covModel (((shear .DEnKF).run pairsFile 2).ensemble 2)) :=
  kalman_below (c := shear .DEnKF) rfl pairsFile le_rfl

theorem sqrt_rank_le_shear :
    (perturbations (((shear .EnRSKF).run pairsFile 2).ensemble 2)).rank ≤
      (1 : Matrix (Fin 2) (Fin 2) ℝ).rank :=
  sqrt_rank_le (c := shear .EnRSKF) (k := 1) (.inl rfl) pairsFile (List.mem_singleton.mpr rfl)
    one_lt_two le_rfl

end AffineCycle

end

end Icesee
