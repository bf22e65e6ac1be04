import Icesee.Analysis.RowUpdate
import Icesee.Driver.SerialMoments
import Icesee.Driver.Timeline

/-!
The spread of the ensemble in a full-parallel run.

`X5` moves all members by one vector, so an analysis does nothing to the anomalies but inflate
the rows that the ranks take for parameters. With an affine model the anomalies in the step files
follow a recursion in which no observation occurs (`stored_perturbations`). Without inflation
their covariance is that of a run that observes nothing, and never below that of the Kalman
filter (`stored_covModel`). If the model stands still, every analysis takes a quarter off what the
retained vectors see of the innovation, whatever the error of the observation is
(`stored_innovation`).
-/

namespace Icesee

open Matrix Counting Handler Tiling

variable {n m N : ℕ}

/-- A full-parallel run with an affine model: what `compute_analysis_update` reads of the
parameters, the initial ensemble, the model with what it and the noise add to the members, by
step, and the operator and the observations, by column. -/
structure FullCycle (m : ℕ) extends FullConfig where
  totalStateParamVars : ℕ
  numStateVars : ℕ
  vecInputs : List String
  inflationFactor : ℝ
  vars_pos : 0 < totalStateParamVars
  vars_dvd : totalStateParamVars ∣ nd
  numStateVars_le : numStateVars ≤ totalStateParamVars
  initial : Matrix (Fin nd) (Fin nens) ℝ
  propagator : ℕ → Matrix (Fin nd) (Fin nd) ℝ
  added : ℕ → Matrix (Fin nd) (Fin nens) ℝ
  operator : ℕ → Matrix (Fin m) (Fin nd) ℝ
  huObs : ℕ → Fin nd → ℝ
  svd : Matrix (Fin m) (Fin nens) ℝ → SVD (Fin m) (Fin (min m nens)) (Fin nens) ℝ

noncomputable section

/-! ### Rows about their means -/

/-- Every row is scaled about its mean. -/
def scaleRows (factor : Fin n → ℝ) (A : Matrix (Fin n) (Fin N) ℝ) : Matrix (Fin n) (Fin N) ℝ :=
  of fun i j => ensembleMean A i + perturbations A i j * factor i

section Rows

variable {A : Matrix (Fin n) (Fin N) ℝ}

lemma scaleRows_eq (factor : Fin n → ℝ) : scaleRows factor A =
    diagonal factor * perturbations A + of fun i _ => ensembleMean A i := by
  ext i j
  rw [Matrix.add_apply, diagonal_mul, mul_comm, add_comm]
  rfl

/-- The factor `1` does nothing. -/
lemma scaleRows_one : scaleRows (fun _ => 1) A = A := by
  rw [scaleRows_eq, diagonal_one, Matrix.one_mul, perturbations_eq, sub_add_cancel]

variable (hN : (N : ℝ) ≠ 0)

include hN

lemma perturbations_scaleRows (factor : Fin n → ℝ) :
    perturbations (scaleRows factor A) = diagonal factor * perturbations A := by
  have hidem : perturbations (perturbations A) = perturbations A := by
    rw [perturbations_eq, ensembleMean_perturbations hN]
    exact sub_zero _
  rw [scaleRows_eq, perturbations_add_const hN, perturbations_mul, hidem]

end Rows

/-! ### A multiplication with `X5` -/

section X5

variable {H : Matrix (Fin m) (Fin n) ℝ} {A : Matrix (Fin n) (Fin N) ℝ}
  {svd : Matrix (Fin m) (Fin N) ℝ → SVD (Fin m) (Fin (min m N)) (Fin N) ℝ} {y : Fin n → ℝ}

/-- What is decomposed for `X5`. -/
def decomposed (svd : Matrix (Fin m) (Fin N) ℝ → SVD (Fin m) (Fin (min m N)) (Fin N) ℝ)
    (H : Matrix (Fin m) (Fin n) ℝ) (A : Matrix (Fin n) (Fin N) ℝ) :
    SVD (Fin m) (Fin (min m N)) (Fin N) ℝ :=
  svd (H * perturbations A + H * perturbations A)

/-- The projection onto the retained left vectors. -/
def retainedProjection (s : SVD (Fin m) (Fin (min m N)) (Fin N) ℝ) : Matrix (Fin m) (Fin m) ℝ :=
  retained s * (retained s)ᵀ

lemma retainedProjection_mul_self {M : Matrix (Fin m) (Fin N) ℝ}
    {s : SVD (Fin m) (Fin (min m N)) (Fin N) ℝ} (h : IsSVD M s) :
    retainedProjection s * retainedProjection s = retainedProjection s := by
  rw [retainedProjection, ← reassemble_indicator, h.reassemble_mul]
  congr 1
  funext i
  split_ifs <;> simp

/-- The move of the members for full observations. -/
def x5Move (svd : Matrix (Fin m) (Fin N) ℝ → SVD (Fin m) (Fin (min m N)) (Fin N) ℝ)
    (H : Matrix (Fin m) (Fin n) ℝ) (A : Matrix (Fin n) (Fin N) ℝ) (y : Fin n → ℝ) : Fin n → ℝ :=
  A *ᵥ x5Weights H A (decomposed svd H A) (H *ᵥ y - H *ᵥ ensembleMean A)

/-- All members move by one vector. -/
lemma mul_enkfX5 : (A * enkfX5 svd H A fun i => some (y i)) =
    A + of fun i _ => x5Move svd H A y i := by
  rw [enkfX5_eq_weights, Matrix.mul_add, Matrix.mul_one, add_comm]
  rfl

/-- The operator sees a quarter of the projected innovation. -/
lemma mulVec_x5Move (hN : (N : ℝ) ≠ 0)
    (hsvd : IsSVD (H * perturbations A + H * perturbations A) (decomposed svd H A)) :
    H *ᵥ x5Move svd H A y = (1 / 4 : ℝ) •
      retainedProjection (decomposed svd H A) *ᵥ (H *ᵥ y - H *ᵥ ensembleMean A) := by
  have hsum : ∑ i, x5Weights H A (decomposed svd H A) (H *ᵥ y - H *ᵥ ensembleMean A) i = 0 :=
    sum_observed_weights hN _
  rw [x5Move, mulVec_eq_perturbations hsum, mulVec_mulVec, mulVec_x5Weights hsvd]
  rfl

end X5

/-! ### The run -/

namespace FullCycle

variable (c : FullCycle m)

/-- `compute_analysis_update` does not read the observed variables. -/
abbrev prm : UpdateParams ℝ where
  nd := c.nd
  nens := c.nens
  totalStateParamVars := c.totalStateParamVars
  numStateVars := c.numStateVars
  vecInputs := c.vecInputs
  allObserved := []
  inflationFactor := c.inflationFactor
  nens_pos := c.nens_pos
  vars_pos := c.vars_pos
  vars_dvd := c.vars_dvd
  numStateVars_le := c.numStateVars_le

/-- The rows of the ranks. -/
def cuts : Cuts c.nd c.worldSize := partitionCuts c.nd c.worldSize c.worldSize_pos

/-- The ensemble of the columns that are read. -/
def ofColumns (cols : List (ℕ → ℝ)) : Matrix (Fin c.nd) (Fin c.nens) ℝ :=
  of fun i j => cols.getD j 0 i

/-- `X5` of a rank. -/
def x5 (km : ℕ) (means : ℕ → ℝ) (cols : List (ℕ → ℝ)) (rank : Fin c.worldSize) :
    Matrix (Fin c.nens) (Fin c.nens) ℝ :=
  computeX5Modified c.svd (computeX5Utils c.cuts (c.operator km) (c.huObs km)
    (fun i => means i) (c.ofColumns cols) rank)

/-- The rows that the ranks write, each with its own `X5`. -/
def analysisUpdates (km : ℕ) (means : ℕ → ℝ) (cols : List (ℕ → ℝ)) : ℕ → Fin c.nens → ℝ :=
  c.cuts.stack 0 fun r =>
    if hr : r < c.worldSize then
      c.prm.computeAnalysisUpdate (c.x5 km means cols ⟨r, hr⟩) (c.cuts.size r)
        fun i j => cols.getD j 0 (c.cuts.cut r + i)
    else 0

/-- The model and the filter, on the columns of the file. -/
def kernels : FullKernels ℝ where
  initial j i := if h : i < c.nd ∧ j < c.nens then c.initial ⟨i, h.1⟩ ⟨j, h.2⟩ else 0
  forecast k j col i :=
    if h : i < c.nd ∧ j < c.nens then
      (c.propagator k *ᵥ fun l => col l) ⟨i, h.1⟩ + c.added k ⟨i, h.1⟩ ⟨j, h.2⟩
    else 0
  mean cols i := (cols.map fun col => col i).sum / c.nens
  update _ km means cols j i :=
    if h : j < c.nens then c.analysisUpdates km means cols i ⟨j, h⟩ else 0

/-- The factors of the inflation: every rank takes its rows behind the states for parameters. -/
def factor (i : Fin c.nd) : ℝ :=
  c.cuts.stack 1 (fun r l =>
    if c.cuts.size r / c.totalStateParamVars * c.numStateVars ≤ l then c.inflationFactor else 1) i

/-- The forecast of all members. -/
def forecast (k : ℕ) (A : Matrix (Fin c.nd) (Fin c.nens) ℝ) : Matrix (Fin c.nd) (Fin c.nens) ℝ :=
  c.propagator k * A + c.added k

/-- The analysis of all members. -/
def analysis (km : ℕ) (A : Matrix (Fin c.nd) (Fin c.nens) ℝ) :
    Matrix (Fin c.nd) (Fin c.nens) ℝ :=
  scaleRows c.factor (A * enkfX5 c.svd (c.operator km) A fun i => some (c.huObs km i))

variable (obs : ObsIndex)

/-- The ensemble at time `t`. -/
def trajectory : ℕ → Matrix (Fin c.nd) (Fin c.nens) ℝ
  | 0 => c.initial
  | k + 1 =>
      if c.analysed obs k then c.analysis (below obs.times k) (c.forecast k (trajectory k))
      else c.forecast k (trajectory k)

/-- The anomalies at time `t`. -/
def anomalies : ℕ → Matrix (Fin c.nd) (Fin c.nens) ℝ
  | 0 => perturbations c.initial
  | k + 1 =>
      let forecast := c.propagator k * anomalies k + perturbations (c.added k)
      if c.analysed obs k then diagonal c.factor * forecast else forecast

/-- The run comes to step `t` with an ensemble in the slice of the step. -/
def Stored (dir : Directory ℝ) (t : ℕ) (A : Matrix (Fin c.nd) (Fin c.nens) ℝ) : Prop :=
  ∃ s, c.timelineRun c.kernels obs dir t = some s ∧
    ∀ (i : Fin c.nd) (j : Fin c.nens), cell c.toIOConfig s.handler t i j = some (A i j)

variable {c}

lemma cast_ne_zero (c : FullCycle m) : (c.nens : ℝ) ≠ 0 := Nat.cast_ne_zero.mpr c.nens_pos.ne'

/-! ### The file holds the trajectory -/

/-- The columns of the file as a matrix. -/
def toMatrix (c : FullCycle m) (ens : ℕ → ℕ → ℝ) : Matrix (Fin c.nd) (Fin c.nens) ℝ :=
  of fun i j => ens j i

lemma ofColumns_columns (ens : ℕ → ℕ → ℝ) : c.ofColumns (c.columns ens) = c.toMatrix ens := by
  ext i j
  simp [ofColumns, FullConfig.columns, toMatrix, trim]

lemma mean_columns (ens : ℕ → ℕ → ℝ) (i : Fin c.nd) :
    trim c.toIOConfig (c.kernels.mean (c.columns ens)) i = ensembleMean (c.toMatrix ens) i := by
  have hcols : (c.columns ens).map (fun col => col i) =
      (List.range c.nens).map fun j => ens j i := by
    simp [FullConfig.columns, trim, Function.comp_def]
  rw [trim, if_pos i.isLt]
  show ((c.columns ens).map fun col => col i).sum / (c.nens : ℝ) =
    (∑ j : Fin c.nens, ens j i) / c.nens
  rw [hcols, Fin.sum_univ_eq_sum_range fun j => ens j i]
  rfl

/-- A row that is not raised. -/
lemma rowUpdate_of_not_clamped {f b : ℝ} {I C : Prop} [Decidable I] [Decidable C] (hC : ¬ C)
    (a : Fin N → ℝ) :
    rowUpdate f b I C a = fun j => rowMean a + (a j - rowMean a) * if I then f else 1 := by
  funext j
  rw [rowUpdate, if_neg hC]
  split_ifs with hI
  · rfl
  · rw [mul_one, add_sub_cancel]

/-- The ranks together compute the analysis. -/
lemma analysisUpdates_eq (hthick : ∀ var ∈ c.vecInputs, var ∉ UpdateParams.thicknessVars)
    (km : ℕ) {means : ℕ → ℝ} {cols : List (ℕ → ℝ)}
    (hmeans : ∀ i : Fin c.nd, means i = ensembleMean (c.ofColumns cols) i) (i : Fin c.nd)
    (j : Fin c.nens) :
    c.analysisUpdates km means cols i j = c.analysis km (c.ofColumns cols) i j := by
  have hclamp : ∀ ndim i, ¬ VarBlocks.Marked
      (IsThickness UpdateParams.thicknessVars c.vecInputs) ndim i := by
    rintro ndim i ⟨v, ⟨var, hvar, hmem⟩, -⟩
    exact hthick var (List.mem_of_getElem? hvar) hmem
  have hx5 : ∀ rank, c.x5 km means cols rank =
      enkfX5 c.svd (c.operator km) (c.ofColumns cols) fun i => some (c.huObs km i) := by
    intro rank
    rw [x5, funext hmeans]
    exact computeX5Modified_computeX5Utils c.cuts _ _ (fun _ h => by cases h)
      (fun _ _ h => Option.some.inj h) rank
  obtain ⟨i, hi⟩ := i
  obtain ⟨r, hr, l, hl, rfl⟩ := c.cuts.exists_block hi
  rw [analysisUpdates, c.cuts.stack_apply _ _ hr hl]
  simp only [dif_pos hr, hx5]
  rw [UpdateParams.computeAnalysisUpdate, UpdateParams.blockUpdate_apply,
    rowUpdate_of_not_clamped (hclamp _ _), analysis, scaleRows, of_apply, factor,
    c.cuts.stack_apply _ _ hr hl]
  rfl

/-! ### The file holds the trajectory -/

lemma toMatrix_forecastOf (k : ℕ) (ens : ℕ → ℕ → ℝ) :
    c.toMatrix (c.forecastOf c.kernels k ens) = c.forecast k (c.toMatrix ens) := by
  ext i j
  have hcol : (fun l : Fin c.nd => trim c.toIOConfig (ens j) l) = fun l : Fin c.nd => ens j l :=
    funext fun l => if_pos l.isLt
  show (if h : (i : ℕ) < c.nd ∧ (j : ℕ) < c.nens then
    (c.propagator k *ᵥ fun l => trim c.toIOConfig (ens j) l) ⟨i, h.1⟩ +
      c.added k ⟨i, h.1⟩ ⟨j, h.2⟩ else 0) = _
  rw [dif_pos ⟨i.isLt, j.isLt⟩, hcol]
  rfl

lemma toMatrix_analysisOf (hthick : ∀ var ∈ c.vecInputs, var ∉ UpdateParams.thicknessVars)
    (k km : ℕ) (ens : ℕ → ℕ → ℝ) :
    c.toMatrix (c.analysisOf c.kernels k km ens) = c.analysis km (c.toMatrix ens) := by
  ext i j
  have hmeans : ∀ i : Fin c.nd, trim c.toIOConfig (c.kernels.mean (c.columns ens)) i =
      ensembleMean (c.ofColumns (c.columns ens)) i := fun i => by
    rw [mean_columns, ofColumns_columns]
  have hupdates := analysisUpdates_eq hthick km hmeans i j
  rw [ofColumns_columns] at hupdates
  rw [← hupdates]
  show (if h : (j : ℕ) < c.nens then c.analysisUpdates km
    (trim c.toIOConfig (c.kernels.mean (c.columns ens))) (c.columns ens) i ⟨j, h⟩ else 0) = _
  rw [dif_pos j.isLt]

/-- The ensemble that the store is to hold is the trajectory. -/
lemma toMatrix_validAt (hthick : ∀ var ∈ c.vecInputs, var ∉ UpdateParams.thicknessVars)
    (obs : ObsIndex) (t : ℕ) :
    c.toMatrix (c.validAt c.kernels obs t) = c.trajectory obs t := by
  induction t with
  | zero =>
      ext i j
      exact dif_pos ⟨i.isLt, j.isLt⟩
  | succ k ih =>
      rw [FullConfig.validAt, trajectory]
      split_ifs with hk
      · rw [toMatrix_analysisOf hthick, toMatrix_forecastOf, ih]
      · rw [toMatrix_forecastOf, ih]

/-- The settings under which a run is followed to step `t`: no variable is a thickness, and no
round comes back to a batch that was left. -/
structure Followed (c : FullCycle m) (t : ℕ) : Prop where
  lt_nt : t < c.nt
  not_thickness : ∀ var ∈ c.vecInputs, var ∉ UpdateParams.thicknessVars
  oneBatchOrRound : ∀ k < t, c.OneBatchOrRound k

/-- The run comes to its steps with the trajectory in the file. -/
lemma Followed.stored {t : ℕ} (h : c.Followed t) (obs : ObsIndex) (dir : Directory ℝ) :
    c.Stored obs dir t (c.trajectory obs t) := by
  obtain ⟨s, hs, hat⟩ := c.timelineRun_spec c.kernels obs dir h.lt_nt h.oneBatchOrRound
  refine ⟨s, hs, fun i j => ?_⟩
  rw [hat.holds i i.isLt j j.isLt, ← toMatrix_validAt h.not_thickness]
  rfl

/-! ### The anomalies -/

lemma perturbations_forecast (k : ℕ) (A : Matrix (Fin c.nd) (Fin c.nens) ℝ) :
    perturbations (c.forecast k A) =
      c.propagator k * perturbations A + perturbations (c.added k) := by
  rw [forecast, perturbations_add, perturbations_mul]

lemma perturbations_analysis (km : ℕ) (A : Matrix (Fin c.nd) (Fin c.nens) ℝ) :
    perturbations (c.analysis km A) = diagonal c.factor * perturbations A := by
  rw [analysis, perturbations_scaleRows c.cast_ne_zero, mul_enkfX5,
    perturbations_add_const c.cast_ne_zero]

lemma perturbations_trajectory (obs : ObsIndex) (t : ℕ) :
    perturbations (c.trajectory obs t) = c.anomalies obs t := by
  induction t with
  | zero => rfl
  | succ k ih =>
      rw [trajectory, anomalies]
      split_ifs with hk
      · rw [perturbations_analysis, perturbations_forecast, ih]
      · rw [perturbations_forecast, ih]

/-- **The anomalies in the file** do not depend on what is observed. -/
theorem stored_perturbations (c : FullCycle m) {t : ℕ} (h : c.Followed t) (obs : ObsIndex)
    (dir : Directory ℝ) :
    ∃ A, c.Stored obs dir t A ∧ perturbations A = c.anomalies obs t :=
  ⟨_, h.stored obs dir, perturbations_trajectory obs t⟩

/-! ### Against the Kalman filter -/

/-- The covariance at time `t` if nothing is observed. -/
def freeCov (c : FullCycle m) : ℕ → Matrix (Fin c.nd) (Fin c.nd) ℝ
  | 0 => covModel c.initial
  | k + 1 => c.propagator k * freeCov c k * (c.propagator k)ᵀ

/-- The covariance of the Kalman filter, with error covariances by column. -/
def kalmanCov (c : FullCycle m) (covObs : ℕ → Matrix (Fin m) (Fin m) ℝ) (obs : ObsIndex) :
    ℕ → Matrix (Fin c.nd) (Fin c.nd) ℝ
  | 0 => covModel c.initial
  | k + 1 =>
      let forecast := c.propagator k * kalmanCov c covObs obs k * (c.propagator k)ᵀ
      if c.analysed obs k then
        Kalman.update (c.operator (below obs.times k)) (covObs (below obs.times k)) forecast
      else forecast

/-- No inflation, and the model adds the same to all members. -/
structure Plain (c : FullCycle m) : Prop where
  factor_one : c.inflationFactor = 1
  added_eq : ∀ k, perturbations (c.added k) = 0

lemma factor_eq_one (h : c.inflationFactor = 1) : c.factor = fun _ => 1 := by
  funext i
  obtain ⟨i, hi⟩ := i
  obtain ⟨r, hr, l, hl, rfl⟩ := c.cuts.exists_block hi
  rw [factor, c.cuts.stack_apply _ _ hr hl, h, ite_self]

lemma Plain.covModel_trajectory (h : c.Plain) (obs : ObsIndex) (t : ℕ) :
    covModel (c.trajectory obs t) = c.freeCov t := by
  have hstep : ∀ t, c.anomalies obs (t + 1) = c.propagator t * c.anomalies obs t := by
    intro t
    rw [anomalies, factor_eq_one h.factor_one, h.added_eq, add_zero, diagonal_one, Matrix.one_mul,
      ite_self]
  induction t with
  | zero => rfl
  | succ t ih =>
      rw [freeCov, ← ih, covModel, covModel, perturbations_trajectory, perturbations_trajectory,
        hstep, transpose_mul, Matrix.mul_smul, Matrix.smul_mul]
      simp only [Matrix.mul_assoc]

/-- The Kalman filter has a covariance, below that without observations. -/
lemma kalmanCov_below (hN : 2 ≤ c.nens) {covObs : ℕ → Matrix (Fin m) (Fin m) ℝ}
    (hobs : ∀ km, (covObs km).PosDef) (obs : ObsIndex) (t : ℕ) :
    (c.kalmanCov covObs obs t).PosSemidef ∧
      Kalman.Below (c.kalmanCov covObs obs t) (c.freeCov t) := by
  induction t with
  | zero => exact ⟨posSemidef_covModel hN _, Kalman.Below.refl _⟩
  | succ k ih =>
      have hpsd := ih.1.mul_mul_conjTranspose_same (c.propagator k)
      have hbelow := ih.2.predict (c.propagator k)
      rw [kalmanCov, freeCov]
      split_ifs with hk
      · exact ⟨Kalman.posSemidef_update (hobs _) hpsd,
          (Kalman.update_below (hobs _) hpsd).trans hbelow⟩
      · exact ⟨hpsd, hbelow⟩

/-- **The covariance in the file** is that of a run which observes nothing, and never below that
of the Kalman filter. -/
theorem stored_covModel (c : FullCycle m) (hplain : c.Plain) (hN : 2 ≤ c.nens) {t : ℕ}
    (h : c.Followed t) (obs : ObsIndex) (dir : Directory ℝ) :
    ∃ A, c.Stored obs dir t A ∧ covModel A = c.freeCov t ∧
      ∀ covObs : ℕ → Matrix (Fin m) (Fin m) ℝ, (∀ km, (covObs km).PosDef) →
        Kalman.Below (c.kalmanCov covObs obs t) (covModel A) := by
  have hcov := hplain.covModel_trajectory obs t
  refine ⟨_, h.stored obs dir, hcov, fun covObs hobs => ?_⟩
  rw [hcov]
  exact (kalmanCov_below hN hobs obs t).2

/-! ### A model that stands still -/

/-- The model does nothing, nothing is added or inflated, and all columns are the same. -/
structure Still (c : FullCycle m) (H : Matrix (Fin m) (Fin c.nd) ℝ) (y : Fin c.nd → ℝ) :
    Prop where
  propagator_eq : ∀ k, c.propagator k = 1
  added_eq : ∀ k, c.added k = 0
  factor_one : c.inflationFactor = 1
  operator_eq : ∀ km, c.operator km = H
  huObs_eq : ∀ km, c.huObs km = y

/-- The analyses before step `t`. -/
def analyses (c : FullCycle m) (obs : ObsIndex) (t : ℕ) : ℕ :=
  Nat.count (fun k => c.analysed obs k) t

section Still

variable {H : Matrix (Fin m) (Fin c.nd) ℝ} {y : Fin c.nd → ℝ} {A : Matrix (Fin c.nd) (Fin c.nens) ℝ}

lemma Still.forecast_eq (h : c.Still H y) (k : ℕ) : c.forecast k A = A := by
  rw [forecast, h.propagator_eq, h.added_eq, Matrix.one_mul, add_zero]

lemma Still.analysis_eq (h : c.Still H y) (km : ℕ) :
    c.analysis km A = A + of fun i _ => x5Move c.svd H A y i := by
  rw [analysis, factor_eq_one h.factor_one, scaleRows_one, h.operator_eq, h.huObs_eq, mul_enkfX5]

lemma Still.perturbations_trajectory (h : c.Still H y) (obs : ObsIndex) (t : ℕ) :
    perturbations (c.trajectory obs t) = perturbations c.initial := by
  induction t with
  | zero => rfl
  | succ k ih =>
      rw [trajectory, h.forecast_eq, h.analysis_eq]
      split_ifs with hk
      · rw [perturbations_add_const c.cast_ne_zero, ih]
      · exact ih

/-- What is decomposed is the same at every analysis. -/
lemma Still.decomposed_trajectory (h : c.Still H y) (obs : ObsIndex) (t : ℕ) :
    decomposed c.svd H (c.trajectory obs t) = decomposed c.svd H c.initial := by
  simp only [decomposed, h.perturbations_trajectory]

/-- The innovation of the trajectory, by induction on the steps: an analysis takes a quarter off
its projection. -/
lemma Still.innovation_trajectory (h : c.Still H y)
    (hsvd : IsSVD (H * perturbations c.initial + H * perturbations c.initial)
      (decomposed c.svd H c.initial)) (obs : ObsIndex) (t : ℕ) :
    H *ᵥ y - H *ᵥ ensembleMean (c.trajectory obs t) =
      H *ᵥ y - H *ᵥ ensembleMean c.initial - (1 - (3 / 4 : ℝ) ^ c.analyses obs t) •
        retainedProjection (decomposed c.svd H c.initial) *ᵥ
          (H *ᵥ y - H *ᵥ ensembleMean c.initial) := by
  set e := H *ᵥ y - H *ᵥ ensembleMean c.initial with he
  set P := retainedProjection (decomposed c.svd H c.initial) with hP
  induction t with
  | zero =>
      rw [analyses, Nat.count_zero, pow_zero, sub_self, zero_smul, sub_zero]
      rfl
  | succ k ih =>
      rw [trajectory, h.forecast_eq, h.analysis_eq, analyses, Nat.count_succ, ← analyses]
      split_ifs with hk
      · -- the operator sees a quarter of what the analysis moves the mean by
        have hmove : H *ᵥ x5Move c.svd H (c.trajectory obs k) y = (1 / 4 : ℝ) •
            P *ᵥ (H *ᵥ y - H *ᵥ ensembleMean (c.trajectory obs k)) := by
          have hdec := h.decomposed_trajectory obs k
          rw [mulVec_x5Move c.cast_ne_zero, hdec]
          rwa [hdec, h.perturbations_trajectory]
        have hproj : P *ᵥ (P *ᵥ e) = P *ᵥ e := by
          rw [mulVec_mulVec, hP, retainedProjection_mul_self hsvd]
        rw [ensembleMean_add, ensembleMean_const c.cast_ne_zero, mulVec_add, ← sub_sub, hmove, ih,
          mulVec_sub P e, mulVec_smul, hproj, pow_succ]
        module
      · exact ih

/-- **The innovation in the file**: all that the retained vectors see of it is lost at a rate
which does not depend on the observation errors, and the rest stays. -/
theorem stored_innovation (c : FullCycle m) {H : Matrix (Fin m) (Fin c.nd) ℝ} {y : Fin c.nd → ℝ}
    (hstill : c.Still H y)
    (hsvd : IsSVD (H * perturbations c.initial + H * perturbations c.initial)
      (decomposed c.svd H c.initial)) {t : ℕ} (h : c.Followed t) (obs : ObsIndex)
    (dir : Directory ℝ) :
    ∃ A, c.Stored obs dir t A ∧ H *ᵥ y - H *ᵥ ensembleMean A =
      H *ᵥ y - H *ᵥ ensembleMean c.initial - (1 - (3 / 4 : ℝ) ^ c.analyses obs t) •
        retainedProjection (decomposed c.svd H c.initial) *ᵥ
          (H *ᵥ y - H *ᵥ ensembleMean c.initial) :=
  ⟨_, h.stored obs dir, hstill.innovation_trajectory hsvd obs t⟩

end Still

/-! ### Two steps -/

lemma two_le_four : 2 ≤ 4 := by decide

lemma four_members_pos : 0 < 4 := by decide

lemma three_steps_pos : 0 < 3 := by decide

lemma one_dvd_one_row : 1 ∣ 1 := dvd_rfl

lemma one_le_one_var : 1 ≤ 1 := le_rfl

/-- A row of four members on two ranks, observed at the second of three steps. -/
def stillRow : FullCycle 1 where
  filePrefix := "icesee_enkf".toList
  nd := 1
  nens := 4
  nt := 3
  batchSize := 3
  worldSize := 2
  subcommSize := 2
  serialFileCreation := true
  nd_pos := Nat.one_pos
  nens_pos := four_members_pos
  nt_pos := three_steps_pos
  batchSize_pos := three_steps_pos
  worldSize_pos := Nat.two_pos
  subcommSize_pos := Nat.two_pos
  filter := .EnKF
  size_le := two_le_four
  totalStateParamVars := 1
  numStateVars := 1
  vecInputs := ["u"]
  inflationFactor := 1
  vars_pos := Nat.one_pos
  vars_dvd := one_dvd_one_row
  numStateVars_le := one_le_one_var
  initial := ofInt spreadRow
  propagator _ := 1
  added _ := 0
  operator _ := 1
  huObs _ _ := 1
  svd _ := spreadRowSVD

lemma sorted_one : ([1] : List ℤ).SortedLT := by decide

lemma followed_stillRow : stillRow.Followed 2 where
  lt_nt := by decide
  not_thickness := by decide
  oneBatchOrRound k hk := .inr (by
    have hcases : k = 0 ∨ k = 1 := by omega
    rcases hcases with rfl | rfl <;> decide)

/-- The operator of the columns, on the row of the ensemble. -/
def stillOperator : Matrix (Fin 1) (Fin stillRow.nd) ℝ := stillRow.operator 0

lemma still_stillRow : stillRow.Still stillOperator fun _ => 1 :=
  ⟨fun _ => rfl, fun _ => rfl, rfl, fun _ => rfl, fun _ => rfl⟩

lemma plain_stillRow : stillRow.Plain where
  factor_one := rfl
  added_eq _ := by
    show perturbations (0 : Matrix (Fin 1) (Fin 4) ℝ) = 0
    have hzero := ensembleMean_const (n := 1) stillRow.cast_ne_zero 0
    rw [perturbations_eq, zero_sub, neg_eq_zero]
    ext i j
    exact congrFun hzero i

lemma isSVD_stillRow : IsSVD (stillOperator * perturbations stillRow.initial +
    stillOperator * perturbations stillRow.initial)
      (decomposed stillRow.svd stillOperator stillRow.initial) :=
  isSVD_spreadRow one_pos

theorem stored_perturbations_stillRow : ∃ A, stillRow.Stored ⟨[1], sorted_one⟩ ∅ 2 A ∧
    perturbations A = stillRow.anomalies ⟨[1], sorted_one⟩ 2 :=
  stored_perturbations stillRow followed_stillRow ⟨[1], sorted_one⟩ ∅

theorem stored_covModel_stillRow : ∃ A, stillRow.Stored ⟨[1], sorted_one⟩ ∅ 2 A ∧
    covModel A = stillRow.freeCov 2 ∧
      ∀ covObs : ℕ → Matrix (Fin 1) (Fin 1) ℝ, (∀ km, (covObs km).PosDef) →
        Kalman.Below (stillRow.kalmanCov covObs ⟨[1], sorted_one⟩ 2) (covModel A) :=
  stored_covModel stillRow plain_stillRow two_le_four followed_stillRow ⟨[1], sorted_one⟩ ∅

theorem stored_innovation_stillRow : ∃ A, stillRow.Stored ⟨[1], sorted_one⟩ ∅ 2 A ∧
    (stillOperator *ᵥ fun _ => 1) - stillOperator *ᵥ ensembleMean A =
      (stillOperator *ᵥ fun _ => 1) - stillOperator *ᵥ ensembleMean stillRow.initial -
        (1 - (3 / 4 : ℝ) ^ stillRow.analyses ⟨[1], sorted_one⟩ 2) •
          retainedProjection (decomposed stillRow.svd stillOperator stillRow.initial) *ᵥ
            ((stillOperator *ᵥ fun _ => 1) - stillOperator *ᵥ ensembleMean stillRow.initial) :=
  stored_innovation stillRow still_stillRow isSVD_stillRow followed_stillRow ⟨[1], sorted_one⟩ ∅

end FullCycle

end

end Icesee
