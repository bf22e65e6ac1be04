import Icesee.Analysis.Filters
import Icesee.Driver.Serial
import Icesee.Obs.Schedule

/-!
The serial driver on its file.

An iteration reads slice `k`, forecasts it, writes slice `k + 1` with its mean, and at a due
step replaces both with the analysis (`iteration`). `run_spec` says what a run leaves at every
time, for every model, filter and schedule: the trajectory of `cycle`, and its means.

`forecast_step` adds noise to the state variables. The noise is carried from one member to the
next, and every step begins with the noise of the driver again (`forecastStep_apply`,
`carried_eq`).

The model has no `localization_function` and no `post_analysis_update`, and its observation
function is a matrix, which is also its Jacobian, with a positive definite error covariance
(`LinearObs`). Then the analysis does not raise.
-/

namespace Icesee

open Matrix Counting

variable {n m N nt : ℕ}

/-! ### The driver -/

/-- What the loop of the serial driver is given: the model, the rows of the state variables,
`sig_Q` by row, the coefficients of the noise, the noise of the driver and the fields that
`generate_enkf_field` returns by step and member, the observations by column, and what the
filters need. -/
structure SerialCycle (n m N nt : ℕ) where
  filter : FilterType
  schedule : Schedule nt
  forecastStepSingle : ℕ → (Fin n → ℝ) → Fin n → ℝ
  isState : Fin n → Bool
  sigQ : Fin n → ℝ
  alpha : ℝ
  dt : ℝ
  rho : ℝ
  noise : Fin n → ℝ
  field : ℕ → ℕ → Fin n → ℝ
  column : ℕ → LinearObs n m
  svd : Matrix (Fin N) (Fin N) ℝ → SVD (Fin N) (Fin N) (Fin N) ℝ
  draws : ℕ → Fin N → Fin m → ℝ

/-- The counter and the datasets `ensemble` and `ensemble_mean`, by time. -/
structure CycleState (n N : ℕ) where
  km : ℕ
  ensemble : ℕ → Matrix (Fin n) (Fin N) ℝ
  ensembleMean : ℕ → Fin n → ℝ

noncomputable section

namespace CycleState

/-- The assignments to slice `t` and to its mean. -/
def write (s : CycleState n N) (t : ℕ) (ensembleVec : Matrix (Fin n) (Fin N) ℝ) :
    CycleState n N :=
  { s with
    ensemble := Function.update s.ensemble t ensembleVec
    ensembleMean := Function.update s.ensembleMean t (Icesee.ensembleMean ensembleVec) }

end CycleState

namespace SerialCycle

variable (c : SerialCycle n m N nt)

/-- The loop over the members in `forecast_step`, after the first members: the ensemble and
`noise`. -/
def forecastLoop (k : ℕ) (A : Matrix (Fin n) (Fin N) ℝ) :
    ℕ → Matrix (Fin n) (Fin N) ℝ × (Fin n → ℝ)
  | 0 => (A, c.noise)
  | ens + 1 =>
      let (ensemble, noise) := forecastLoop k A ens
      let noise_ := c.alpha • noise + √(1 - c.alpha ^ 2) • c.field k ens
      (of fun i j =>
        if (j : ℕ) = ens then
          c.forecastStepSingle k (fun l => ensemble l j) i +
            if c.isState i then √c.dt * c.sigQ i * c.rho * noise_ i else 0
        else ensemble i j, noise_)

/-- `forecast_step`. The noise is not given back. -/
def forecastStep (k : ℕ) (A : Matrix (Fin n) (Fin N) ℝ) : Matrix (Fin n) (Fin N) ℝ :=
  (c.forecastLoop k A N).1

/-- One iteration. The covariance is that of the mean which has just been written. -/
def iteration (s : CycleState n N) (k : ℕ) : CycleState n N :=
  let ensembleVec := c.forecastStep k (s.ensemble k)
  let s := s.write (k + 1) ensembleVec
  if c.schedule.due s.km k then
    let analysis := (c.column s.km).serialAnalysis c.svd (c.draws k) ensembleVec c.filter
    { s.write (k + 1) analysis with km := s.km + 1 }
  else s

/-- The state after the first `t` iterations. The driver sets `km = 0` before the loop. -/
def run (s : CycleState n N) (t : ℕ) : CycleState n N :=
  (List.range t).foldl c.iteration { s with km := 0 }

lemma run_succ (s : CycleState n N) (t : ℕ) :
    c.run s (t + 1) = c.iteration (c.run s t) t := by
  rw [run, List.range_succ, List.foldl_append]
  rfl

/-! ### The noise of the members -/

/-- The noise that the loop has before member `ens`. -/
def carried (k : ℕ) : ℕ → Fin n → ℝ
  | 0 => c.noise
  | ens + 1 => c.alpha • carried k ens + √(1 - c.alpha ^ 2) • c.field k ens

/-- Every member carries the fields of the members before it. -/
lemma carried_eq (k ens : ℕ) : c.carried k ens = c.alpha ^ ens • c.noise +
    √(1 - c.alpha ^ 2) • ∑ l ∈ Finset.range ens, c.alpha ^ (ens - 1 - l) • c.field k l := by
  induction ens with
  | zero => simp [carried]
  | succ ens ih =>
      have hpow : ∀ l ∈ Finset.range ens, c.alpha ^ (ens + 1 - 1 - l) • c.field k l =
          c.alpha • c.alpha ^ (ens - 1 - l) • c.field k l := by
        intro l hl
        have hexp : ens + 1 - 1 - l = ens - 1 - l + 1 := by
          have := Finset.mem_range.mp hl
          omega
        rw [hexp, pow_succ', mul_smul]
      rw [carried, ih, Finset.sum_range_succ, Finset.sum_congr rfl hpow, ← Finset.smul_sum,
        smul_add, smul_smul, ← pow_succ', smul_comm c.alpha (√(1 - c.alpha ^ 2))]
      simp [smul_add, add_assoc]

/-- What the loop has done after the first `ens` members: their columns are forecasts, and the
other columns are untouched. -/
lemma forecastLoop_eq (k : ℕ) (A : Matrix (Fin n) (Fin N) ℝ) (ens : ℕ) :
    c.forecastLoop k A ens = (of fun i (j : Fin N) =>
      if (j : ℕ) < ens then
        c.forecastStepSingle k (fun l => A l j) i +
          if c.isState i then √c.dt * c.sigQ i * c.rho * c.carried k (j + 1) i else 0
      else A i j, c.carried k ens) := by
  induction ens with
  | zero => rfl
  | succ ens ih =>
      rw [forecastLoop, ih]
      refine Prod.ext ?_ rfl
      ext i j
      simp only [of_apply]
      rcases lt_trichotomy (j : ℕ) ens with hlt | rfl | hgt
      · have hsucc : (j : ℕ) < ens + 1 := by omega
        rw [if_neg hlt.ne, if_pos hlt, if_pos hsucc]
      · simp only [if_true, lt_self_iff_false, if_false, Nat.lt_succ_self]
        rfl
      · have hsucc : ¬ (j : ℕ) < ens + 1 := by omega
        rw [if_neg hgt.ne', if_neg hgt.not_gt, if_neg hsucc]

/-- **The forecast of a member**: the noise is correlated from member to member and not from
step to step, and the parameters have none. -/
theorem forecastStep_apply (k : ℕ) (A : Matrix (Fin n) (Fin N) ℝ) (i : Fin n) (j : Fin N) :
    c.forecastStep k A i j = c.forecastStepSingle k (fun l => A l j) i +
      if c.isState i then
        √c.dt * c.sigQ i * c.rho * (c.alpha ^ ((j : ℕ) + 1) * c.noise i +
          √(1 - c.alpha ^ 2) *
            ∑ l ∈ Finset.range ((j : ℕ) + 1), c.alpha ^ ((j : ℕ) - l) * c.field k l i)
      else 0 := by
  rw [forecastStep, forecastLoop_eq]
  simp only [of_apply, if_pos j.isLt, carried_eq]
  simp only [Pi.add_apply, Pi.smul_apply, Finset.sum_apply, smul_eq_mul, Nat.add_sub_cancel]

/-! ### The trajectory -/

/-- The analysis of a scheduled step, with the column at the position of the step. -/
def analysis (k : ℕ) (A : Matrix (Fin n) (Fin N) ℝ) : Matrix (Fin n) (Fin N) ℝ :=
  (c.column (below c.schedule.times k)).serialAnalysis c.svd (c.draws k) A c.filter

/-- A step without the file: the forecast, and at a scheduled step its analysis. -/
def cycle (k : ℕ) (A : Matrix (Fin n) (Fin N) ℝ) : Matrix (Fin n) (Fin N) ℝ :=
  if (k : ℤ) ∈ c.schedule.times then c.analysis k (c.forecastStep k A) else c.forecastStep k A

/-- The ensemble at time `t`. -/
def trajectory (A : Matrix (Fin n) (Fin N) ℝ) : ℕ → Matrix (Fin n) (Fin N) ℝ
  | 0 => A
  | t + 1 => c.cycle t (trajectory A t)

variable {c}

lemma iteration_of_due {s : CycleState n N} {k : ℕ} (h : c.schedule.due s.km k) :
    c.iteration s k =
      { (s.write (k + 1) (c.forecastStep k (s.ensemble k))).write (k + 1)
          ((c.column s.km).serialAnalysis c.svd (c.draws k) (c.forecastStep k (s.ensemble k))
            c.filter) with km := s.km + 1 } := if_pos h

lemma iteration_of_not_due {s : CycleState n N} {k : ℕ} (h : ¬ c.schedule.due s.km k) :
    c.iteration s k = s.write (k + 1) (c.forecastStep k (s.ensemble k)) := if_neg h

/-- The counter is that of the driver without its file. -/
lemma run_km_eq (s : CycleState n N) (t : ℕ) :
    (c.run s t).km = (serialRun c.filter c.schedule.toObsIndex t).km := by
  induction t with
  | zero => rfl
  | succ t ih =>
      rw [run_succ, serialRun_succ, serialIteration, ← ih]
      by_cases hdue : c.schedule.due (c.run s t).km t
      · rw [iteration_of_due hdue, if_pos hdue]
      · rw [iteration_of_not_due hdue, if_neg hdue]
        exact ih

/-- The counter is at the position of the next step. -/
lemma run_km (s : CycleState n N) (t : ℕ) : (c.run s t).km = below c.schedule.times t := by
  rw [run_km_eq, serialRun_km fun k hk => (c.schedule.inGrid k hk).1]

/-- An iteration writes the next slice of the trajectory, and its mean. -/
lemma iteration_datasets {s : CycleState n N} {k : ℕ} (hkm : s.km = below c.schedule.times k) :
    (c.iteration s k).ensemble =
        Function.update s.ensemble (k + 1) (c.cycle k (s.ensemble k)) ∧
      (c.iteration s k).ensembleMean =
        Function.update s.ensembleMean (k + 1) (ensembleMean (c.cycle k (s.ensemble k))) := by
  by_cases hmem : (k : ℤ) ∈ c.schedule.times
  · have hdue : c.schedule.due s.km k := hkm ▸ c.schedule.toObsIndex.due_below.mpr hmem
    rw [iteration_of_due hdue, cycle, if_pos hmem, analysis, ← hkm]
    simp only [CycleState.write, Function.update_idem, and_self]
  · have hdue : ¬ c.schedule.due s.km k := hkm ▸ c.schedule.toObsIndex.due_below.not.mpr hmem
    rw [iteration_of_not_due hdue, cycle, if_neg hmem]
    exact ⟨rfl, rfl⟩

/-- **The file of a run**: after `t` iterations the slices up to `t` are the trajectory, the
means after the first are theirs, and the later times are as they were. -/
lemma run_spec (c : SerialCycle n m N nt) (s : CycleState n N) (t u : ℕ) :
    (c.run s t).ensemble u = (if u ≤ t then c.trajectory (s.ensemble 0) u else s.ensemble u) ∧
      (c.run s t).ensembleMean u =
        if 0 < u ∧ u ≤ t then ensembleMean (c.trajectory (s.ensemble 0) u)
        else s.ensembleMean u := by
  induction t generalizing u with
  | zero =>
      rcases Nat.eq_zero_or_pos u with rfl | hu
      · exact ⟨rfl, rfl⟩
      · rw [if_neg (by omega), if_neg (by omega)]
        exact ⟨rfl, rfl⟩
  | succ t ih =>
      obtain ⟨hens, hmean⟩ := iteration_datasets (run_km s t)
      have hslice : (c.run s t).ensemble t = c.trajectory (s.ensemble 0) t := by
        rw [(ih t).1, if_pos le_rfl]
      rw [run_succ, hens, hmean, hslice]
      by_cases hu : u = t + 1
      · rw [hu, Function.update_self, Function.update_self, if_pos le_rfl, if_pos (by omega)]
        exact ⟨rfl, rfl⟩
      · rw [Function.update_of_ne hu, Function.update_of_ne hu, (ih u).1, (ih u).2]
        have hle : u ≤ t + 1 ↔ u ≤ t := by omega
        simp only [hle, and_self]

end SerialCycle

end

end Icesee
