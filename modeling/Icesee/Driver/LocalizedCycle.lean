import Icesee.Driver.SerialMoments
import Icesee.Lib.Regions
import Mathlib.Analysis.Matrix.Order

/-!
The serial driver with localization.

At a due step the covariance is multiplied entry by entry with what `localization_function` of
the model returns, and `np.linalg.inv` raises if the innovation covariance has become singular
(`localizedAnalysis`). With a taper of ones the runs are those without localization (`run_ones`),
and a positive semidefinite taper never raises (`run_isSome`).

`isolated` is what the taper is for. Take regions of the states and of the observations that
neither the taper nor the observations and their errors connect, and two set-ups whose models,
draws and observations are the same in one region. Their runs are the same in that region, at all
times, whatever the rest of the states does.
-/

namespace Icesee

open Matrix Regions

variable {n m N nt : ℕ} {ρ : Type*}

/-- The set-up of the loop, and `localization_function` by step. The square root filters have a
`Cov_model` of another shape. -/
structure LocalizedCycle (n m N nt : ℕ) extends SerialCycle n m N nt where
  localizationFunction : ℕ → Matrix (Fin n) (Fin n) ℝ
  usesGain : filter = .EnKF ∨ filter = .DEnKF

noncomputable section

/-! ### The driver -/

namespace LocalizedCycle

variable (c : LocalizedCycle n m N nt)

/-- `loc_matrix * Cov_model`. -/
def localizedCov (k : ℕ) (A : Matrix (Fin n) (Fin N) ℝ) : Matrix (Fin n) (Fin n) ℝ :=
  c.localizationFunction k ⊙ covModel A

/-- What `_compute_kalman_gain` inverts. -/
def innovation (k km : ℕ) (A : Matrix (Fin n) (Fin N) ℝ) : Matrix (Fin m) (Fin m) ℝ :=
  (c.column km).h * c.localizedCov k A * (c.column km).hᵀ + (c.column km).covObs

/-- The analysis; `none` is the `LinAlgError` of `np.linalg.inv`. -/
def localizedAnalysis (k km : ℕ) (A : Matrix (Fin n) (Fin N) ℝ) :
    Option (Matrix (Fin n) (Fin N) ℝ) :=
  if (c.innovation k km A).det = 0 then none
  else match c.filter with
    | .DEnKF => some ((c.column km).denkfAnalysis (c.localizedCov k A) A)
    -- the EnKF, by `usesGain`
    | _ => some ((c.column km).enkfAnalysis (c.localizedCov k A) (c.draws k) A)

/-- One iteration. -/
def iteration (s : CycleState n N) (k : ℕ) : Option (CycleState n N) :=
  let ensembleVec := c.forecastStep k (s.ensemble k)
  let s := s.write (k + 1) ensembleVec
  if c.schedule.due s.km k then
    (c.localizedAnalysis k s.km ensembleVec).map fun analysis =>
      { s.write (k + 1) analysis with km := s.km + 1 }
  else some s

/-- The state after the first `t` iterations. -/
def run (s : CycleState n N) (t : ℕ) : Option (CycleState n N) :=
  (List.range t).foldlM c.iteration { s with km := 0 }

lemma run_succ (s : CycleState n N) (t : ℕ) :
    c.run s (t + 1) = (c.run s t).bind (c.iteration · t) := by
  rw [run, List.range_succ, List.foldlM_append]
  simp only [List.foldlM_cons, List.foldlM_nil, bind_pure]
  rfl

variable {c}

lemma iteration_of_due {s : CycleState n N} {k : ℕ} (h : c.schedule.due s.km k) :
    c.iteration s k =
      (c.localizedAnalysis k s.km (c.forecastStep k (s.ensemble k))).map fun analysis =>
        { (s.write (k + 1) (c.forecastStep k (s.ensemble k))).write (k + 1) analysis with
          km := s.km + 1 } := if_pos h

lemma iteration_of_not_due {s : CycleState n N} {k : ℕ} (h : ¬ c.schedule.due s.km k) :
    c.iteration s k = some (s.write (k + 1) (c.forecastStep k (s.ensemble k))) := if_neg h

/-! ### When nothing is raised -/

/-- The product with a positive semidefinite taper is one again, and the errors make the
innovation covariance positive definite. -/
lemma posDef_innovation {k : ℕ} (hpsd : (c.localizationFunction k).PosSemidef) (hN : 2 ≤ N)
    (km : ℕ) (A : Matrix (Fin n) (Fin N) ℝ) : (c.innovation k km A).PosDef :=
  Kalman.posDef_innovation (c.column km).covObs_posDef
    (hpsd.hadamard (posSemidef_covModel hN A))

/-- **No exception**: with a positive semidefinite taper every run goes through. -/
lemma run_isSome (hpsd : ∀ k, (c.localizationFunction k).PosSemidef) (hN : 2 ≤ N)
    (s : CycleState n N) (t : ℕ) : (c.run s t).isSome := by
  induction t with
  | zero => rfl
  | succ t ih =>
      obtain ⟨e, he⟩ := Option.isSome_iff_exists.mp ih
      rw [run_succ, he, Option.bind_some]
      by_cases hdue : c.schedule.due e.km t
      · have hdet := (posDef_innovation (hpsd t) hN e.km (c.forecastStep t (e.ensemble t))).det_pos
        rw [iteration_of_due hdue, Option.isSome_map, localizedAnalysis, if_neg hdet.ne']
        split <;> rfl
      · rw [iteration_of_not_due hdue]
        rfl

/-- **No localization**: the runs with a taper of ones are those of the driver without it. -/
lemma run_ones (hones : ∀ k, c.localizationFunction k = of fun _ _ => 1) (hN : 2 ≤ N)
    (s : CycleState n N) (t : ℕ) : c.run s t = some (c.toSerialCycle.run s t) := by
  have hcov : ∀ k A, c.localizedCov k A = covModel A := by
    intro k A
    ext i j
    rw [localizedCov, hones, hadamard_apply, of_apply, one_mul]
  have hdet : ∀ k km A, (c.innovation k km A).det ≠ 0 := by
    intro k km A
    rw [innovation, hcov]
    exact (Kalman.posDef_innovation (c.column km).covObs_posDef
      (posSemidef_covModel hN A)).det_pos.ne'
  have hanalysis : ∀ k km A, c.localizedAnalysis k km A =
      some ((c.column km).serialAnalysis c.svd (c.draws k) A c.filter) := by
    intro k km A
    rw [localizedAnalysis, if_neg (hdet k km A), hcov]
    rcases c.usesGain with hfilter | hfilter <;> rw [hfilter] <;> rfl
  induction t with
  | zero => rfl
  | succ t ih =>
      rw [run_succ, ih, Option.bind_some, SerialCycle.run_succ]
      by_cases hdue : c.schedule.due (c.toSerialCycle.run s t).km t
      · rw [iteration_of_due hdue, SerialCycle.iteration_of_due hdue, hanalysis, Option.map_some]
      · rw [iteration_of_not_due hdue, SerialCycle.iteration_of_not_due hdue]

end LocalizedCycle

/-! ### The analysis in a region -/

/-- Two ensembles that agree in a region have the same mean and the same perturbations there. -/
lemma agreeIn_ensembleMean {f : Fin n → ρ} {r : ρ} {A A' : Matrix (Fin n) (Fin N) ℝ}
    (hA : AgreeIn f r A A') : AgreeIn f r (ensembleMean A) (ensembleMean A') := by
  intro i hi
  simp only [ensembleMean, hA i hi]

lemma agreeIn_perturbations {f : Fin n → ρ} {r : ρ} {A A' : Matrix (Fin n) (Fin N) ℝ}
    (hA : AgreeIn f r A A') : AgreeIn f r (perturbations A) (perturbations A') := by
  intro i hi
  funext j
  simp only [perturbations, of_apply, hA i hi, agreeIn_ensembleMean hA i hi]

/-- The covariance of two states of the region. -/
lemma covModel_agree {f : Fin n → ρ} {r : ρ} {A A' : Matrix (Fin n) (Fin N) ℝ}
    (hA : AgreeIn f r A A') {i j : Fin n} (hi : f i = r) (hj : f j = r) :
    covModel A i j = covModel A' i j := by
  have hpert := agreeIn_perturbations hA
  simp only [covModel, Matrix.smul_apply, mul_apply, transpose_apply, hpert i hi, hpert j hj]

namespace LinearObs

variable {f : Fin n → ρ} {g : Fin m → ρ} {r : ρ}

/-- The observations read one region each, and their errors are correlated within regions. -/
structure Regional (obs : LinearObs n m) (f : Fin n → ρ) (g : Fin m → ρ) : Prop where
  h : Regions.Regional g f obs.h
  covObs : Regions.Regional g g obs.covObs

/-- The same observations in a region. -/
structure SameIn (obs obs' : LinearObs n m) (g : Fin m → ρ) (r : ρ) : Prop where
  h : AgreeIn g r obs.h obs'.h
  observationVec : AgreeIn g r obs.observationVec obs'.observationVec
  covObs : AgreeIn g r obs.covObs obs'.covObs

variable {obs obs' : LinearObs n m} {cov cov' : Matrix (Fin n) (Fin n) ℝ}

/-- The matrix that `_compute_kalman_gain` inverts is regional. -/
lemma Regional.innovation (hobs : obs.Regional f g) (hcov : Regions.Regional f f cov) :
    Regions.Regional g g (obs.h * cov * obs.hᵀ + obs.covObs) :=
  ((hobs.h.mul hcov).mul hobs.h.transpose).add hobs.covObs

/-- The gain is regional. -/
lemma Regional.computeKalmanGain [DecidableEq ρ] (hobs : obs.Regional f g)
    (hcov : Regions.Regional f f cov)
    (hdet : (obs.h * cov * obs.hᵀ + obs.covObs).det ≠ 0) :
    Regions.Regional f g (obs.computeKalmanGain cov) :=
  (hcov.mul hobs.h.transpose).mul ((hobs.innovation hcov).inv (isUnit_iff_ne_zero.mpr hdet))

/-- **The gain in a region** is that of the region. -/
lemma SameIn.computeKalmanGain [DecidableEq ρ] (hsame : obs.SameIn obs' g r)
    (hobs : obs.Regional f g) (hobs' : obs'.Regional f g) (hcov : Regions.Regional f f cov)
    (hcc : AgreeIn f r cov cov') (hdet : (obs.h * cov * obs.hᵀ + obs.covObs).det ≠ 0)
    (hdet' : (obs'.h * cov' * obs'.hᵀ + obs'.covObs).det ≠ 0) :
    AgreeIn f r (obs.computeKalmanGain cov) (obs'.computeKalmanGain cov') := by
  have htranspose : AgreeIn f r obs.hᵀ obs'.hᵀ := hsame.h.transpose hobs.h hobs'.h
  have hleft : AgreeIn f r (cov * obs.hᵀ) (cov' * obs'.hᵀ) := AgreeIn.mul hcov hcc htranspose
  have hinnov : AgreeIn g r (obs.h * cov * obs.hᵀ + obs.covObs)
      (obs'.h * cov' * obs'.hᵀ + obs'.covObs) :=
    (AgreeIn.mul (hobs.h.mul hcov) (AgreeIn.mul hobs.h hsame.h hcc) htranspose).add hsame.covObs
  exact AgreeIn.mul (hcov.mul hobs.h.transpose) hleft
    (AgreeIn.inv (hobs.innovation hcov) (isUnit_iff_ne_zero.mpr hdet)
      (isUnit_iff_ne_zero.mpr hdet') hinnov)

/-- A column of an ensemble. -/
lemma agreeIn_col {A A' : Matrix (Fin n) (Fin N) ℝ} (hA : AgreeIn f r A A') (ens : Fin N) :
    AgreeIn f r (fun k => A k ens) fun k => A' k ens :=
  fun k hk => congrFun (hA k hk) ens

/-- `EnKF_Analysis`, in a region. -/
lemma SameIn.enkfAnalysis (hsame : obs.SameIn obs' g r) (hobs : obs.Regional f g)
    (hgain : Regions.Regional f g (obs.computeKalmanGain cov))
    (hgains : AgreeIn f r (obs.computeKalmanGain cov) (obs'.computeKalmanGain cov'))
    {draws draws' : Fin N → Fin m → ℝ} (hdraws : ∀ ens, AgreeIn g r (draws ens) (draws' ens))
    {A A' : Matrix (Fin n) (Fin N) ℝ} (hA : AgreeIn f r A A') :
    AgreeIn f r (obs.enkfAnalysis cov draws A) (obs'.enkfAnalysis cov' draws' A') := by
  intro i hi
  funext ens
  have hdeparture : AgreeIn g r
      (obs.observationVec + draws ens - obs.h *ᵥ fun k => A k ens)
      (obs'.observationVec + draws' ens - obs'.h *ᵥ fun k => A' k ens) :=
    (hsame.observationVec.add (hdraws ens)).sub
      (AgreeIn.mulVec hobs.h hsame.h (agreeIn_col hA ens))
  have hmove := AgreeIn.mulVec hgain hgains hdeparture i hi
  simp only [LinearObs.enkfAnalysis, of_apply, hA i hi, hmove]

/-- `DEnKF_Analysis`, in a region. -/
lemma SameIn.denkfAnalysis (hsame : obs.SameIn obs' g r) (hobs : obs.Regional f g)
    (hgain : Regions.Regional f g (obs.computeKalmanGain cov))
    (hgains : AgreeIn f r (obs.computeKalmanGain cov) (obs'.computeKalmanGain cov'))
    {A A' : Matrix (Fin n) (Fin N) ℝ} (hA : AgreeIn f r A A') :
    AgreeIn f r (obs.denkfAnalysis cov A) (obs'.denkfAnalysis cov' A') := by
  have hmean := agreeIn_ensembleMean hA
  have hmove := AgreeIn.mulVec hgain hgains
    (hsame.observationVec.sub (AgreeIn.mulVec hobs.h hsame.h hmean))
  intro i hi
  funext ens
  have hanomaly : AgreeIn f r (fun k => A k ens - ensembleMean A k)
      fun k => A' k ens - ensembleMean A' k := (agreeIn_col hA ens).sub hmean
  have hhalf := AgreeIn.mulVec (hgain.smul (1 / 2 : ℝ)) (hgains.smul (1 / 2 : ℝ))
    (AgreeIn.mulVec hobs.h hsame.h hanomaly) i hi
  simp only [LinearObs.denkfAnalysis, of_apply, Pi.add_apply, hA i hi, hmean i hi, hmove i hi]
  exact congrArg (_ - · + _) hhalf

end LinearObs

/-! ### Runs in a region -/

namespace LocalizedCycle

variable {c c' : LocalizedCycle n m N nt} {f : Fin n → ρ} {g : Fin m → ρ} {r : ρ}

/-- Neither the taper nor the observations connect two regions. -/
structure Regional (c : LocalizedCycle n m N nt) (f : Fin n → ρ) (g : Fin m → ρ) : Prop where
  localizationFunction : ∀ k, Regions.Regional f f (c.localizationFunction k)
  column : ∀ km, (c.column km).Regional f g

/-- Two set-ups that are the same in a region: the filter and the schedule, and what the model,
the noise, the taper and the observations are there. -/
structure SameIn (c c' : LocalizedCycle n m N nt) (f : Fin n → ρ) (g : Fin m → ρ) (r : ρ) :
    Prop where
  filter : c.filter = c'.filter
  schedule : c.schedule = c'.schedule
  forecastStepSingle : ∀ k x x', AgreeIn f r x x' →
    AgreeIn f r (c.forecastStepSingle k x) (c'.forecastStepSingle k x')
  isState : AgreeIn f r c.isState c'.isState
  sigQ : AgreeIn f r c.sigQ c'.sigQ
  alpha : c.alpha = c'.alpha
  dt : c.dt = c'.dt
  rho : c.rho = c'.rho
  noise : AgreeIn f r c.noise c'.noise
  field : ∀ k ens, AgreeIn f r (c.field k ens) (c'.field k ens)
  localizationFunction : ∀ k, AgreeIn f r (c.localizationFunction k) (c'.localizationFunction k)
  column : ∀ km, (c.column km).SameIn (c'.column km) g r
  draws : ∀ k ens, AgreeIn g r (c.draws k ens) (c'.draws k ens)

/-- The noise of the members. -/
lemma SameIn.carried (h : c.SameIn c' f g r) (k ens : ℕ) :
    AgreeIn f r (c.carried k ens) (c'.carried k ens) := by
  induction ens with
  | zero => exact h.noise
  | succ ens ih =>
      rw [SerialCycle.carried, SerialCycle.carried, h.alpha]
      exact (ih.smul _).add ((h.field k ens).smul _)

/-- The forecast. -/
lemma SameIn.forecastStep (h : c.SameIn c' f g r) (k : ℕ) {A A' : Matrix (Fin n) (Fin N) ℝ}
    (hA : AgreeIn f r A A') : AgreeIn f r (c.forecastStep k A) (c'.forecastStep k A') := by
  intro i hi
  funext j
  have hmodel := h.forecastStepSingle k _ _ (LinearObs.agreeIn_col hA j) i hi
  have hnoise := h.carried k (j + 1) i hi
  simp only [SerialCycle.forecastStep, SerialCycle.forecastLoop_eq, of_apply, if_pos j.isLt,
    hmodel, hnoise, h.isState i hi, h.sigQ i hi, h.dt, h.rho]

/-- The localized covariance is regional, and that of the region in the region. -/
lemma Regional.localizedCov (hc : c.Regional f g) (k : ℕ) (A : Matrix (Fin n) (Fin N) ℝ) :
    Regions.Regional f f (c.localizedCov k A) :=
  (hc.localizationFunction k).hadamard _

lemma SameIn.localizedCov (h : c.SameIn c' f g r) (hc : c.Regional f g) (k : ℕ)
    {A A' : Matrix (Fin n) (Fin N) ℝ} (hA : AgreeIn f r A A') :
    AgreeIn f r (c.localizedCov k A) (c'.localizedCov k A') :=
  AgreeIn.hadamard (hc.localizationFunction k) (h.localizationFunction k)
    fun _ _ hi hj => covModel_agree hA hi hj

/-- **The analysis**, of two runs that both go through. -/
lemma SameIn.localizedAnalysis [DecidableEq ρ] (h : c.SameIn c' f g r) (hc : c.Regional f g)
    (hc' : c'.Regional f g) {k km : ℕ} {A A' B B' : Matrix (Fin n) (Fin N) ℝ}
    (hA : AgreeIn f r A A') (hB : c.localizedAnalysis k km A = some B)
    (hB' : c'.localizedAnalysis k km A' = some B') : AgreeIn f r B B' := by
  have hcov := hc.localizedCov k A
  have hcc := h.localizedCov hc k hA
  rw [LocalizedCycle.localizedAnalysis] at hB hB'
  split at hB
  · cases hB
  next hdet =>
  split at hB'
  · cases hB'
  next hdet' =>
  -- both gains exist; neither reads another region, and in this one they are the same
  have hgain := (hc.column km).computeKalmanGain hcov hdet
  have hgains :=
    (h.column km).computeKalmanGain (hc.column km) (hc'.column km) hcov hcc hdet hdet'
  rw [← h.filter] at hB'
  rcases c.usesGain with hfilter | hfilter
  · rw [hfilter] at hB hB'
    obtain rfl := Option.some.inj hB
    obtain rfl := Option.some.inj hB'
    exact (h.column km).enkfAnalysis (hc.column km) hgain hgains (h.draws k) hA
  · rw [hfilter] at hB hB'
    obtain rfl := Option.some.inj hB
    obtain rfl := Option.some.inj hB'
    exact (h.column km).denkfAnalysis (hc.column km) hgain hgains hA

/-- Two states with one counter whose files agree in a region, up to time `t`. -/
structure SameFiles (f : Fin n → ρ) (r : ρ) (t : ℕ) (s s' : CycleState n N) : Prop where
  km : s.km = s'.km
  ensemble : ∀ u ≤ t, AgreeIn f r (s.ensemble u) (s'.ensemble u)
  ensembleMean : ∀ u ≤ t, AgreeIn f r (s.ensembleMean u) (s'.ensembleMean u)

/-- Writing the next slice. -/
lemma SameFiles.write {t : ℕ} {s s' : CycleState n N} (hs : SameFiles f r t s s')
    {A A' : Matrix (Fin n) (Fin N) ℝ} (hA : AgreeIn f r A A') :
    SameFiles f r (t + 1) (s.write (t + 1) A) (s'.write (t + 1) A') where
  km := hs.km
  ensemble u hu := by
    rcases eq_or_ne u (t + 1) with rfl | hne
    · simp only [CycleState.write, Function.update_self]
      exact hA
    · simp only [CycleState.write, Function.update_of_ne hne]
      exact hs.ensemble u (by omega)
  ensembleMean u hu := by
    rcases eq_or_ne u (t + 1) with rfl | hne
    · simp only [CycleState.write, Function.update_self]
      exact agreeIn_ensembleMean hA
    · simp only [CycleState.write, Function.update_of_ne hne]
      exact hs.ensembleMean u (by omega)

/-- The second write of an iteration goes over the first. -/
lemma write_write (s : CycleState n N) (t : ℕ) (A B : Matrix (Fin n) (Fin N) ℝ) :
    (s.write t A).write t B = s.write t B := by
  simp only [CycleState.write, Function.update_idem]

/-- **An iteration** of two runs that both go through. -/
lemma SameFiles.iteration [DecidableEq ρ] (h : c.SameIn c' f g r) (hc : c.Regional f g)
    (hc' : c'.Regional f g) {t : ℕ} {s s' e e' : CycleState n N} (hs : SameFiles f r t s s')
    (he : c.iteration s t = some e) (he' : c'.iteration s' t = some e') :
    SameFiles f r (t + 1) e e' := by
  have hforecast := h.forecastStep t (hs.ensemble t le_rfl)
  by_cases hdue : c.schedule.due s.km t
  · have hdue' : c'.schedule.due s'.km t := by rwa [← h.schedule, ← hs.km]
    rw [iteration_of_due hdue] at he
    rw [iteration_of_due hdue', ← hs.km] at he'
    obtain ⟨B, hB, rfl⟩ := Option.map_eq_some_iff.mp he
    obtain ⟨B', hB', rfl⟩ := Option.map_eq_some_iff.mp he'
    have hwrite := hs.write (h.localizedAnalysis hc hc' hforecast hB hB')
    rw [write_write, write_write]
    exact ⟨rfl, hwrite.ensemble, hwrite.ensembleMean⟩
  · have hdue' : ¬ c'.schedule.due s'.km t := by rwa [← h.schedule, ← hs.km]
    rw [iteration_of_not_due hdue] at he
    rw [iteration_of_not_due hdue'] at he'
    obtain rfl := Option.some.inj he
    obtain rfl := Option.some.inj he'
    exact hs.write hforecast

/-- **Regions are isolated**: two runs of set-ups that are the same in a region, from files that
agree there, agree in that region at all times, in the ensemble and in the mean. Nothing else of
the two set-ups matters, unless it makes one of the runs raise. -/
theorem isolated [DecidableEq ρ] (h : c.SameIn c' f g r) (hc : c.Regional f g)
    (hc' : c'.Regional f g) {s s' e e' : CycleState n N}
    (hensemble : AgreeIn f r (s.ensemble 0) (s'.ensemble 0))
    (hmean : AgreeIn f r (s.ensembleMean 0) (s'.ensembleMean 0)) {t : ℕ}
    (he : c.run s t = some e) (he' : c'.run s' t = some e') {u : ℕ} (hu : u ≤ t) :
    AgreeIn f r (e.ensemble u) (e'.ensemble u) ∧
      AgreeIn f r (e.ensembleMean u) (e'.ensembleMean u) := by
  -- the counters of the two runs agree too, so that both read the same column
  suffices hfiles : SameFiles f r t e e' from ⟨hfiles.ensemble u hu, hfiles.ensembleMean u hu⟩
  clear hu
  induction t generalizing e e' with
  | zero =>
      obtain rfl := Option.some.inj he
      obtain rfl := Option.some.inj he'
      exact ⟨rfl, fun u hu => Nat.le_zero.mp hu ▸ hensemble,
        fun u hu => Nat.le_zero.mp hu ▸ hmean⟩
  | succ t ih =>
      rw [run_succ] at he he'
      obtain ⟨e₁, hrun, hiter⟩ := Option.bind_eq_some_iff.mp he
      obtain ⟨e₁', hrun', hiter'⟩ := Option.bind_eq_some_iff.mp he'
      exact (ih hrun hrun').iteration h hc hc' hiter hiter'

/-! ### Two states beside each other -/

lemma denkf_usesGain : FilterType.DEnKF = .EnKF ∨ FilterType.DEnKF = .DEnKF := .inr rfl

/-- Two states that stay where they are, both observed at the second of two steps, and each
localized to itself. -/
def beside (y : Fin 2 → ℝ) : LocalizedCycle 2 2 5 2 where
  filter := .DEnKF
  schedule := (AffineCycle.shear .DEnKF).schedule
  forecastStepSingle _ x := x
  isState _ := true
  sigQ := 0
  alpha := 0
  dt := 1
  rho := 1
  noise := 0
  field _ _ := 0
  column _ := LinearObs.observeBoth y
  svd _ := ⟨1, 0, 1⟩
  draws _ := 0
  localizationFunction _ := 1
  usesGain := denkf_usesGain

/-- The spread of `AffineCycle.pairs` in the first state, and one in the second. -/
def besidePairs : Matrix (Fin 2) (Fin 5) ℤ := !![1, 1, -1, -1, 0; 1, -1, 1, -1, 0]

/-- Its file before the loop. -/
def besideFile : CycleState 2 5 := ⟨0, fun _ => ofInt besidePairs, fun _ => 0⟩

lemma regional_beside (y : Fin 2 → ℝ) : (beside y).Regional id id where
  localizationFunction _ _ _ hij := one_apply_ne hij
  column _ := ⟨fun _ _ hij => one_apply_ne hij, fun _ _ hij => one_apply_ne hij⟩

lemma sameIn_beside {y y' : Fin 2 → ℝ} (hy : y 0 = y' 0) :
    (beside y).SameIn (beside y') id id 0 where
  filter := rfl
  schedule := rfl
  forecastStepSingle _ _ _ hx := hx
  isState := .refl _
  sigQ := .refl _
  alpha := rfl
  dt := rfl
  rho := rfl
  noise := .refl _
  field _ _ := .refl _
  localizationFunction _ := .refl _
  column _ := ⟨.refl _, fun i hi => by obtain rfl : i = 0 := hi; exact hy, .refl _⟩
  draws _ _ := .refl _

/-- The first state does not see the second one, nor its observation. -/
theorem isolated_beside : ∃ e e',
    (beside ![1, 1]).run AffineCycle.pairsFile 2 = some e ∧
      (beside ![1, 5]).run besideFile 2 = some e' ∧
      AgreeIn id 0 (e.ensemble 2) (e'.ensemble 2) ∧
      AgreeIn id 0 (e.ensembleMean 2) (e'.ensembleMean 2) := by
  have hpsd : (1 : Matrix (Fin 2) (Fin 2) ℝ).PosSemidef := PosSemidef.one
  obtain ⟨e, he⟩ := Option.isSome_iff_exists.mp
    (run_isSome (c := beside ![1, 1]) (fun _ => hpsd) (by decide) AffineCycle.pairsFile 2)
  obtain ⟨e', he'⟩ := Option.isSome_iff_exists.mp
    (run_isSome (c := beside ![1, 5]) (fun _ => hpsd) (by decide) besideFile 2)
  have hstart : AgreeIn id 0 (AffineCycle.pairsFile.ensemble 0) (besideFile.ensemble 0) := by
    have hrow : ∀ j, AffineCycle.pairs 0 j = besidePairs 0 j := by decide
    intro i hi
    obtain rfl : i = 0 := hi
    funext j
    exact congrArg Int.cast (hrow j)
  have hsame : (beside ![1, 1]).SameIn (beside ![1, 5]) id id 0 := sameIn_beside (by simp)
  have hmean : AgreeIn id 0 (AffineCycle.pairsFile.ensembleMean 0) (besideFile.ensembleMean 0) :=
    .refl _
  exact ⟨e, e', he, he', isolated hsame (regional_beside _) (regional_beside _) hstart hmean he
    he' le_rfl⟩

end LocalizedCycle

end

end Icesee
