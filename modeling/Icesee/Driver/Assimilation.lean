import Icesee.Driver.FullLoop
import Icesee.Driver.Partial
import Icesee.Driver.Serial

/-!
Is every scheduled observation assimilated, once and in order?

A schedule on a grid of `nt + 1` points may hold the step `nt`, which no loop over
`range(nt)` reaches. Up to that the serial driver assimilates everything if its analysis
goes through, and the other two agree with it where they work at all:
`fullRun_eq_serialRun` for the EnKF where no observation is counted before its step,
`partialRun_log` for the settings of `AnalysisWrites`. `assimilatesAll_iff` puts the three
together.
-/

namespace Icesee

open Counting

/-! ### The three drivers -/

/-- `localization_flag`: off, or on with the `localization_function` of the model, which
returns a matrix of this shape, or on with `gaspari_cohn`. -/
inductive SerialLocalization where
  | off
  | own (rows cols : ℕ)
  | gaspariCohn
  deriving DecidableEq

/-- What the analysis of the serial driver takes from the configuration and the model: the
shape of the ensemble, which of `Cov_Obs_fun`, `Obs_fun` and `JObs_fun` the model has, how
many entries the list `sig_obs` has (`none` for a number), and how many `Obs_fun` returns. -/
structure SerialConfig where
  filter : FilterType
  nd : ℕ
  nens : ℕ+
  localization : SerialLocalization
  covObsFun : Bool
  obsFun : Bool
  jobsFun : Bool
  sigObs : Option ℕ
  obsSize : ℕ

namespace SerialConfig

variable (cfg : SerialConfig)

/-- The entries of `sig_obs`: a number becomes an array of `nt + 1`. -/
def numSig (nt : ℕ) : ℕ := cfg.sigObs.getD (nt + 1)

/-- The filters that compute the Kalman gain. -/
def usesJacobian : Bool := cfg.filter = .EnKF ∨ cfg.filter = .DEnKF

/-- The columns of `Cov_model`, which has `nd` rows: the covariance, or the anomalies. -/
def covCols : ℕ := if cfg.usesJacobian then cfg.nd else cfg.nens

/-- Does `loc_matrix * Cov_model` have the shape of `Cov_model`? A larger product does not fit
the ensemble. `gaspari_cohn` returns nothing, which NumPy writes to the blocks of
`np.empty_like(Cov_model)` as NaN. -/
def localizes : Bool :=
  match cfg.localization with
  | .off => true
  | .own rows cols => (rows = cfg.nd ∨ rows = 1) ∧ (cols = cfg.covCols ∨ cols = 1)
  | .gaspariCohn => true

/-- A matrix `R` of `m` rows where the filter needs one of `obsSize`: NumPy adds a single
entry to `H P Hᵀ`, but it is not the covariance of the draws, and not a matrix to solve
with. -/
def takes (m : ℕ) : Bool :=
  m = cfg.obsSize ∨ m = 1 ∧ (cfg.filter = .DEnKF ∨ cfg.filter = .EnRSKF)

/-- Where the analysis raises, in the order of the source. -/
def analysisChecks (mObs nt : ℕ) : Except RunError Unit := do
  -- `1/(Nens-1)`
  if (cfg.nens : ℕ) = 1 then throw .zeroDivisionError
  if !cfg.localizes then throw .valueError
  -- `sig_obs=params["sig_obs"][0]`
  if cfg.covObsFun && cfg.numSig nt == 0 then throw .indexError
  -- the blocks `R[2*ii:2*ii+2, 2*ii:2*ii+2]` of `R = np.eye(m_obs)`
  if !cfg.covObsFun && mObs < 2 * cfg.numSig nt then throw .valueError
  -- `UtilsFunctions(params, ensemble_vec)` has the ensemble in the place of `model_kwargs`
  if !cfg.obsFun then throw .attributeError
  if cfg.usesJacobian && !cfg.jobsFun then throw .attributeError
  if !cfg.covObsFun && !cfg.takes mObs then throw .valueError
  -- `np.linalg.svd` does not converge for NaN
  if cfg.localization = .gaspariCohn ∧ cfg.filter = .EnTKF then throw .linAlgError

end SerialConfig

/-- The loop of the serial driver, with the exceptions of its analysis. -/
def serialDriver (cfg : SerialConfig) (obs : ObsIndex) (nt n : ℕ) : Except RunError LoopState :=
  (List.range n).foldlM (fun s (k : ℕ) => do
    if obs.due s.km k then cfg.analysisChecks obs.mObs nt
    return serialIteration cfg.filter obs s k) { km := 0, log := [] }

/-- The loop of the full driver with `global_analysis` and `local_analysis` off: only a
skipped iteration moves the counter. -/
def fullRunOff (filter : FilterType) (obs : ObsIndex) (done : ℕ → Bool) (kStart n : ℕ) :
    LoopState :=
  (List.range' kStart (n - kStart)).foldl
    (fun s k => if done k then fullIteration filter obs done s k else s)
    { km := computeKmFromTobserve obs.times kStart (some obs.mObs), log := [] }

/-- A driver with its settings, for a run to the end. For the full driver `analysis` is
`global_analysis` or `local_analysis`; it starts at `k_start` and skips the iterations that
`step_already_done` finds (from `0` and none, under `force_fresh_start`). -/
inductive Driver : Type 1 where
  | serial (cfg : SerialConfig)
  | partialParallel (cfg : PartialConfig) (E : Type) (ker : PartialKernels E)
  | fullParallel (analysis : Bool) (filter : FilterType) (done : ℕ → Bool) (kStart : ℕ)

/-- The counter and the log at the end of a run over `nt` steps. -/
def Driver.run (obs : ObsIndex) (nt : ℕ) : Driver → Except RunError LoopState
  | .serial cfg => serialDriver cfg obs nt nt
  | .partialParallel cfg _ ker => (partialRun cfg ker obs nt).map PartialState.toLoopState
  | .fullParallel analysis filter done kStart =>
      .ok (if analysis then fullRun filter obs done kStart nt
        else fullRunOff filter obs done kStart nt)

/-- Every column is used by exactly one update, in increasing order, and the counter
moves only after the update with its column. -/
structure AssimilatesAll (obs : ObsIndex) (s : LoopState) : Prop where
  columns : (updates s.log).map Prod.snd = List.range obs.mObs
  advances : AdvancesAfterUpdate s.log

/-- The run comes to its end, and everything is assimilated. -/
def Driver.Assimilates (d : Driver) (obs : ObsIndex) (nt : ℕ) : Prop :=
  ∃ s, d.run obs nt = .ok s ∧ AssimilatesAll obs s

/-- The settings for which the analysis takes the localized covariance: the matrix of the
model can be multiplied with it entry by entry, and NaN is not for the EnTKF. -/
def SerialConfig.Localized (cfg : SerialConfig) : Prop :=
  match cfg.localization with
  | .off => True
  | .own rows cols => (rows = cfg.nd ∨ rows = 1) ∧ (cols = cfg.covCols ∨ cols = 1)
  | .gaspariCohn => cfg.filter ≠ .EnTKF

/-- The settings for which the analysis of the serial driver goes through. -/
structure SerialConfig.AnalysisPasses (cfg : SerialConfig) (mObs nt : ℕ) : Prop where
  nens : 2 ≤ (cfg.nens : ℕ)
  localized : cfg.Localized
  cov : if cfg.covObsFun then cfg.numSig nt ≠ 0
    else 2 * cfg.numSig nt ≤ mObs ∧
      (mObs = cfg.obsSize ∨ mObs = 1 ∧ (cfg.filter = .DEnKF ∨ cfg.filter = .EnRSKF))
  obsFun : cfg.obsFun
  jobsFun : cfg.filter = .EnKF ∨ cfg.filter = .DEnKF → cfg.jobsFun

/-- No observation is counted before its step: every scheduled step comes after `k_start`,
and neither its iteration nor the one before is skipped. -/
def CountsNoneEarly (obs : ObsIndex) (done : ℕ → Bool) (kStart : ℕ) : Prop :=
  ∀ k : ℕ, (k : ℤ) ∈ obs.times → kStart < k ∧ ¬ done k ∧ ¬ done (k - 1)

/-- When a driver assimilates everything: never with an observation at the last grid
point, which is step `nt`; the serial and the partial driver with the settings that go
through the analysis; the full driver with the EnKF and every observation at its step. -/
def Driver.Reaches (d : Driver) (obs : ObsIndex) (nt : ℕ) : Prop :=
  obs.times = [] ∨ (nt : ℤ) ∉ obs.times ∧
    match d with
    | .serial cfg => cfg.AnalysisPasses obs.mObs nt
    | .partialParallel cfg _ _ =>
        (cfg.globalAnalysis ∨ cfg.localAnalysis) ∧ cfg.AnalysisWrites
    | .fullParallel analysis filter done kStart =>
        analysis ∧ filter = .EnKF ∧ CountsNoneEarly obs done kStart

variable {nt : ℕ} {filter : FilterType}

/-! ### The serial driver -/

section Serial

variable {cfg : SerialConfig} {obs : ObsIndex}

/-- The two checks that concern the localization. -/
lemma SerialConfig.localized_iff : cfg.Localized ↔
    cfg.localizes ∧ ¬ (cfg.localization = .gaspariCohn ∧ cfg.filter = .EnTKF) := by
  rw [localizes, Localized]
  cases cfg.localization <;> simp

/-- The checks pass for the settings of `AnalysisPasses`. -/
lemma SerialConfig.analysisChecks_ok_iff {mObs : ℕ} :
    cfg.analysisChecks mObs nt = .ok () ↔ cfg.AnalysisPasses mObs nt := by
  have htakes : cfg.takes mObs ↔
      mObs = cfg.obsSize ∨ mObs = 1 ∧ (cfg.filter = .DEnKF ∨ cfg.filter = .EnRSKF) :=
    decide_eq_true_iff
  have hnens : ¬ (cfg.nens : ℕ) = 1 ↔ 2 ≤ (cfg.nens : ℕ) := by
    have hpos := cfg.nens.pos
    omega
  have hjacobian : cfg.usesJacobian ↔ cfg.filter = .EnKF ∨ cfg.filter = .DEnKF :=
    decide_eq_true_iff
  rw [analysisChecks, Keyed.check_eq_ok, Keyed.check_eq_ok, Keyed.check_eq_ok, Keyed.check_eq_ok,
    Keyed.check_eq_ok, Keyed.check_eq_ok, Keyed.check_eq_ok, Keyed.last_check_eq_ok, hnens]
  constructor
  · rintro ⟨hnens, hloc, hsig, hblocks, hobs, hjobs, htake, hnan⟩
    refine ⟨hnens, cfg.localized_iff.mpr ⟨by simpa using hloc, hnan⟩, ?_, by simpa using hobs,
      fun hf => by simpa [hjacobian.mpr hf] using hjobs⟩
    cases hcov : cfg.covObsFun
    · rw [hcov] at hblocks htake
      exact ⟨by simpa using hblocks, htakes.mp (by simpa using htake)⟩
    · simpa [hcov] using hsig
  · rintro ⟨hnens, hloc, hcov, hobs, hjobs⟩
    have hjobs' : cfg.usesJacobian → cfg.jobsFun := fun h => hjobs (hjacobian.mp h)
    obtain ⟨hfits, hnan⟩ := cfg.localized_iff.mp hloc
    refine ⟨hnens, by simpa using hfits, ?_⟩
    cases hc : cfg.covObsFun
    · rw [hc] at hcov
      simpa [hobs, htakes.mpr hcov.2] using ⟨hcov.1, hjobs', not_and.mp hnan⟩
    · rw [hc] at hcov
      simpa [hobs] using ⟨hcov, hjobs', not_and.mp hnan⟩

lemma serialDriver_succ (n : ℕ) : serialDriver cfg obs nt (n + 1) =
    serialDriver cfg obs nt n >>= fun s => do
      if obs.due s.km n then cfg.analysisChecks obs.mObs nt
      return serialIteration cfg.filter obs s n := by
  rw [serialDriver, List.range_succ, List.foldlM_append]
  simp only [List.foldlM_cons, List.foldlM_nil, bind_pure]
  rfl

/-- If the analysis goes through, so does the run. -/
lemma serialDriver_of_passes (h : cfg.AnalysisPasses obs.mObs nt) (n : ℕ) :
    serialDriver cfg obs nt n = .ok (serialRun cfg.filter obs n) := by
  induction n with
  | zero => rfl
  | succ n ih =>
      rw [serialDriver_succ, ih, serialRun_succ, SerialConfig.analysisChecks_ok_iff.mpr h]
      exact ite_self _

/-- A run that goes through is that of the loop, and with an update the analysis goes
through. -/
lemma serialDriver_ok {n : ℕ} {s : LoopState} (h : serialDriver cfg obs nt n = .ok s) :
    s = serialRun cfg.filter obs n ∧ (updates s.log ≠ [] → cfg.AnalysisPasses obs.mObs nt) := by
  induction n generalizing s with
  | zero =>
      obtain rfl := Except.ok.inj h
      exact ⟨rfl, fun hne => absurd rfl hne⟩
  | succ n ih =>
      rw [serialDriver_succ] at h
      obtain ⟨s₀, hs₀, hstep⟩ := Keyed.bind_eq_ok.mp h
      obtain ⟨rfl, hpasses⟩ := ih hs₀
      rw [serialRun_succ]
      by_cases hdue : obs.due (serialRun cfg.filter obs n).km n
      · -- the checks have passed
        rw [if_pos hdue] at hstep
        obtain ⟨_, hchecks, hs⟩ := Keyed.bind_eq_ok.mp hstep
        exact ⟨(Except.ok.inj hs).symm, fun _ => SerialConfig.analysisChecks_ok_iff.mp hchecks⟩
      · rw [if_neg hdue] at hstep
        obtain rfl := Except.ok.inj hstep
        exact ⟨rfl, fun hne => hpasses (by rwa [serialIteration, if_neg hdue] at hne)⟩

end Serial

/-- All columns are below the end of the grid exactly if none is at its last point. -/
lemma below_eq_mObs_iff (S : Schedule nt) : below S.times nt = S.mObs ↔ (nt : ℤ) ∉ S.times := by
  have hall : below S.times (nt + 1) = S.mObs :=
    List.countP_eq_length.mpr fun k hk => by
      have := (S.inGrid k hk).2
      simp only [decide_eq_true_eq]
      omega
  by_cases hmem : (nt : ℤ) ∈ S.times
  · rw [below_succ_of_mem S.sorted hmem] at hall
    exact iff_of_false (by omega) (not_not.mpr hmem)
  · rw [below_succ_of_notMem S.sorted hmem] at hall
    exact iff_of_true (by omega) hmem

/-- The serial run assimilates everything but an observation at the last grid point. -/
lemma serialRun_assimilatesAll_iff (filter : FilterType) (S : Schedule nt) :
    AssimilatesAll S.toObsIndex (serialRun filter S.toObsIndex nt) ↔ (nt : ℤ) ∉ S.times := by
  have hcols : (updates (serialRun filter S.toObsIndex nt).log).map Prod.snd =
      List.range (below S.times nt) := serialRun_updates (fun k hk => (S.inGrid k hk).1) nt
  rw [← below_eq_mObs_iff]
  constructor
  · rintro ⟨hall, -⟩
    rw [hcols] at hall
    simpa using congrArg List.length hall
  · intro heq
    exact ⟨by rw [hcols, heq], advancesAfterUpdate_serialRun nt⟩

/-! ### The full driver -/

section Full

variable {obs : ObsIndex} {done : ℕ → Bool} {kStart : ℕ}

lemma updates_fullAnalysis (k km : ℕ) : updates (fullAnalysis filter k km) =
    if filter = .EnKF then [(k, km)] else [] := by
  cases filter <;> rfl

/-- The step of the log: the EnKF updates in an iteration that is executed and due. -/
lemma updates_fullIteration (s : LoopState) (k : ℕ) :
    updates (fullIteration filter obs done s k).log =
      updates s.log ++ if filter = .EnKF ∧ done k = false ∧ obs.due s.km k then [(k, s.km)]
        else [] := by
  cases hd : done k
  · by_cases hs : obs.due s.km k
    · simp [fullIteration, hd, hs, updates_fullAnalysis]
    · simp [fullIteration, hd, hs]
  · by_cases hs : obs.due s.km (k + 1)
    · simp [fullIteration, hd, hs, updates]
    · simp [fullIteration, hd, hs]

/-- Without an analysis there is no update. -/
lemma updates_fullRunOff (kStart n : ℕ) :
    updates (fullRunOff filter obs done kStart n).log = [] := by
  rw [fullRunOff]
  refine List.foldlRecOn (motive := fun s : LoopState => updates s.log = []) _ _ rfl
    fun s hs k _ => ?_
  cases hd : done k with
  | false => exact hs
  | true =>
      rw [if_pos rfl, updates_fullIteration, hs]
      simp [hd]

/-- The updates of a run are those of the EnKF at its executed iterations that are due. -/
lemma mem_updates_fullRun {n k km : ℕ} :
    (k, km) ∈ updates (fullRun filter obs done kStart n).log ↔
      filter = .EnKF ∧ kStart ≤ k ∧ k < n ∧ done k = false ∧
        (fullRun filter obs done kStart k).km = km ∧ obs.times[km]? = some (k : ℤ) := by
  by_cases hn : kStart ≤ n
  · induction n, hn using Nat.le_induction with
    | base =>
        rw [fullRun_start]
        refine iff_of_false List.not_mem_nil ?_
        rintro ⟨-, hk, hlt, -⟩
        omega
    | succ n hn ih =>
        rw [fullRun_succ hn, updates_fullIteration, List.mem_append, ih]
        constructor
        · rintro (⟨hf, hk, hlt, h⟩ | hnew)
          · exact ⟨hf, hk, by omega, h⟩
          · split_ifs at hnew with hdue
            · obtain ⟨rfl, rfl⟩ := Prod.mk.inj (List.mem_singleton.mp hnew)
              exact ⟨hdue.1, hn, Nat.lt_succ_self _, hdue.2.1, rfl, obs.due_iff.mp hdue.2.2⟩
            · exact absurd hnew List.not_mem_nil
        · rintro ⟨hf, hk, hlt, hd, hkm, htimes⟩
          rcases Nat.lt_succ_iff_lt_or_eq.mp hlt with hlt | rfl
          · exact .inl ⟨hf, hk, hlt, hd, hkm, htimes⟩
          · refine .inr ?_
            rw [if_pos ⟨hf, hd, obs.due_iff.mpr (hkm ▸ htimes)⟩, hkm]
            exact List.mem_singleton_self _
  · -- the loop is empty
    have hlen : n - kStart = 0 := by omega
    refine iff_of_false (by simp [fullRun, hlen, updates]) ?_
    rintro ⟨-, hk, hlt, -⟩
    omega

/-- If no observation is counted before its step, the full driver with the EnKF runs as the
serial driver does. -/
lemma fullRun_eq_serialRun (S : Schedule nt) (h : CountsNoneEarly S.toObsIndex done kStart)
    {n : ℕ} (hn : kStart ≤ n) :
    fullRun .EnKF S.toObsIndex done kStart n = serialRun .EnKF S.toObsIndex n := by
  have hobs : ∀ k ∈ S.times, 0 ≤ k := fun k hk => (S.inGrid k hk).1
  -- nothing is due before `k_start`
  have hquiet : ∀ j ≤ kStart, serialRun .EnKF S.toObsIndex j = ⟨0, []⟩ := by
    intro j hj
    induction j with
    | zero => rfl
    | succ j ih =>
        have hnot : (j : ℤ) ∉ S.times := fun hmem => by
          have := (h j hmem).1
          omega
        have hdue : ¬ S.due (serialRun .EnKF S.toObsIndex j).km j := by
          rw [serialRun_km hobs]
          exact S.due_below.not.mpr hnot
        rw [serialRun_succ, serialIteration, if_neg hdue, ih (by omega)]
  induction n, hn using Nat.le_induction with
  | base =>
      have hzero : below S.times (kStart + 1) = 0 := below_eq_zero fun x hx hlt => by
        obtain ⟨k, rfl⟩ := Int.eq_ofNat_of_zero_le (hobs x hx)
        have := (h k hx).1
        omega
      rw [fullRun_start, hquiet kStart le_rfl, hzero]
  | succ n hn ih =>
      rw [fullRun_succ hn, serialRun_succ, ih, fullIteration]
      cases hd : done n with
      | false =>
          rw [if_neg (by simp), serialIteration]
          rfl
      | true =>
          -- a skipped iteration is neither at an observation nor right before one
          have hnot : (n : ℤ) ∉ S.times := fun hmem => (h n hmem).2.1 hd
          have hnot' : ((n + 1 : ℕ) : ℤ) ∉ S.times := fun hmem => (h (n + 1) hmem).2.2 hd
          have hkm : (serialRun .EnKF S.toObsIndex n).km = below S.times n := serialRun_km hobs n
          have hdue : ¬ S.due (serialRun .EnKF S.toObsIndex n).km n := by
            rw [hkm]
            exact S.due_below.not.mpr hnot
          have hdue' : ¬ S.due (serialRun .EnKF S.toObsIndex n).km (n + 1) := by
            rw [hkm, ← below_succ_of_notMem S.sorted hnot]
            exact_mod_cast S.due_below.not.mpr hnot'
          rw [if_pos rfl, if_neg hdue', serialIteration, if_neg hdue]

/-- A full driver that uses every column counts no observation before its step: at the step
of an observation the counter is at its column. -/
lemma countsNoneEarly_of_columns (S : Schedule nt)
    (h : (updates (fullRun .EnKF S.toObsIndex done kStart nt).log).map Prod.snd =
      List.range S.mObs) : CountsNoneEarly S.toObsIndex done kStart := by
  intro k hmem
  have hpos := (getElem?_below S.sorted).mpr hmem
  obtain ⟨⟨j, km⟩, hup, hcol⟩ : ∃ u ∈ updates (fullRun .EnKF S.toObsIndex done kStart nt).log,
      u.2 = below S.times k := by
    have hcol : below S.times k ∈ List.range S.mObs :=
      List.mem_range.mpr (below_lt_length S.sorted hmem)
    rw [← h] at hcol
    exact List.mem_map.mp hcol
  obtain rfl : km = below S.times k := hcol
  obtain ⟨-, hk, -, hd, hkm, htimes⟩ := mem_updates_fullRun.mp hup
  obtain rfl : j = k := by exact_mod_cast Option.some.inj (htimes.symm.trans hpos)
  have hlt : kStart < j := by
    refine lt_of_le_of_ne hk ?_
    rintro rfl
    -- the start value counts an observation at `k_start`
    rw [fullRun_start, below_succ_of_mem S.sorted hmem] at hkm
    simp at hkm
  refine ⟨hlt, by simp [hd], fun hskip => ?_⟩
  obtain ⟨i, rfl⟩ : ∃ i, j = i + 1 := ⟨j - 1, by omega⟩
  rw [Nat.add_sub_cancel] at hskip
  rw [fullRun_succ (by omega), fullIteration, if_pos hskip] at hkm
  split_ifs at hkm with hdue
  · -- the skip has moved the counter past the column
    have hbelow := below_eq_of_getElem? S.sorted (S.due_iff.mp hdue)
    rw [Nat.cast_succ, hbelow] at hkm
    simp at hkm
  · refine hdue (S.due_iff.mpr ?_)
    rw [hkm]
    exact_mod_cast hpos

end Full

/-! ### The partial driver -/

variable {E : Type} {cfg : PartialConfig} {ker : PartialKernels E} {obs : ObsIndex}

lemma run_partial_ok {n : ℕ} {s : LoopState} :
    (Driver.partialParallel cfg E ker).run obs n = .ok s ↔
      ∃ s₀, partialRun cfg ker obs n = .ok s₀ ∧ s₀.toLoopState = s := by
  rw [Driver.run]
  cases partialRun cfg ker obs n with
  | error e => simp [Except.map]
  | ok s₀ => simp [Except.map]

/-- With settings that write, the partial driver runs as the serial driver does. -/
lemma partialRun_log (ker : PartialKernels E) (obs : ObsIndex)
    (hon : cfg.globalAnalysis || cfg.localAnalysis) (hw : cfg.AnalysisWrites) (n : ℕ) :
    ∃ s, partialRun cfg ker obs n = .ok s ∧ s.toLoopState = serialRun .EnKF obs n := by
  induction n with
  | zero => exact ⟨_, rfl, rfl⟩
  | succ n ih =>
      obtain ⟨s, hrun, hlog⟩ := ih
      rw [partialRun_succ, hrun, serialRun_succ, ← hlog]
      by_cases hdue : obs.due s.km n
      · exact ⟨_, partialIteration_writes hon hw hdue, by rw [serialIteration, if_pos hdue]; rfl⟩
      · exact ⟨_, partialIteration_forecast hon hdue, by rw [serialIteration, if_neg hdue]; rfl⟩

/-- An update shows that an analysis is switched on and that the settings write. -/
lemma writes_of_updates {n : ℕ} {s : PartialState E} (h : partialRun cfg ker obs n = .ok s)
    (hne : updates s.log ≠ []) :
    (cfg.globalAnalysis || cfg.localAnalysis) ∧ cfg.AnalysisWrites := by
  induction n generalizing s with
  | zero =>
      obtain rfl := Except.ok.inj h
      exact absurd rfl hne
  | succ n ih =>
      obtain ⟨s₀, hn, hstep⟩ := partialRun_succ_ok h
      cases hon : cfg.globalAnalysis || cfg.localAnalysis
      · rw [partialIteration_off hon] at hstep
        obtain rfl := Except.ok.inj hstep
        exact absurd (ih hn hne).1 (by simp [hon])
      · refine ⟨rfl, ?_⟩
        by_cases hdue : obs.due s₀.km n
        · obtain ⟨hc, -, hsame⟩ := partialIteration_due hon hdue hstep
          by_cases hf : cfg.filter = .EnKF
          · exact (PartialConfig.analysisChecks_enkf hf).mp hc
          · exact (ih hn ((hsame hf).2 ▸ hne)).2
        · rw [partialIteration_forecast hon hdue] at hstep
          obtain rfl := Except.ok.inj hstep
          exact (ih hn hne).2

/-! ### Every observation, exactly once -/

/-- With nothing to observe every driver comes to its end with an empty log. -/
lemma run_of_nil (d : Driver) (h : obs.times = []) (nt : ℕ) :
    ∃ s, d.run obs nt = .ok s ∧ s.log = [] := by
  -- no step is due, so no iteration of any driver touches counter or log
  have hdue : ∀ km k, obs.due km k = false := by simp [ObsIndex.due, h]
  cases d with
  | serial cfg =>
      have hrun : ∀ n, serialDriver cfg obs nt n = .ok ⟨0, []⟩ := by
        intro n
        induction n with
        | zero => rfl
        | succ n ih =>
            rw [serialDriver_succ, ih]
            simp [hdue, serialIteration, bind, Except.bind, pure, Except.pure]
      exact ⟨_, hrun nt, rfl⟩
  | partialParallel cfg E ker =>
      induction nt with
      | zero => exact ⟨_, rfl, rfl⟩
      | succ n ih =>
          obtain ⟨s, hs, hlog⟩ := ih
          obtain ⟨s₀, hs₀, rfl⟩ := run_partial_ok.mp hs
          cases hon : cfg.globalAnalysis || cfg.localAnalysis
          · refine ⟨_, run_partial_ok.mpr ⟨s₀, ?_, rfl⟩, hlog⟩
            rw [partialRun_succ_of_ok hs₀, partialIteration_off hon]
          · exact ⟨_, run_partial_ok.mpr ⟨_, (partialRun_succ_of_ok hs₀).trans
              (partialIteration_forecast hon (by simp [hdue])), rfl⟩, hlog⟩
  | fullParallel analysis filter done kStart =>
      refine ⟨_, rfl, ?_⟩
      have hstay : ∀ s k, fullIteration filter obs done s k = s := fun s k => by
        simp [fullIteration, hdue]
      cases analysis with
      | false => exact congrArg LoopState.log (List.foldl_fixed' (fun k => by simp [hstay]) _)
      | true => exact congrArg LoopState.log (List.foldl_fixed' (hstay _) _)

/-- **Every scheduled observation, exactly once**, for one driver and one schedule. -/
theorem assimilates_iff (d : Driver) (S : Schedule nt) :
    d.Assimilates S.toObsIndex nt ↔ d.Reaches S.toObsIndex nt := by
  by_cases hnil : S.times = []
  · obtain ⟨s, hs, hlog⟩ := run_of_nil d hnil nt
    refine iff_of_true ⟨s, hs, ?_, ?_⟩ (.inl hnil)
    · rw [hlog, ObsIndex.mObs, hnil]; rfl
    · intro past k km future heq
      simp [hlog] at heq
  · have hpos : 0 < S.mObs := List.length_pos_iff.mpr hnil
    have hsome : ∀ {s : LoopState}, AssimilatesAll S.toObsIndex s → updates s.log ≠ [] := by
      rintro s ⟨hcols, -⟩ h
      rw [h] at hcols
      have := congrArg List.length hcols
      simp only [List.map_nil, List.length_nil, List.length_range] at this
      omega
    cases d with
    | serial cfg =>
        simp only [Driver.Reaches, hnil, false_or]
        rw [← serialRun_assimilatesAll_iff cfg.filter S]
        constructor
        · rintro ⟨s, hs, h⟩
          obtain ⟨rfl, hpasses⟩ := serialDriver_ok hs
          exact ⟨h, hpasses (hsome h)⟩
        · rintro ⟨h, hpasses⟩
          exact ⟨_, serialDriver_of_passes hpasses nt, h⟩
    | partialParallel cfg E ker =>
        simp only [Driver.Reaches, hnil, false_or, ← Bool.or_eq_true]
        constructor
        · rintro ⟨_, hrun, h⟩
          obtain ⟨s, hs, rfl⟩ := run_partial_ok.mp hrun
          obtain ⟨hon, hw⟩ := writes_of_updates hs (hsome h)
          obtain ⟨s', hs', hlog⟩ := partialRun_log ker S.toObsIndex hon hw nt
          obtain rfl := Except.ok.inj (hs.symm.trans hs')
          rw [hlog] at h
          exact ⟨(serialRun_assimilatesAll_iff _ S).mp h, hon, hw⟩
        · rintro ⟨hnt, hon, hw⟩
          obtain ⟨s, hs, hlog⟩ := partialRun_log ker S.toObsIndex hon hw nt
          refine ⟨_, run_partial_ok.mpr ⟨s, hs, hlog⟩, ?_⟩
          exact (serialRun_assimilatesAll_iff _ S).mpr hnt
    | fullParallel analysis filter done kStart =>
        simp only [Driver.Reaches, hnil, false_or]
        -- where the steps are counted right, the full driver is the serial one
        have heq : CountsNoneEarly S.toObsIndex done kStart →
            fullRun .EnKF S.toObsIndex done kStart nt = serialRun .EnKF S.toObsIndex nt := by
          intro h
          obtain ⟨x, hx⟩ := List.exists_mem_of_ne_nil _ hnil
          obtain ⟨k, rfl⟩ := Int.eq_ofNat_of_zero_le (S.inGrid x hx).1
          have hlt := (h k hx).1
          have hle := (S.inGrid k hx).2
          exact fullRun_eq_serialRun S h (by omega)
        constructor
        · rintro ⟨s, hs, h⟩
          obtain rfl := Except.ok.inj hs
          cases analysis with
          | false => exact absurd (updates_fullRunOff kStart nt) (hsome h)
          | true =>
              rw [if_pos rfl] at h
              obtain ⟨u, hu⟩ := List.exists_mem_of_ne_nil _ (hsome h)
              obtain rfl : filter = .EnKF := (mem_updates_fullRun.mp hu).1
              have hnone := countsNoneEarly_of_columns S h.columns
              rw [heq hnone] at h
              exact ⟨(serialRun_assimilatesAll_iff _ S).mp h, rfl, rfl, hnone⟩
        · rintro ⟨hnt, rfl, rfl, hnone⟩
          refine ⟨_, rfl, ?_⟩
          rw [if_pos rfl, heq hnone]
          exact (serialRun_assimilatesAll_iff _ S).mpr hnt

/-- The grid `0, 1, 2`. -/
def unitGrid : TimeGrid 2 where
  points := [0, 1, 2]
  length_points := rfl

/-- A model with its own functions, of one observed entry. -/
def ownFunctions (filter : FilterType) : SerialConfig where
  filter := filter
  nd := 1
  nens := ⟨2, Nat.two_pos⟩
  localization := .off
  covObsFun := true
  obsFun := true
  jobsFun := true
  sigObs := some 1
  obsSize := 1

lemma ownFunctions_passes (filter : FilterType) (mObs nt : ℕ) :
    (ownFunctions filter).AnalysisPasses mObs nt :=
  ⟨le_rfl, trivial, Nat.one_ne_zero, rfl, fun _ => rfl⟩

end Icesee
