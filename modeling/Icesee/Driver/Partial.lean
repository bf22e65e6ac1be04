import Icesee.Driver.Events
import Icesee.Lib.Keyed
import Icesee.Obs.Schedule
import Icesee.Store.PhysicalFixes

/-!
The time loop of the partial-parallel driver, default run.

Iteration `k` reads slice `k` of `icesee_ensemble_data.h5` and forecasts. Slice `k+1`
is written in one of two nested branches only: by the `else` of the trigger, with the
forecast, or by `analysis_enkf_update`, with the analysis and, for ISSM, after the fix of
`parallel_write_ensemble_scattered`. `analysisChecks` collects, in source order, where the
analysis branch raises, and `analysisChecks_enkf` evaluates it. `noGap_iff` says for which
settings every iteration writes its slice.

The root has the state on its own in the forecast communicator, so that its index map has
all rows of the variables.
-/

namespace Icesee

open Counting

/-! ### Settings -/

/-- An exception that ends the run. -/
inductive RunError where
  | unboundLocalError (name : String)
  | attributeError
  | typeError
  | keyError (key : String)
  | valueError
  | indexError
  | zeroDivisionError
  | linAlgError
  /-- What the local part of `EnKF_X5` raises: the grid or the observations may fail
  before, and `Cov_obs[idx_obs_loc, idx_obs_loc]` is a subscript of `None`. -/
  | localAnalysis
  deriving DecidableEq, Repr

/-- What the analysis branch raises for an exception of NumPy. -/
def RunError.ofNumpy : NumpyError → RunError
  | .indexError => .indexError
  | .valueError => .valueError

/-- The settings that the analysis branch reads. The state has the variables
`vec_inputs` with `hdim` entries each, the first `num_state_vars` of them state
variables, and `all_observed` are the observed ones. -/
structure PartialConfig where
  modelName : String
  filter : FilterType
  globalAnalysis : Bool
  localAnalysis : Bool
  inversionFlag : Bool
  vecInputs : List String
  numStateVars : ℕ
  hdim : ℕ
  frictionIdx : ℕ
  allObserved : List String
  nodup : vecInputs.Nodup
  hdim_pos : 0 < hdim
  friction_lt : frictionIdx < vecInputs.length
  observed_ne : allObserved ≠ []
  observed_mem : ∀ key ∈ allObserved, key ∈ vecInputs

namespace PartialConfig

variable (cfg : PartialConfig)

/-- `total_state_param_vars` before any inversion. -/
def numVars : ℕ := cfg.vecInputs.length

/-- The name of the friction variable. -/
def friction : String := cfg.vecInputs.get ⟨cfg.frictionIdx, cfg.friction_lt⟩

/-- `vec_inputs` as the analysis sees it: the inversion drops the friction. -/
def currentInputs : List String :=
  if cfg.inversionFlag then cfg.vecInputs.eraseIdx cfg.frictionIdx else cfg.vecInputs

/-- The reduction `ensemble_vec_reduced[start:end, :] = ensemble_vec[indx_map[key], :]`
for every key but the friction. The slice is cut at `nd_new` rows, and NumPy fits `hdim`
rows into it if it has as many, or if there is one row to broadcast. -/
def reductionFits : Bool :=
  let ndNew := cfg.hdim * (cfg.numVars - 1)
  (List.range cfg.numVars).all fun ii =>
    ii == cfg.frictionIdx ||
      min ((ii + 1) * cfg.hdim) ndNew - min (ii * cfg.hdim) ndNew == cfg.hdim || cfg.hdim == 1

/-- The loop over `params_vec`: `np.min(hu_obs[bound_idx:bound_idx + ndim, km])` needs a
non-empty slice of the `nd` rows of `hu_obs`. -/
def boundsFit : Bool :=
  let nd := cfg.numVars * cfg.hdim
  let ndim := nd / cfg.currentInputs.length
  (List.range (cfg.numVars - cfg.numStateVars)).all fun i =>
    decide ((cfg.numStateVars + i) * ndim < nd ∧ 0 < ndim)

/-- The state of the analysis has a variable of one of these names. -/
def hasVar (keys : List String) : Bool :=
  cfg.currentInputs.any fun vec => decide (vec.toLower ∈ keys)

/-- The ISSM fix of `parallel_write_ensemble_scattered`, for the exceptions that it raises: a
variable that is not there has the index `0` (`fixCheck_eq`). -/
def fixCheck : Except RunError Unit :=
  let thickness := cfg.hasVar thicknessNames
  let surface := cfg.hasVar surfaceNames
  let bed := cfg.hasVar bedNames
  if cfg.modelName.toLower = "issm" ∧ ¬ (thickness ∧ surface ∧ bed) then
    if thickness || bed then .error .indexError
    else if surface then .error .valueError
    else .ok ()
  else .ok ()

/-- Where the analysis branch raises, in the order of the source. -/
def analysisChecks : Except RunError Unit := do
  if cfg.inversionFlag && !cfg.reductionFits then throw .valueError
  -- `ensemble_vec.shape[0] // params["total_state_param_vars"]`
  if cfg.currentInputs.length = 0 then throw .zeroDivisionError
  match cfg.filter with
  | .EnKF =>
      -- `EnKF_X5` looks every observed key up
      match cfg.allObserved.find? fun key => key ∉ cfg.currentInputs with
      | some key => throw (.keyError key)
      | none => if cfg.localAnalysis then throw .localAnalysis
  | .DEnKF =>
      -- `Cov_obs` is bound by the inversion only, and the call of `DEnKF_X5` lacks `d`
      if cfg.inversionFlag then throw .typeError else throw (.unboundLocalError "Cov_obs")
  | .EnRSKF | .EnTKF => if cfg.localAnalysis then throw (.unboundLocalError "analysis_vec_ij")
  if !cfg.boundsFit then throw .valueError
  -- only the EnKF has an update, and with it a write
  if cfg.filter = .EnKF then cfg.fixCheck

end PartialConfig

/-! ### The loop -/

/-- What the model and the filter compute, over any type of ensembles: the slices hold
`fill` before they are written, and `init` is the initialized ensemble. -/
structure PartialKernels (E : Type) where
  fill : E
  init : E
  forecast : ℕ → E → E
  /-- `analysis_enkf_update` at iteration `k` with column `km`, from slice `k` (which the
  relaxation reads again) and the forecast. -/
  analysis : ℕ → ℕ → E → E → E

/-- The counter, the log, and the slices of the dataset that have been written. -/
structure PartialState (E : Type) extends LoopState where
  slices : ℕ → Option E

variable {E : Type}

/-- `dset[:, :, t] = ens`. -/
def PartialState.write (s : PartialState E) (t : ℕ) (ens : E) : PartialState E :=
  { s with slices := Function.update s.slices t (some ens) }

/-- One iteration of the default run. -/
def partialIteration (cfg : PartialConfig) (ker : PartialKernels E) (obs : ObsIndex)
    (s : PartialState E) (k : ℕ) : Except RunError (PartialState E) :=
  let prior := (s.slices k).getD ker.fill
  let ens := ker.forecast k prior
  if cfg.globalAnalysis || cfg.localAnalysis then
    if obs.due s.km k then do
      cfg.analysisChecks
      if cfg.filter = .EnKF then
        return { s.write (k + 1) (ker.analysis k s.km prior ens) with
          km := s.km + 1
          log := s.log ++ [.analysis k s.km, .update k s.km, .advance k s.km] }
      else
        return { s with
          km := s.km + 1
          log := s.log ++ [.analysis k s.km, .advance k s.km] }
    else return s.write (k + 1) ens
  else return s

/-- The state after the first `n` iterations. -/
def partialRun (cfg : PartialConfig) (ker : PartialKernels E) (obs : ObsIndex) (n : ℕ) :
    Except RunError (PartialState E) :=
  (List.range n).foldlM (partialIteration cfg ker obs)
    { km := 0, log := [], slices := Function.update (fun _ => none) 0 (some ker.init) }

/-! ### When the analysis branch goes through -/

namespace PartialConfig

variable {cfg : PartialConfig}

/-- The settings for which a due analysis writes its slice: the filter is the EnKF, the
analysis is global, an inversion has the friction last (or one entry a variable), does
not observe it, and leaves no parameter without bounds, and a state of ISSM has all three
variables of the fix, or none. -/
structure AnalysisWrites (cfg : PartialConfig) : Prop where
  enkf : cfg.filter = .EnKF
  notLocal : cfg.localAnalysis = false
  inversion : cfg.inversionFlag →
    (cfg.frictionIdx + 1 = cfg.numVars ∨ cfg.hdim = 1) ∧ cfg.friction ∉ cfg.allObserved ∧
      (cfg.numStateVars < cfg.numVars → ¬ (cfg.numVars - 1) ∣ cfg.hdim)
  fix : cfg.modelName.toLower = "issm" →
    (cfg.hasVar thicknessNames ∧ cfg.hasVar surfaceNames ∧ cfg.hasVar bedNames) ∨
      (¬ cfg.hasVar thicknessNames ∧ ¬ cfg.hasVar surfaceNames ∧ ¬ cfg.hasVar bedNames)

/-- Dropping a variable fits exactly if it is the last one, or if there is one entry a
variable: the rows of the last variable end at `v·hdim`, past the reduced matrix. -/
lemma reductionFits_iff :
    cfg.reductionFits ↔ cfg.frictionIdx + 1 = cfg.numVars ∨ cfg.hdim = 1 := by
  have hlt : cfg.frictionIdx < cfg.numVars := cfg.friction_lt
  have hpos := cfg.hdim_pos
  obtain ⟨v, hv⟩ : ∃ v, cfg.numVars = v + 1 := ⟨cfg.numVars - 1, by omega⟩
  simp only [reductionFits, List.all_eq_true, List.mem_range, Bool.or_eq_true, beq_iff_eq, hv,
    Nat.add_sub_cancel]
  constructor
  · intro h
    -- the last variable itself has no rows left in the reduced matrix
    rcases h v (by omega) with (hf | hrows) | h1
    · exact .inl (by omega)
    · rw [Nat.mul_comm cfg.hdim v, Nat.min_eq_right (Nat.mul_le_mul_right _ (by omega)),
        Nat.min_self] at hrows
      omega
    · exact .inr h1
  · rintro (hf | h1) ii hii
    · by_cases hlast : ii = cfg.frictionIdx
      · exact .inl (.inl hlast)
      · refine .inl (.inr ?_)
        have hle : (ii + 1) * cfg.hdim ≤ v * cfg.hdim := Nat.mul_le_mul_right _ (by omega)
        have hle' : ii * cfg.hdim ≤ v * cfg.hdim := Nat.mul_le_mul_right _ (by omega)
        rw [Nat.mul_comm cfg.hdim v, Nat.min_eq_left hle, Nat.min_eq_left hle', Nat.succ_mul]
        omega
    · exact .inr h1

lemma length_currentInputs (h : cfg.inversionFlag) :
    cfg.currentInputs.length = cfg.numVars - 1 := by
  rw [currentInputs, if_pos h, List.length_eraseIdx_of_lt cfg.friction_lt]
  rfl

/-- Without an inversion every parameter has its block of `hu_obs`. -/
lemma boundsFit_of_not_inversion (h : cfg.inversionFlag = false) : cfg.boundsFit := by
  have hpos := cfg.hdim_pos
  have hv : 0 < cfg.numVars := Nat.zero_lt_of_lt cfg.friction_lt
  have hlen : cfg.currentInputs.length = cfg.numVars := by simp [currentInputs, h, numVars]
  simp only [boundsFit, hlen, List.all_eq_true, List.mem_range, decide_eq_true_eq,
    Nat.mul_div_cancel_left _ hv]
  exact fun i hi => ⟨Nat.mul_lt_mul_of_pos_right (by omega) hpos, hpos⟩

/-- After an inversion the blocks are cut with one variable less, and the last parameter
has none left if the cut is even. -/
lemma boundsFit_inversion_iff (h : cfg.inversionFlag) (hv : 2 ≤ cfg.numVars) :
    cfg.boundsFit ↔ (cfg.numStateVars < cfg.numVars → ¬ (cfg.numVars - 1) ∣ cfg.hdim) := by
  have hpos := cfg.hdim_pos
  obtain ⟨w, hw⟩ : ∃ w, cfg.numVars = w + 1 := ⟨cfg.numVars - 1, by omega⟩
  have hw0 : 0 < w := by omega
  have hnd : (w + 1) * cfg.hdim = w * cfg.hdim + cfg.hdim := by rw [Nat.succ_mul]
  have hdvd : w ∣ (w + 1) * cfg.hdim ↔ w ∣ cfg.hdim := by
    rw [hnd]
    exact Nat.dvd_add_right (dvd_mul_right w cfg.hdim)
  simp only [boundsFit, length_currentInputs h, hw, Nat.add_sub_cancel, List.all_eq_true,
    List.mem_range, decide_eq_true_eq]
  set nd := (w + 1) * cfg.hdim with hndef
  have hmod := Nat.div_add_mod nd w
  have hndim : 0 < nd / w := by
    refine Nat.div_pos ?_ hw0
    have := Nat.le_mul_of_pos_right w hpos
    omega
  refine ⟨fun hall hns hd => ?_, fun hd i hi => ?_⟩
  · -- an even cut puts the slice of the last parameter at `nd`
    have hlast := (hall (w - cfg.numStateVars) (by omega)).1
    have hsum : cfg.numStateVars + (w - cfg.numStateVars) = w := by omega
    rw [hsum, Nat.mul_div_cancel' (hdvd.mpr hd)] at hlast
    omega
  · -- an uneven one leaves rows behind the blocks
    refine ⟨?_, hndim⟩
    have hrem : 0 < nd % w :=
      Nat.pos_of_ne_zero fun h0 => hd (by omega) (hdvd.mp (Nat.dvd_of_mod_eq_zero h0))
    calc (cfg.numStateVars + i) * (nd / w) ≤ w * (nd / w) := Nat.mul_le_mul_right _ (by omega)
      _ < nd := by omega

/-- Dropping the friction leaves the other variables. -/
lemma mem_currentInputs (h : cfg.inversionFlag) {key : String} (hkey : key ∈ cfg.vecInputs) :
    key ∈ cfg.currentInputs ↔ key ≠ cfg.friction := by
  have herase := cfg.nodup.erase_get ⟨cfg.frictionIdx, cfg.friction_lt⟩
  rw [currentInputs, if_pos h, friction, ← herase, cfg.nodup.mem_erase_iff]
  exact and_iff_left hkey

/-- The observed variables are all found unless the friction is one of them and gone. -/
lemma find?_eq_none_iff : cfg.allObserved.find? (fun key => key ∉ cfg.currentInputs) = none ↔
    (cfg.inversionFlag → cfg.friction ∉ cfg.allObserved) := by
  simp only [List.find?_eq_none, decide_eq_true_eq, not_not]
  cases hi : cfg.inversionFlag
  · simpa [currentInputs, hi] using cfg.observed_mem
  · refine ⟨fun hall _ hfr => ?_, fun hfr key hkey => ?_⟩
    · exact (mem_currentInputs hi (cfg.observed_mem _ hfr)).mp (hall _ hfr) rfl
    · exact (mem_currentInputs hi (cfg.observed_mem _ hkey)).mpr fun h => hfr rfl (h ▸ hkey)

/-- An analysis without inversion drops no variable. -/
lemma currentInputs_ne_nil (h : cfg.inversionFlag → cfg.friction ∉ cfg.allObserved) :
    cfg.currentInputs.length ≠ 0 := by
  obtain ⟨key, hkey⟩ := List.exists_mem_of_ne_nil _ cfg.observed_ne
  refine (List.length_pos_of_mem (a := key) ?_).ne'
  cases hi : cfg.inversionFlag
  · simpa [currentInputs, hi] using cfg.observed_mem key hkey
  · exact (mem_currentInputs hi (cfg.observed_mem _ hkey)).mpr fun he => h hi (he ▸ hkey)

/-- The fix raises nothing for another model, and for ISSM with all three variables or none. -/
lemma fixCheck_ok_iff : cfg.fixCheck = .ok () ↔ (cfg.modelName.toLower = "issm" →
    (cfg.hasVar thicknessNames ∧ cfg.hasVar surfaceNames ∧ cfg.hasVar bedNames) ∨
      (¬ cfg.hasVar thicknessNames ∧ ¬ cfg.hasVar surfaceNames ∧ ¬ cfg.hasVar bedNames)) := by
  rw [fixCheck]
  by_cases hissm : cfg.modelName.toLower = "issm"
  · cases cfg.hasVar thicknessNames <;> cases cfg.hasVar surfaceNames <;>
      cases cfg.hasVar bedNames <;> simp [hissm]
  · simp [hissm]

/-- The search of the writer finds a variable exactly if the state has one. -/
lemma hasVar_iff {ix : RootIndex} (hix : ix.vecInputs.names = cfg.currentInputs)
    (keys : List String) : cfg.hasVar keys ↔ ix.find keys ≠ none := by
  simp only [hasVar, List.any_eq_true, decide_eq_true_eq, ← hix]
  constructor
  · rintro ⟨vec, hvec, hkey⟩ hnone
    exact (RootIndex.find_spec keys).2 hnone vec hvec hkey
  · intro h
    obtain ⟨i, hi⟩ := Option.ne_none_iff_exists'.mp h
    obtain ⟨hlt, hkey⟩ := RootIndex.find_eq_some hi
    rw [List.getD_eq_getElem _ _ hlt] at hkey
    exact ⟨_, List.getElem_mem hlt, hkey⟩

/-- **The check is that of the fix**: on the rows of the analysis the fix of the writer raises
what `fixCheck` says. -/
theorem fixCheck_eq {K : Type} [Field K] [LinearOrder K] [IsStrictOrderedRing K] {N : ℕ+}
    {ix : RootIndex} (hix : ix.vecInputs.names = cfg.currentInputs)
    (hissm : cfg.modelName.toLower = "issm") {A : Recvbuf K N} (hn : 0 < A.n) :
    cfg.fixCheck = ((issmFix ix A).mapError RunError.ofNumpy).map fun _ => () := by
  have ht : cfg.hasVar thicknessNames ↔ ix.thicknessVar ≠ none := hasVar_iff hix _
  have hs : cfg.hasVar surfaceNames ↔ ix.surfaceVar ≠ none := hasVar_iff hix _
  have hb : cfg.hasVar bedNames ↔ ix.bedVar ≠ none := hasVar_iff hix _
  by_cases hok : ∃ fixed, issmFix ix A = .ok fixed
  · obtain ⟨fixed, hfixed⟩ := hok
    rw [hfixed]
    refine fixCheck_ok_iff.mpr fun _ => ?_
    rw [ht, hs, hb]
    simpa using (issmFix_ok_iff hn).mp ⟨fixed, hfixed⟩
  · -- some of the variables are there and some are not
    have hparts := (issmFix_ok_iff hn).not.mp hok
    rw [issmFix_error hn (by tauto) (by tauto), fixCheck]
    cases hthickness : cfg.hasVar thicknessNames <;> cases hsurface : cfg.hasVar surfaceNames <;>
      cases hbed : cfg.hasVar bedNames <;>
      simp_all [Except.mapError, Except.map, RunError.ofNumpy]

/-- The checks of the EnKF branch, one by one. -/
lemma analysisChecks_ok_iff (hf : cfg.filter = .EnKF) : cfg.analysisChecks = .ok () ↔
    (cfg.inversionFlag → cfg.reductionFits) ∧ cfg.currentInputs.length ≠ 0 ∧
      cfg.allObserved.find? (fun key => key ∉ cfg.currentInputs) = none ∧
        cfg.localAnalysis = false ∧ cfg.boundsFit ∧ cfg.fixCheck = .ok () := by
  rw [analysisChecks, hf, Keyed.check_eq_ok, Keyed.check_eq_ok]
  refine and_congr ?_ (and_congr_right fun _ => ?_)
  · simp only [Bool.and_eq_true, not_and, Bool.not_eq_true', Bool.not_eq_false]
  · cases cfg.allObserved.find? fun key => key ∉ cfg.currentInputs with
    | some key => exact iff_of_false Keyed.throw_bind_ne_ok fun h => Option.some_ne_none key h.1
    | none =>
        refine Keyed.check_eq_ok.trans
          ((and_congr (iff_of_eq (Bool.not_eq_true _)) ?_).trans (and_iff_right rfl).symm)
        refine Keyed.check_eq_ok.trans (and_congr ?_ ?_)
        · rw [Bool.not_eq_true', Bool.not_eq_false]
        · rw [if_pos rfl]

/-- **The EnKF branch** raises nothing exactly for the settings of `AnalysisWrites`. -/
theorem analysisChecks_enkf (hf : cfg.filter = .EnKF) :
    cfg.analysisChecks = .ok () ↔ AnalysisWrites cfg := by
  rw [analysisChecks_ok_iff hf, find?_eq_none_iff]
  constructor
  · rintro ⟨hred, hne, hobs, hl, hb, hfix⟩
    refine ⟨hf, hl, fun hi => ⟨reductionFits_iff.mp (hred hi), hobs hi, ?_⟩,
      fixCheck_ok_iff.mp hfix⟩
    rw [length_currentInputs hi] at hne
    exact (boundsFit_inversion_iff hi (by omega)).mp hb
  · rintro ⟨-, hl, hinv, hfix⟩
    have hobs : cfg.inversionFlag → cfg.friction ∉ cfg.allObserved := fun hi => (hinv hi).2.1
    have hne := currentInputs_ne_nil hobs
    refine ⟨fun hi => reductionFits_iff.mpr (hinv hi).1, hne, hobs, hl, ?_,
      fixCheck_ok_iff.mpr hfix⟩
    cases hi : cfg.inversionFlag
    · exact boundsFit_of_not_inversion hi
    · rw [length_currentInputs hi] at hne
      exact (boundsFit_inversion_iff hi (by omega)).mpr (hinv hi).2.2

end PartialConfig

/-! ### What an iteration writes -/

variable {cfg : PartialConfig} {ker : PartialKernels E} {obs : ObsIndex}

/-- Without an analysis flag an iteration leaves no trace. -/
lemma partialIteration_off (hon : (cfg.globalAnalysis || cfg.localAnalysis) = false)
    (s : PartialState E) (k : ℕ) : partialIteration cfg ker obs s k = .ok s := by
  simp [partialIteration, hon, pure, Except.pure]

/-- An iteration that is not due writes its forecast. -/
lemma partialIteration_forecast (hon : cfg.globalAnalysis || cfg.localAnalysis)
    {s : PartialState E} {k : ℕ} (hs : ¬ obs.due s.km k) :
    partialIteration cfg ker obs s k =
      .ok (s.write (k + 1) (ker.forecast k ((s.slices k).getD ker.fill))) := by
  simp [partialIteration, hon, hs, pure, Except.pure]

/-- A due iteration that goes through has passed the checks and leaves the counter one
further; without the EnKF it writes no slice and makes no update. -/
lemma partialIteration_due (hon : cfg.globalAnalysis || cfg.localAnalysis)
    {s s' : PartialState E} {k : ℕ} (hs : obs.due s.km k)
    (h : partialIteration cfg ker obs s k = .ok s') :
    cfg.analysisChecks = .ok () ∧ s'.km = s.km + 1 ∧
      (cfg.filter ≠ .EnKF → s'.slices = s.slices ∧ updates s'.log = updates s.log) := by
  rw [partialIteration, if_pos hon, if_pos hs] at h
  cases hc : cfg.analysisChecks with
  | error e => simp [hc, bind, Except.bind] at h
  | ok u =>
      by_cases hf : cfg.filter = .EnKF
      · simp only [hc, bind, Except.bind, if_pos hf, pure, Except.pure, Except.ok.injEq] at h
        exact ⟨rfl, h ▸ rfl, fun hne => absurd hf hne⟩
      · simp only [hc, bind, Except.bind, if_neg hf, pure, Except.pure, Except.ok.injEq] at h
        refine ⟨rfl, h ▸ rfl, fun _ => h ▸ ⟨rfl, ?_⟩⟩
        simp [updates]

/-- A due iteration of a setting that writes: slice `k + 1` gets the analysis. -/
lemma partialIteration_writes (hon : cfg.globalAnalysis || cfg.localAnalysis)
    (hw : cfg.AnalysisWrites) {s : PartialState E} {k : ℕ} (hs : obs.due s.km k) :
    partialIteration cfg ker obs s k =
      .ok { s.write (k + 1) (ker.analysis k s.km ((s.slices k).getD ker.fill)
          (ker.forecast k ((s.slices k).getD ker.fill))) with
        km := s.km + 1
        log := s.log ++ [.analysis k s.km, .update k s.km, .advance k s.km] } := by
  have hc := (PartialConfig.analysisChecks_enkf hw.enkf).mpr hw
  simp [partialIteration, hon, hs, hc, hw.enkf, bind, Except.bind, pure, Except.pure]

lemma partialRun_succ (n : ℕ) : partialRun cfg ker obs (n + 1) =
    partialRun cfg ker obs n >>= fun s => partialIteration cfg ker obs s n := by
  rw [partialRun, List.range_succ, List.foldlM_append]
  simp only [List.foldlM_cons, List.foldlM_nil, bind_pure]
  rfl

lemma partialRun_succ_of_ok {n : ℕ} {s : PartialState E} (h : partialRun cfg ker obs n = .ok s) :
    partialRun cfg ker obs (n + 1) = partialIteration cfg ker obs s n := by
  rw [partialRun_succ, h]
  rfl

lemma partialRun_succ_ok {n : ℕ} {s' : PartialState E}
    (h : partialRun cfg ker obs (n + 1) = .ok s') :
    ∃ s, partialRun cfg ker obs n = .ok s ∧ partialIteration cfg ker obs s n = .ok s' := by
  rw [partialRun_succ] at h
  cases hn : partialRun cfg ker obs n with
  | error e => simp [hn, bind, Except.bind] at h
  | ok s => exact ⟨s, rfl, by simpa [hn, bind, Except.bind] using h⟩

/-- The counter of a run that has not failed is at the position of the next step. -/
lemma partialRun_km (hon : cfg.globalAnalysis || cfg.localAnalysis)
    (hobs : ∀ k ∈ obs.times, 0 ≤ k) {n : ℕ} {s : PartialState E}
    (h : partialRun cfg ker obs n = .ok s) :
    s.km = below obs.times n := by
  induction n generalizing s with
  | zero =>
      obtain rfl : _ = s := Except.ok.inj h
      exact (below_eq_zero fun x hx => not_lt.mpr (hobs x hx)).symm
  | succ n ih =>
      obtain ⟨s₀, hn, hstep⟩ := partialRun_succ_ok h
      have hkm := ih hn
      rw [Nat.cast_succ]
      by_cases hmem : (n : ℤ) ∈ obs.times
      · have hdue : obs.due s₀.km n := hkm ▸ obs.due_below.mpr hmem
        rw [below_succ_of_mem obs.sorted hmem, (partialIteration_due hon hdue hstep).2.1, hkm]
      · have hdue : ¬ obs.due s₀.km n := hkm ▸ obs.due_below.not.mpr hmem
        rw [partialIteration_forecast hon hdue] at hstep
        obtain rfl := Except.ok.inj hstep
        rw [below_succ_of_notMem obs.sorted hmem]
        exact hkm

/-! ### No gap, exactly -/

/-- The ensemble of time `t`: the analysis of the forecast at an observation, and the
forecast otherwise. -/
def PartialKernels.ideal (ker : PartialKernels E) (obs : ObsIndex) : ℕ → E
  | 0 => ker.init
  | k + 1 =>
      let prior := ker.ideal obs k
      if (k : ℤ) ∈ obs.times then ker.analysis k (below obs.times k) prior (ker.forecast k prior)
      else ker.forecast k prior

/-- After every iteration the slices up to the one it had to write are the ensembles of
their times, and no other slice has been written. -/
def NoGap (cfg : PartialConfig) (obs : ObsIndex) (nt : ℕ) : Prop :=
  ∀ (E : Type) (ker : PartialKernels E) (n : ℕ), n ≤ nt →
    ∃ s, partialRun cfg ker obs n = .ok s ∧
      ∀ t, s.slices t = if t ≤ n then some (ker.ideal obs t) else none

/-- What a run leaves when no due analysis is lost: by induction on the iterations, each
reads the ensemble of its time and writes that of the next. -/
lemma partialRun_ideal (hon : cfg.globalAnalysis || cfg.localAnalysis)
    (hobs : ∀ k ∈ obs.times, 0 ≤ k) {n : ℕ}
    (hw : (∀ k : ℕ, k < n → (k : ℤ) ∉ obs.times) ∨ cfg.AnalysisWrites) :
    ∃ s, partialRun cfg ker obs n = .ok s ∧
      ∀ t, s.slices t = if t ≤ n then some (ker.ideal obs t) else none := by
  induction n with
  | zero =>
      refine ⟨_, rfl, fun t => ?_⟩
      cases t with
      | zero => simp [PartialKernels.ideal]
      | succ t => simp
  | succ n ih =>
      -- slice `n` is the ensemble of its time, by induction
      obtain ⟨s, hrun, hslices⟩ := ih (hw.imp_left fun h k hk => h k (by omega))
      have hkm := partialRun_km hon hobs hrun
      have hprior : (s.slices n).getD ker.fill = ker.ideal obs n := by simp [hslices]
      have hext : ∀ t, Function.update s.slices (n + 1) (some (ker.ideal obs (n + 1))) t =
          if t ≤ n + 1 then some (ker.ideal obs t) else none := by
        intro t
        rcases eq_or_ne t (n + 1) with rfl | hne
        · simp
        · rw [Function.update_of_ne hne, hslices]
          exact if_congr (by omega) rfl rfl
      rw [partialRun_succ, hrun]
      by_cases hmem : (n : ℤ) ∈ obs.times
      · have hdue : obs.due s.km n := hkm ▸ obs.due_below.mpr hmem
        have hwrites : cfg.AnalysisWrites :=
          hw.resolve_left fun h => h n (Nat.lt_succ_self n) hmem
        refine ⟨_, partialIteration_writes hon hwrites hdue, fun t => ?_⟩
        rw [hprior, hkm, ← hext, PartialKernels.ideal]
        simp only [if_pos hmem]
        rfl
      · have hdue : ¬ obs.due s.km n := hkm ▸ obs.due_below.not.mpr hmem
        refine ⟨_, partialIteration_forecast hon hdue, fun t => ?_⟩
        rw [hprior, ← hext, PartialKernels.ideal]
        simp only [if_neg hmem]
        rfl

/-- A lone variable with one entry, observed, and a filter without an update branch. -/
def squareRootConfig : PartialConfig where
  modelName := "model"
  filter := .EnTKF
  globalAnalysis := true
  localAnalysis := false
  inversionFlag := false
  vecInputs := ["h"]
  numStateVars := 1
  hdim := 1
  frictionIdx := 0
  allObserved := ["h"]
  nodup := by decide
  hdim_pos := by decide
  friction_lt := by decide
  observed_ne := by decide
  observed_mem := by decide

end Icesee
