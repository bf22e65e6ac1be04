import Icesee.Driver.FullLoop
import Icesee.Mpi.Distribution
import Icesee.Store.Ensemble

/-!
The full-parallel run on its store.

Step `k` reads slice `k` and writes the slice `k + 1 if k < nt - 1 else k`: the members
of a round are read and forecast by their ranks and then written, round by round, and a
due analysis replaces the target slice. Every step is executed, as under
`force_fresh_start`. `timeline_law` follows the ensemble through a run, over the steps
that write to the batch they read from or have one round only; the last step writes its
ensemble over the one it was computed from.
-/

namespace Icesee

open Counting Handler

variable {β : Type}

/-! ### The run -/

/-- A full-parallel run with at least as many members as ranks. -/
structure FullConfig extends IOConfig where
  filter : FilterType
  size_le : worldSize ≤ nens

/-- What the model and the filter compute: the initial columns, the forecast of a column,
the mean of an ensemble, and the analysis of an ensemble from its mean, by member. -/
structure FullKernels (β : Type) where
  initial : ℕ → ℕ → β
  forecast : ℕ → ℕ → (ℕ → β) → ℕ → β
  mean : List (ℕ → β) → ℕ → β
  update : ℕ → ℕ → (ℕ → β) → List (ℕ → β) → ℕ → ℕ → β

/-- The handler and the counter. -/
structure TimelineState (β : Type) where
  handler : Handler β
  km : ℕ

namespace FullConfig

variable (cfg : FullConfig) (ker : FullKernels β) (obs : ObsIndex)

def world : World := ⟨cfg.nens, cfg.worldSize, cfg.worldSize_pos, cfg.size_le⟩

variable [Zero β]

/-- One round of `parallel_forecast_step_default_full_parallel_run`. -/
def forecastRound (k : ℕ) (h : Handler β) (round : ℕ) : Option (Handler β) := do
  let ids := cfg.world.roundMembers round
  let (h, cols) ← readMembers cfg.toIOConfig .comm k ids h
  writeMembers cfg.toIOConfig .comm (cfg.targetSlice k)
    ((ids.zip cols).map fun p => (p.1, ker.forecast k p.1 p.2)) h

/-- All rounds. -/
def forecastStep (k : ℕ) (h : Handler β) : Option (Handler β) :=
  (List.range cfg.world.rounds).foldlM (cfg.forecastRound ker k) h

/-- One iteration of the time loop: the forecast, and if it is due the mean of the
forecast, the analysis (which only the EnKF has) and the advance of the counter. -/
def timelineStep (s : TimelineState β) (k : ℕ) : Option (TimelineState β) := do
  let h ← cfg.forecastStep ker k s.handler
  if obs.due s.km k then do
    let h ← computeForecastMean cfg.toIOConfig ker.mean (cfg.targetSlice k) h
    let h ← if cfg.filter = .EnKF then
        computeAnalysisUpdate cfg.toIOConfig (ker.update k s.km) k h
      else some h
    return ⟨h, s.km + 1⟩
  else return ⟨h, s.km⟩

/-- The constructor on a directory, and the initialization of the ensemble. -/
def timelineStart (dir : Directory β) : Option (TimelineState β) := do
  let h ← (List.range cfg.world.rounds).foldlM (fun h round =>
    writeMembers cfg.toIOConfig .comm 0
      ((cfg.world.roundMembers round).map fun j => (j, ker.initial j)) h)
    (init cfg.toIOConfig dir)
  let h ← computeForecastMean cfg.toIOConfig ker.mean 0 h
  return ⟨h, computeKmFromTobserve obs.times 0 (some obs.mObs)⟩

/-- The state before step `n`. -/
def timelineRun (dir : Directory β) (n : ℕ) : Option (TimelineState β) := do
  (List.range n).foldlM (cfg.timelineStep ker obs) (← cfg.timelineStart ker obs dir)

/-! ### What a run is for -/

/-- The columns of an ensemble, as they are read back. -/
def columns (ens : ℕ → ℕ → β) : List (ℕ → β) :=
  (List.range cfg.nens).map fun j => trim cfg.toIOConfig (ens j)

/-- Member `j` of the forecast of an ensemble. -/
def forecastOf (k : ℕ) (ens : ℕ → ℕ → β) (j : ℕ) : ℕ → β :=
  ker.forecast k j (trim cfg.toIOConfig (ens j))

/-- Member `j` of the analysis of an ensemble. -/
def analysisOf (k km : ℕ) (ens : ℕ → ℕ → β) (j : ℕ) : ℕ → β :=
  ker.update k km (trim cfg.toIOConfig (ker.mean (cfg.columns ens))) (cfg.columns ens) j

/-- The steps with an analysis. One at step `0` is never due: the counter starts behind
its column. -/
def analysed (k : ℕ) : Prop := cfg.filter = .EnKF ∧ 0 < k ∧ (k : ℤ) ∈ obs.times

instance (k : ℕ) : Decidable (cfg.analysed obs k) := inferInstanceAs (Decidable (_ ∧ _))

/-- The ensemble valid at time `t`: the forecast of that of time `t - 1`, or its analysis. -/
def validAt : ℕ → ℕ → ℕ → β
  | 0 => ker.initial
  | k + 1 =>
      let fc := cfg.forecastOf ker k (validAt k)
      if cfg.analysed obs k then cfg.analysisOf ker k (below obs.times k) fc else fc

/-- The steps whose slices are in one batch, or that have one round: in the other steps
the second round comes back to the batch that the first one left. -/
def OneBatchOrRound (k : ℕ) : Prop :=
  cfg.worldSize = cfg.nens ∨ cfg.batchStart (cfg.targetSlice k) = cfg.batchStart k

/-! ### A forecast step -/

variable {obs} {k : ℕ} {h : Handler β}

omit [Zero β] in
lemma batchStart_mono {s t : ℕ} (h : s ≤ t) : cfg.batchStart s ≤ cfg.batchStart t :=
  Nat.mul_le_mul_right _ (Nat.div_le_div_right h)

omit [Zero β] in
lemma le_targetSlice (k : ℕ) : k ≤ cfg.targetSlice k := by
  rw [IOConfig.targetSlice]
  split <;> omega

/-- A round reads the columns of its members from slice `k` and writes their forecasts. -/
lemma forecastRound_spec (hk : k < cfg.nt) (ho : IsOpen cfg.toIOConfig (cfg.batchStart k) h)
    {round : ℕ} (hr : round < cfg.world.rounds) {ens : ℕ → ℕ → β}
    (hens : ∀ i < cfg.nd, ∀ j ∈ cfg.world.roundMembers round,
      cell cfg.toIOConfig h k i j = some (ens j i)) :
    ∃ h', cfg.forecastRound ker k h round = some h' ∧
      IsOpen cfg.toIOConfig (cfg.batchStart (cfg.targetSlice k)) h' ∧
      ∀ t i j, cell cfg.toIOConfig h' t i j =
        if t = cfg.targetSlice k ∧ i < cfg.nd ∧ j ∈ cfg.world.roundMembers round then
          some (cfg.forecastOf ker k ens j i)
        else cell cfg.toIOConfig (ensureBatch cfg.toIOConfig (cfg.targetSlice k) h) t i j := by
  have hids : ∀ j ∈ cfg.world.roundMembers round, j < cfg.nens :=
    fun j hj => (cfg.world.mem_roundMembers.mp hj).2
  have hzip : (cfg.world.roundMembers round).zip
      ((cfg.world.roundMembers round).map fun j => trim cfg.toIOConfig (ens j)) =
        (cfg.world.roundMembers round).map fun j => (j, trim cfg.toIOConfig (ens j)) := by
    rw [List.zip_map_right, List.zip_eq_zipWith, List.zipWith_self, List.map_map]
    rfl
  obtain ⟨h', hwrite, ho', hcell, -⟩ := writeMembers_spec .comm ho (cfg.targetSlice_lt hk) hids
    (cfg.world.roundMembers_ne_nil hr) (cfg.forecastOf ker k ens)
  refine ⟨h', ?_, ho', hcell⟩
  simp only [forecastRound, readMembers_holds .comm ho hk hids hens, Option.bind_eq_bind,
    Option.bind_some, hzip, List.map_map]
  exact hwrite

/-- In one batch: after all rounds the forecasts of the members are in the target slice,
and everything else is as before. After `r` rounds those of the first `r` are. -/
lemma forecastStep_oneBatch (hk : k < cfg.nt)
    (ho : IsOpen cfg.toIOConfig (cfg.batchStart k) h)
    (hb : cfg.batchStart (cfg.targetSlice k) = cfg.batchStart k) {ens : ℕ → ℕ → β}
    (hens : Holds cfg.toIOConfig h k ens) :
    ∃ h', cfg.forecastStep ker k h = some h' ∧
      IsOpen cfg.toIOConfig (cfg.batchStart k) h' ∧
      ∀ t i j, cell cfg.toIOConfig h' t i j =
        if t = cfg.targetSlice k ∧ i < cfg.nd ∧ j < cfg.nens ∧
            j < cfg.world.rounds * cfg.worldSize then
          some (cfg.forecastOf ker k ens j i)
        else cell cfg.toIOConfig h t i j := by
  -- by induction on the rounds
  refine Machine.foldlM_range (fun r h' => IsOpen cfg.toIOConfig (cfg.batchStart k) h' ∧
      ∀ t i j, cell cfg.toIOConfig h' t i j =
        if t = cfg.targetSlice k ∧ i < cfg.nd ∧ j < cfg.nens ∧ j < r * cfg.worldSize then
          some (cfg.forecastOf ker k ens j i)
        else cell cfg.toIOConfig h t i j) (fun r hr h₁ hP => ?_) ⟨ho, by simp⟩
  obtain ⟨ho₁, hcell₁⟩ := hP
  have hens₁ : ∀ i < cfg.nd, ∀ j ∈ cfg.world.roundMembers r,
      cell cfg.toIOConfig h₁ k i j = some (ens j i) := by
    -- the members of this round are not among those of the rounds before
    intro i hi j hj
    obtain ⟨⟨hle, -⟩, hn⟩ := cfg.world.mem_roundMembers.mp hj
    have hle' : r * cfg.worldSize ≤ j := hle
    rw [hcell₁, if_neg (by omega)]
    exact hens i hi j hn
  obtain ⟨h₂, hround, ho₂, hcell₂⟩ := cfg.forecastRound_spec ker hk ho₁ hr hens₁
  refine ⟨h₂, hround, hb ▸ ho₂, fun t i j => ?_⟩
  rw [hcell₂, ensureBatch_of_eq ho₁ hb, hcell₁]
  have hmem : j ∈ cfg.world.roundMembers r ↔
      (r * cfg.worldSize ≤ j ∧ j < (r + 1) * cfg.worldSize) ∧ j < cfg.nens :=
    cfg.world.mem_roundMembers
  have hsucc : (r + 1) * cfg.worldSize = r * cfg.worldSize + cfg.worldSize := Nat.succ_mul _ _
  simp only [hmem]
  split_ifs <;> first | rfl | omega

/-- **The forecast** of a step: the target slice holds the forecast of slice `k`, and the
other slices up to `k` are as before. -/
lemma forecastStep_spec (hk : k < cfg.nt) (ho : IsOpen cfg.toIOConfig (cfg.batchStart k) h)
    (hq : cfg.OneBatchOrRound k) {ens : ℕ → ℕ → β} (hens : Holds cfg.toIOConfig h k ens) :
    ∃ h', cfg.forecastStep ker k h = some h' ∧
      IsOpen cfg.toIOConfig (cfg.batchStart (cfg.targetSlice k)) h' ∧
      Holds cfg.toIOConfig h' (cfg.targetSlice k) (cfg.forecastOf ker k ens) ∧
      ∀ t ≤ k, t ≠ cfg.targetSlice k → ∀ i j,
        cell cfg.toIOConfig h' t i j = cell cfg.toIOConfig h t i j := by
  by_cases hb : cfg.batchStart (cfg.targetSlice k) = cfg.batchStart k
  · obtain ⟨h', hrun, ho', hcell⟩ := cfg.forecastStep_oneBatch ker hk ho hb hens
    refine ⟨h', hrun, hb ▸ ho', fun i hi j hj => ?_, fun t _ ht i j => ?_⟩
    · rw [hcell, if_pos ⟨rfl, hi, hj, cfg.world.lt_rounds_mul hj⟩]
    · rw [hcell, if_neg fun h => ht h.1]
  · -- one round: all members are read before the switch
    have hsize : cfg.worldSize = cfg.nens := hq.resolve_right hb
    have hrounds : cfg.world.rounds = 1 := cfg.world.rounds_eq_one hsize
    have hmem : ∀ j < cfg.nens, j ∈ cfg.world.roundMembers 0 := by
      intro j hj
      refine cfg.world.mem_roundMembers.mpr ⟨⟨by omega, ?_⟩, hj⟩
      have hlt : j < cfg.world.size := (hsize ▸ hj : j < cfg.worldSize)
      simpa using hlt
    obtain ⟨h', hround, ho', hcell⟩ := cfg.forecastRound_spec ker hk ho
      (by omega : 0 < cfg.world.rounds)
      fun i hi j hj => hens i hi j (cfg.world.mem_roundMembers.mp hj).2
    refine ⟨h', ?_, ho', fun i hi j hj => ?_, fun t hle ht i j => ?_⟩
    · rw [forecastStep, hrounds]
      simpa using hround
    · rw [hcell, if_pos ⟨rfl, hi, hmem j hj⟩]
    · have hstart := cfg.batchStart_mono hle
      have hstart' := cfg.batchStart_mono (cfg.le_targetSlice k)
      rw [hcell, if_neg fun h => ht h.1, cell_ensureBatch ho _ (by omega), if_neg (by omega)]

/-! ### A whole step -/

variable (obs)

/-- The state before step `k`: its batch is open, its slice holds the ensemble of its
time, and the counter is at the position of `k`, behind an observation at step `0`. -/
structure AtStep (k : ℕ) (s : TimelineState β) : Prop where
  isOpen : IsOpen cfg.toIOConfig (cfg.batchStart k) s.handler
  holds : Holds cfg.toIOConfig s.handler k (cfg.validAt ker obs k)
  km : s.km = below obs.times (max k 1)

omit [Zero β] in
/-- The trigger of a step, in terms of the schedule. -/
lemma due_iff_scheduled (k : ℕ) :
    obs.due (below obs.times (max k 1)) k ↔ 0 < k ∧ (k : ℤ) ∈ obs.times := by
  cases k with
  | zero => simpa using not_due_zero
  | succ k =>
      have hmax : max ((k + 1 : ℕ) : ℤ) 1 = (k + 1 : ℕ) := by omega
      rw [hmax, obs.due_below]
      simp

omit [Zero β] in
/-- The counter of the next step. -/
lemma below_next (k : ℕ) : below obs.times (max (k + 1 : ℕ) 1) =
    below obs.times (max k 1) + if obs.due (below obs.times (max k 1)) k then 1 else 0 := by
  cases k with
  | zero => simp [not_due_zero]
  | succ k =>
      have hmax : max ((k + 1 : ℕ) : ℤ) 1 = (k + 1 : ℕ) := by omega
      have hmax' : max ((k + 1 + 1 : ℕ) : ℤ) 1 = ((k + 1 : ℕ) : ℤ) + 1 := by omega
      rw [hmax, hmax', below_succ obs.sorted]
      exact congrArg _ (if_congr obs.due_below.symm rfl rfl)

/-- The ensemble of the next time, by the trigger of the step. -/
lemma validAt_succ (k : ℕ) : cfg.validAt ker obs (k + 1) =
    if cfg.filter = .EnKF ∧ obs.due (below obs.times (max k 1)) k then
      cfg.analysisOf ker k (below obs.times (max k 1))
        (cfg.forecastOf ker k (cfg.validAt ker obs k))
    else cfg.forecastOf ker k (cfg.validAt ker obs k) := by
  rw [validAt]
  by_cases ha : cfg.analysed obs k
  · obtain ⟨hf, hk⟩ := id ha
    have hmax : max (k : ℤ) 1 = k := by omega
    rw [if_pos ha, if_pos ⟨hf, (due_iff_scheduled obs k).mpr hk⟩, hmax]
  · rw [if_neg ha, if_neg fun h => ha (And.intro h.1 ((due_iff_scheduled obs k).mp h.2))]

variable {obs}

/-- **A step**: the target slice holds the ensemble of the next time, the other slices up
to `k` are as before. -/
lemma timelineStep_spec (hk : k < cfg.nt) (hq : cfg.OneBatchOrRound k) {s : TimelineState β}
    (hs : cfg.AtStep ker obs k s) :
    ∃ s', cfg.timelineStep ker obs s k = some s' ∧
      IsOpen cfg.toIOConfig (cfg.batchStart (cfg.targetSlice k)) s'.handler ∧
      Holds cfg.toIOConfig s'.handler (cfg.targetSlice k) (cfg.validAt ker obs (k + 1)) ∧
      s'.km = below obs.times (max (k + 1 : ℕ) 1) ∧
      ∀ t ≤ k, t ≠ cfg.targetSlice k → ∀ i j,
        cell cfg.toIOConfig s'.handler t i j = cell cfg.toIOConfig s.handler t i j := by
  obtain ⟨h₁, hfc, ho₁, hens₁, hframe₁⟩ := cfg.forecastStep_spec ker hk hs.isOpen hq hs.holds
  have ht := cfg.targetSlice_lt hk
  rw [cfg.validAt_succ ker obs k, below_next obs k, ← hs.km]
  cases hd : obs.due s.km k
  · -- no observation: the forecast stays
    refine ⟨⟨h₁, s.km⟩, ?_, ho₁, ?_, by simp, hframe₁⟩
    · simp [timelineStep, hfc, hd]
    · simpa using hens₁
  · obtain ⟨h₂, hmean, ho₂, hcell₂, hmeans⟩ := computeForecastMean_spec ker.mean ho₁ ht hens₁
    -- the mean leaves the ensemble as it is
    have hens₂ : Holds cfg.toIOConfig h₂ (cfg.targetSlice k)
        (cfg.forecastOf ker k (cfg.validAt ker obs k)) := fun i hi j hj => by
      rw [hcell₂, hens₁ i hi j hj]
    by_cases hf : cfg.filter = .EnKF
    · obtain ⟨h₃, hupd, ho₃, hcell₃⟩ := computeAnalysisUpdate_spec (ker.update k s.km) ho₂ ht
        hens₂ hmeans
      refine ⟨⟨h₃, s.km + 1⟩, ?_, ho₃, fun i hi j hj => ?_, by simp, fun t hle htne i j => ?_⟩
      · simp [timelineStep, hfc, hd, hmean, hf, hupd]
      · rw [hcell₃, if_pos ⟨rfl, hi, List.mem_range.mpr hj⟩, if_pos ⟨hf, rfl⟩]
        rfl
      · rw [hcell₃, if_neg fun h => htne h.1, hcell₂, hframe₁ t hle htne]
    · -- the other filters compute the mean only
      refine ⟨⟨h₂, s.km + 1⟩, ?_, ho₂, ?_, by simp, fun t hle htne i j => ?_⟩
      · simp [timelineStep, hfc, hd, hmean, hf]
      · simpa [hf] using hens₂
      · rw [hcell₂, hframe₁ t hle htne]

omit [Zero β] in
/-- After all rounds of the initialization the columns of the members are in slice `0`. -/
lemma initRounds_spec (initial : ℕ → ℕ → β) (dir : Directory β) :
    ∃ h, (List.range cfg.world.rounds).foldlM (fun h round => writeMembers cfg.toIOConfig .comm 0
        ((cfg.world.roundMembers round).map fun j => (j, initial j)) h)
        (init cfg.toIOConfig dir) = some h ∧
      IsOpen cfg.toIOConfig (cfg.batchStart 0) h ∧
      ∀ i < cfg.nd, ∀ j < cfg.nens, j < cfg.world.rounds * cfg.worldSize →
        cell cfg.toIOConfig h 0 i j = some (initial j i) := by
  have hstart : cfg.batchStart 0 = 0 := by simp [IOConfig.batchStart]
  refine Machine.foldlM_range (fun r h => IsOpen cfg.toIOConfig (cfg.batchStart 0) h ∧
      ∀ i < cfg.nd, ∀ j < cfg.nens, j < r * cfg.worldSize →
        cell cfg.toIOConfig h 0 i j = some (initial j i)) (fun r hr h₁ hP => ?_)
    ⟨by rw [hstart]; exact init_isOpen dir, by simp⟩
  obtain ⟨ho₁, hcell₁⟩ := hP
  have hids : ∀ j ∈ cfg.world.roundMembers r, j < cfg.nens :=
    fun j hj => (cfg.world.mem_roundMembers.mp hj).2
  obtain ⟨h₂, hwrite, ho₂, hcell₂, -⟩ := writeMembers_open .comm ho₁ cfg.nt_pos hids initial
  refine ⟨h₂, hwrite, ho₂, fun i hi j hj hlt => ?_⟩
  rw [hcell₂]
  by_cases hold : j < r * cfg.worldSize
  · rw [hcell₁ i hi j hj hold, ite_self]
  · rw [if_pos ⟨rfl, hi, cfg.world.mem_roundMembers.mpr ⟨⟨not_lt.mp hold, hlt⟩, hj⟩⟩]

/-- The initialization leaves the initial ensemble in slice `0`. -/
lemma timelineStart_spec (obs : ObsIndex) (dir : Directory β) :
    ∃ s, cfg.timelineStart ker obs dir = some s ∧ cfg.AtStep ker obs 0 s := by
  obtain ⟨h₁, hrun, ho₁, hcell₁⟩ := cfg.initRounds_spec ker.initial dir
  have hens₁ : Holds cfg.toIOConfig h₁ 0 (cfg.validAt ker obs 0) := fun i hi j hj =>
    hcell₁ i hi j hj (cfg.world.lt_rounds_mul hj)
  obtain ⟨h₂, hmean, ho₂, hcell₂, -⟩ := computeForecastMean_spec ker.mean ho₁ cfg.nt_pos hens₁
  refine ⟨⟨h₂, computeKmFromTobserve obs.times 0 (some obs.mObs)⟩, ?_, ho₂, ?_, ?_⟩
  · simp [timelineStart, hrun, hmean]
  · intro i hi j hj
    rw [hcell₂, hens₁ i hi j hj]
  · exact computeKm_eq obs 0

lemma timelineRun_succ (dir : Directory β) {n : ℕ} {s : TimelineState β}
    (h : cfg.timelineRun ker obs dir n = some s) :
    cfg.timelineRun ker obs dir (n + 1) = cfg.timelineStep ker obs s n := by
  rw [timelineRun] at h ⊢
  obtain ⟨s₀, hs₀, hrun⟩ := Option.bind_eq_some_iff.mp h
  rw [hs₀, List.range_succ]
  simp [List.foldlM_append, hrun]

/-- **A run** reaches every step whose predecessors have one batch or one round, with the
ensemble of its time: by induction on the steps. -/
lemma timelineRun_spec (obs : ObsIndex) (dir : Directory β) (hk : k < cfg.nt)
    (hq : ∀ j < k, cfg.OneBatchOrRound j) :
    ∃ s, cfg.timelineRun ker obs dir k = some s ∧ cfg.AtStep ker obs k s := by
  induction k with
  | zero =>
      obtain ⟨s, hs, hat⟩ := cfg.timelineStart_spec ker obs dir
      exact ⟨s, by simp [timelineRun, hs], hat⟩
  | succ k ih =>
      obtain ⟨s, hs, hat⟩ := ih (by omega) fun j hj => hq j (by omega)
      obtain ⟨s', hs', ho', hens', hkm', -⟩ :=
        cfg.timelineStep_spec ker (by omega) (hq k (by omega)) hat
      have htarget : cfg.targetSlice k = k + 1 := by
        rw [IOConfig.targetSlice, if_pos (by omega)]
      rw [htarget] at ho' hens'
      exact ⟨s', (cfg.timelineRun_succ ker dir hs).trans hs', ho', hens', hkm'⟩

/-! ### The law of the timeline -/

variable (obs) in
/-- The law for step `k` of a run: the slice `next` holds the ensemble of time `k + 1`
afterwards, and the slices of `old` hold what they held before. -/
def StepLaw (dir : Directory β) (k next : ℕ) (old : ℕ → Prop) : Prop :=
  ∃ s s', cfg.timelineRun ker obs dir k = some s ∧ cfg.timelineStep ker obs s k = some s' ∧
    Holds cfg.toIOConfig s'.handler next (cfg.validAt ker obs (k + 1)) ∧
    ∀ t, old t → ∀ i j,
      cell cfg.toIOConfig s'.handler t i j = cell cfg.toIOConfig s.handler t i j

/-- A step writes its target slice and keeps the other slices up to its own. -/
lemma stepLaw_targetSlice (obs : ObsIndex) (dir : Directory β) (hk : k < cfg.nt)
    (hq : ∀ j ≤ k, cfg.OneBatchOrRound j) :
    cfg.StepLaw ker obs dir k (cfg.targetSlice k) fun t => t ≤ k ∧ t ≠ cfg.targetSlice k := by
  obtain ⟨s, hs, hat⟩ := cfg.timelineRun_spec ker obs dir hk fun j hj => hq j hj.le
  obtain ⟨s', hs', -, hens', -, hframe⟩ := cfg.timelineStep_spec ker hk (hq k le_rfl) hat
  exact ⟨s, s', hs, hs', hens', fun t ht => hframe t ht.1 ht.2⟩

/-- **The law of the timeline**, up to a step before which no round comes back to a batch
that was left: a step but the last writes the next slice and keeps all slices up to its
own; the last step writes its own slice, the last one, and keeps those before it. -/
theorem timeline_law (cfg : FullConfig) (ker : FullKernels β) (obs : ObsIndex)
    (dir : Directory β) (k : ℕ) (hk : k < cfg.nt) (hq : ∀ j ≤ k, cfg.OneBatchOrRound j) :
    if k < cfg.nt - 1 then cfg.StepLaw ker obs dir k (k + 1) fun t => t ≤ k
    else cfg.StepLaw ker obs dir k k fun t => t < k := by
  obtain ⟨s, s', hs, hs', hens, hframe⟩ := cfg.stepLaw_targetSlice ker obs dir hk hq
  by_cases hlast : k < cfg.nt - 1
  · rw [if_pos hlast]
    rw [IOConfig.targetSlice, if_pos hlast] at hens hframe
    exact ⟨s, s', hs, hs', hens, fun t ht => hframe t ⟨ht, by omega⟩⟩
  · rw [if_neg hlast]
    rw [IOConfig.targetSlice, if_neg hlast] at hens hframe
    exact ⟨s, s', hs, hs', hens, fun t ht => hframe t ⟨ht.le, by omega⟩⟩

/-- One member with one entry on one rank, over `nt` steps. -/
def counterConfig (nt : ℕ) (h : 0 < nt) : FullConfig where
  toIOConfig := .single nt h
  filter := .EnKF
  size_le := le_rfl

/-- The model counts its steps. -/
def counterKernels : FullKernels ℕ where
  initial _ _ := 0
  forecast _ _ col i := col i + 1
  mean _ _ := 0
  update _ _ _ _ _ _ := 0

/-- A run over two steps in two batches. -/
theorem timeline_law_two_steps :
    (counterConfig 2 Nat.two_pos).StepLaw counterKernels .none ∅ 0 1 fun t => t ≤ 0 :=
  timeline_law (counterConfig 2 Nat.two_pos) counterKernels .none ∅ 0 (by decide)
    fun _ _ => .inl rfl

/-- A run over one step leaves no slice `1`, and slice `0` no longer holds the initial
ensemble: the step wrote over it. -/
theorem not_stepLaw_one_step :
    ¬ (counterConfig 1 Nat.one_pos).StepLaw counterKernels .none ∅ 0 1
      fun t => t ≤ 0 := by
  rintro ⟨s, s', hs, hs', -, hframe⟩
  obtain ⟨s₀, hs₀, hat⟩ := (counterConfig 1 Nat.one_pos).timelineRun_spec counterKernels
    .none ∅ (by decide : 0 < 1) fun _ _ => .inl rfl
  obtain rfl := Option.some.inj (hs₀.symm.trans hs)
  obtain ⟨s₁, hs₁, -, hens, -⟩ :=
    (counterConfig 1 Nat.one_pos).timelineStep_spec counterKernels (by decide) (.inl rfl) hat
  obtain rfl := Option.some.inj (hs₁.symm.trans hs')
  have hnew : cell _ s₁.handler 0 0 0 = some 1 := hens 0 (by decide) 0 (by decide)
  have hold : cell _ s₀.handler 0 0 0 = some 0 := hat.holds 0 (by decide) 0 (by decide)
  rw [hframe 0 le_rfl, hold] at hnew
  exact absurd hnew (by decide)

end FullConfig

end Icesee
