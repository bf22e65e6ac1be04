import Icesee.Driver.Assimilation
import Icesee.Obs.Synthetic

/-!
Is the ensemble compared with an observation of its own time?

At iteration `k` the forecast takes the ensemble from time `k` to `k + 1`, and an update
there uses the column `km` with `obs_index[km] = k`. The full generator draws that column
from column `k + 1` of the true state; the generator of the other two modes draws it from
column `k`, one step too early. `timeAligned_iff` says that this goes unnoticed only when
nothing is observed before the end of the grid.
-/

namespace Icesee

open Counting

variable {nt : ℕ}

/-- An update is made at a scheduled step of the loop, with the column of that step. -/
lemma mem_updates_run (S : Schedule nt) {d : Driver} {s : LoopState}
    (h : d.run S.toObsIndex nt = .ok s) {k km : ℕ} (hup : (k, km) ∈ updates s.log) :
    S.times[km]? = some (k : ℤ) ∧ k < nt := by
  have hobs : ∀ k ∈ S.times, 0 ≤ k := fun k hk => (S.inGrid k hk).1
  cases d with
  | serial cfg =>
      obtain ⟨rfl, -⟩ := serialDriver_ok h
      exact (mem_updates_serialRun hobs).mp hup
  | partialParallel cfg E ker =>
      obtain ⟨s₀, hs₀, rfl⟩ := run_partial_ok.mp h
      obtain ⟨hon, hw⟩ := writes_of_updates hs₀ (List.ne_nil_of_mem hup)
      obtain ⟨s', hs', hlog⟩ := partialRun_log ker S.toObsIndex hon hw nt
      obtain rfl := Except.ok.inj (hs₀.symm.trans hs')
      rw [hlog] at hup
      exact (mem_updates_serialRun hobs).mp hup
  | fullParallel analysis filter done kStart =>
      obtain rfl := Except.ok.inj h
      cases analysis with
      | false =>
          rw [if_neg Bool.false_ne_true, updates_fullRunOff] at hup
          exact absurd hup List.not_mem_nil
      | true =>
          obtain ⟨-, -, hk, -, -, htimes⟩ := mem_updates_fullRun.mp hup
          exact ⟨htimes, hk⟩

/-- The matrix that a driver reads its columns from. -/
def Driver.synthetic (d : Driver) (cfg : ObsSetup) (noise : ObsNoise) (obsT : List ℚ)
    (X : TrueState) (obs : ObsIndex) (nt : ℕ) : Except ObsError (ℕ → ObsColumn) :=
  match d with
  | .serial _ => cfg.utilsObs noise obsT X obs
  | .partialParallel _ _ _ => cfg.utilsObs noise obsT X obs
  | .fullParallel _ _ _ _ => cfg.fullObs noise obsT X obs nt

/-- Every update uses a column that is drawn from the true state at the time of the
forecast, where there is such a column, and without noise the generators agree on what
both of them observe. -/
structure TimeAligned (cfg : ObsSetup) (obsT : List ℚ) (X : TrueState) (obs : ObsIndex)
    (nt : ℕ) : Prop where
  sameTime : ∀ (d : Driver) (noise : ObsNoise) (hu : ℕ → ObsColumn) (s : LoopState),
    d.synthetic cfg noise obsT X obs nt = .ok hu → d.run obs nt = .ok s →
      ∀ k km, (k, km) ∈ updates s.log → k + 1 < X.ncols →
        ∀ key i e, hu km key i = some e → e.col = k + 1
  noiseless : ∀ hu hu' : ℕ → ObsColumn,
    cfg.utilsObs 0 obsT X obs = .ok hu → cfg.fullObs 0 obsT X obs nt = .ok hu' →
      ∀ km key i e e', hu km key i = some e → hu' km key i = some e' → e.value = e'.value

/-- Nothing is observed by `UtilsFunctions` at a scheduled step of the loop whose next
column exists. -/
def NothingObserved (cfg : ObsSetup) (obsT : List ℚ) (X : TrueState) (obs : ObsIndex)
    (nt : ℕ) : Prop :=
  ∀ k : ℕ, k < nt → (k : ℤ) ∈ obs.times → k + 1 < X.ncols →
    ∀ key i, ¬ ObsSetup.UtilsObserves cfg obsT X (below obs.times k) k key i

variable {cfg : ObsSetup} {obsT : List ℚ} {X : TrueState} {noise : ObsNoise} {hu : ℕ → ObsColumn}

/-- The entries of `UtilsFunctions` in the column of step `k` are drawn from column `k`. -/
lemma utilsObs_col {obs : ObsIndex} (h : cfg.utilsObs noise obsT X obs = .ok hu) {k km : ℕ}
    (hk : obs.times[km]? = some (k : ℤ)) {key : String} {i : ℕ} {e : Drawn} :
    hu km key i = some e ↔ ObsSetup.UtilsObserves cfg obsT X km k key i ∧
      ⟨k, X.value key i k + noise km key i⟩ = e :=
  ObsSetup.utilsColumn_apply (by simpa using ObsSetup.utilsObs_spec h hk)

/-- The entries of the full generator in the column of step `k` are drawn from the next
column. -/
lemma fullObs_col (S : Schedule nt) (h : cfg.fullObs noise obsT X S.toObsIndex nt = .ok hu)
    {k km : ℕ} (hk : S.times[km]? = some (k : ℤ)) {key : String} {i : ℕ} {e : Drawn}
    (he : hu km key i = some e) : k < nt ∧
      ⟨ObsSetup.tcol X k, X.value key i (ObsSetup.tcol X k) + noise km key i⟩ = e := by
  have hspec := ObsSetup.fullObs_spec (fun k hk => (S.inGrid k hk).1) h hk
  by_cases hlt : k < nt
  · rw [if_pos hlt] at hspec
    exact ⟨hlt, ((ObsSetup.fullColumn_apply hspec).mp he).2⟩
  · rw [if_neg hlt] at hspec
    simp [hspec] at he

/-- If the columns of `UtilsFunctions`, where they can be drawn, hold no entry that comes
one step early, everything is aligned. -/
lemma timeAligned_of_nothingObserved (S : Schedule nt)
    (h : (∃ noise hu, cfg.utilsObs noise obsT X S.toObsIndex = .ok hu) →
      NothingObserved cfg obsT X S.toObsIndex nt) : TimeAligned cfg obsT X S.toObsIndex nt := by
  refine ⟨fun d noise hu s hhu hs k km hup hcol key i e he => ?_,
    fun hu hu' hhu hhu' km key i e e' he he' => ?_⟩
  · obtain ⟨hk, hlt⟩ := mem_updates_run S hs hup
    have hutils : cfg.utilsObs noise obsT X S.toObsIndex = .ok hu → e.col = k + 1 := by
      intro hhu
      have hobs := ((utilsObs_col hhu hk).mp he).1
      rw [← below_eq_of_getElem? S.sorted hk] at hobs
      exact absurd hobs (h ⟨noise, hu, hhu⟩ k hlt (List.mem_of_getElem? hk) hcol key i)
    cases d with
    | serial cfg' => exact hutils hhu
    | partialParallel cfg' E ker => exact hutils hhu
    | fullParallel analysis filter done kStart =>
        rw [← (fullObs_col S hhu hk he).2]
        simp [ObsSetup.tcol, hcol]
  · cases hk : S.times[km]? with
    | none => simp [ObsSetup.utilsObs_none hhu hk] at he
    | some kz =>
        obtain ⟨k, rfl⟩ := Int.eq_ofNat_of_zero_le (S.inGrid kz (List.mem_of_getElem? hk)).1
        obtain ⟨hobs, rfl⟩ := (utilsObs_col hhu hk).mp he
        obtain ⟨hlt, rfl⟩ := fullObs_col S hhu' hk he'
        -- both are drawn from column `k`, the last one of the state
        have hcol : ¬ k + 1 < X.ncols := by
          intro hcol
          rw [← below_eq_of_getElem? S.sorted hk] at hobs
          exact h ⟨0, hu, hhu⟩ k hlt (List.mem_of_getElem? hk) hcol key i hobs
        simp [ObsSetup.tcol, hcol]

/-- **Time alignment, exactly**: for every grid, window and true state it holds if and
only if the generator of the serial and the partial mode fails, or observes nothing at
the scheduled steps of the loop. -/
theorem timeAligned_iff (p : ObsWindow) (t : TimeGrid nt) (cfg : ObsSetup) (X : TrueState) :
    TimeAligned cfg (generateObservationSchedule p t.points).1 X
        (observationSchedule p t).toObsIndex nt ↔
      (∃ (km k : ℕ), (observationSchedule p t).times[km]? = some (k : ℤ) ∧
          ¬ ObsSetup.UtilsDrawable cfg (generateObservationSchedule p t.points).1 X km k) ∨
        NothingObserved cfg (generateObservationSchedule p t.points).1 X
          (observationSchedule p t).toObsIndex nt := by
  set S := observationSchedule p t
  set obsT := (generateObservationSchedule p t.points).1
  constructor
  · intro haligned
    -- nothing raises, so the generator returns and the serial driver reaches the step
    refine or_iff_not_imp_left.mpr fun hdraw k hlt hmem hcol key i hobs => ?_
    obtain ⟨hu, hhu⟩ : ∃ hu, cfg.utilsObs 0 obsT X S.toObsIndex = .ok hu := by
      refine ObsSetup.utilsObs_ok_iff.mpr fun km kz hk => ?_
      obtain ⟨k, rfl⟩ := Int.eq_ofNat_of_zero_le (S.inGrid kz (List.mem_of_getElem? hk)).1
      by_contra hno
      exact hdraw ⟨km, k, hk, hno⟩
    have hpos := (getElem?_below S.sorted).mpr hmem
    have hup : (k, below S.times k) ∈ updates (serialRun .EnKF S.toObsIndex nt).log :=
      (mem_updates_serialRun fun k hk => (S.inGrid k hk).1).mpr ⟨hpos, hlt⟩
    have he := (utilsObs_col hhu hpos).mpr ⟨hobs, rfl⟩
    have hrun := serialDriver_of_passes (ownFunctions_passes .EnKF S.mObs nt) nt
    -- the column is the state of step `k`, the update is made at time `k + 1`
    have := haligned.sameTime (.serial (ownFunctions .EnKF)) 0 hu _ hhu hrun k _ hup hcol key i _ he
    simp at this
  · rintro (⟨km, k, hk, hno⟩ | h)
    · refine timeAligned_of_nothingObserved S fun ⟨noise, hhu⟩ => ?_
      exact absurd (by simpa using ObsSetup.utilsObs_ok_iff.mp hhu km k hk) hno
    · exact timeAligned_of_nothingObserved S fun _ => h

/-- A thickness of one entry that grows by one in every step, and is observed. -/
def thicknessSetup : ObsSetup where
  vecInputs := ["h"]
  dim _ := 1
  observed := ["h"]
  bedSnapshots := []
  di := 893 / 1000
  staticMask _ _ := true
  bedMaskMap _ _ := true

def growingThickness : TrueState where
  ncols := 3
  value _ _ k := k

/-- With an observation at step `0` the serial driver compares the ensemble of time `1`
with the thickness of time `0`. -/
theorem not_timeAligned_thickness :
    ¬ TimeAligned thicknessSetup [0] growingThickness ⟨[0], by decide⟩ 2 := by
  intro haligned
  obtain ⟨hu, hhu⟩ : ∃ hu, thicknessSetup.utilsObs 0 [0] growingThickness ⟨[0], by decide⟩ =
      .ok hu := by
    refine ObsSetup.utilsObs_ok_iff.mpr fun km k hk key hkey _ => ?_
    obtain rfl : k = 0 := by simpa using List.mem_of_getElem? hk
    obtain rfl : key = "h" := by simpa [thicknessSetup] using hkey
    exact ⟨fun hbed => absurd hbed (by decide +kernel), fun _ => by decide⟩
  have hobs : ObsSetup.UtilsObserves thicknessSetup [0] growingThickness 0 0 "h" 0 :=
    ⟨by decide, by decide, by decide, fun hbed => absurd hbed (by decide +kernel)⟩
  have hcol : ([0] : List ℤ)[0]? = some ((0 : ℕ) : ℤ) := rfl
  have he := (utilsObs_col hhu hcol).mpr ⟨hobs, rfl⟩
  have hrun : serialDriver (ownFunctions .EnKF) ⟨[0], by decide⟩ 2 2 = .ok _ :=
    serialDriver_of_passes (ownFunctions_passes .EnKF _ _) 2
  have := haligned.sameTime (.serial (ownFunctions .EnKF)) 0 hu _ hhu hrun 0 0 (by decide)
    (by decide) "h" 0 _ he
  simp at this

end Icesee
