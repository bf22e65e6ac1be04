import Icesee.Lib.Keyed
import Icesee.Obs.Schedule

/-!
The two generators of synthetic observations.

`utilsObs` is `UtilsFunctions._create_synthetic_observations` (serial and partial mode):
column `km` is drawn from the column `ind_m[km]` of the true state. `fullObs` is
`EnKF_fully_parallel_IO._create_synthetic_observations`: its loop over the steps draws
from the next column, as long as there is one. The rows of the state are addressed by
variable and local index, as `indx_map` does, and an entry that is drawn carries the
column of the true state it was drawn from. `utilsColumn_apply` and `fullColumn_apply`
give the entries of a column, `utilsObs_spec` and `fullObs_spec` the columns of a matrix.
-/

namespace Icesee

open Counting

/-! ### What is observed -/

/-- The true state: `ncols` columns, each with a value for every variable and index. -/
structure TrueState where
  ncols : ℕ
  value : String → ℕ → ℕ → ℚ

/-- An exception of a generator. -/
inductive ObsError where
  | indexError
  | valueError
  deriving DecidableEq, Repr

/-- What the generators read besides the schedule: `dim key` is the length of
`indx_map[key]`, `observed` the set `obs_set`, and the two masks are those that the
generators build from the bed options, `bed_mask_map_static` and `bed_mask_map`. -/
structure ObsSetup where
  vecInputs : List String
  dim : String → ℕ
  observed : List String
  bedSnapshots : List ℚ
  di : ℚ
  staticMask : String → ℕ → Bool
  bedMaskMap : String → ℕ → Bool

/-- An entry of `hu_obs` that is drawn, with the column of the true state it is drawn from. -/
structure Drawn where
  col : ℕ
  value : ℚ
  deriving DecidableEq, Repr

/-- A column of `hu_obs`; `none` is NaN in the one generator and `0.0` in the other. -/
abbrev ObsColumn := String → ℕ → Option Drawn

/-- The draws of `np.random.normal(0, sigma)` for a column, all zero if there is no noise. -/
abbrev ObsNoise := ℕ → String → ℕ → ℚ

namespace ObsSetup

variable (cfg : ObsSetup)

def bedAliases : List String := ["bed", "bedrock", "bed_topography", "bedtopo", "bedtopography"]

/-- `key_is_bed` of `UtilsFunctions`: in lower case. -/
def keyIsBed (key : String) : Bool := key.toLower ∈ bedAliases

/-- `key_is_bed` of `EnKF_fully_parallel_IO`: as it stands. -/
def keyIsBedExact (key : String) : Bool := key ∈ bedAliases

/-- The first variable that is named as a thickness. -/
def thicknessKey : Option String :=
  cfg.vecInputs.find? fun key => key.toLower ∈ ["h", "thickness", "ice_thickness"]

/-- `bed_snap_cols`: for every snapshot the nearest of the requested times. -/
def bedSnapCols (obsT : List ℚ) : List ℕ :=
  if obsT = [] then []
  else (cfg.bedSnapshots.map fun s => argmin (obsT.map fun x => |x - s|)).toFinset.sort

end ObsSetup

/-! ### `UtilsFunctions._create_synthetic_observations` -/

namespace ObsSetup

variable (cfg : ObsSetup) (noise : ObsNoise) (obsT : List ℚ) (X : TrueState)

/-- `statevec_true[idx, k]` needs column `k`. -/
def checkColumn (k : ℕ) : Except ObsError Unit :=
  if k < X.ncols then return else throw .indexError

/-- What a bed observation needs: a thickness of the same length, and the column. -/
def checkBed (k : ℕ) (key : String) : Except ObsError Unit :=
  match cfg.thicknessKey with
  | none => throw .valueError
  | some h => if cfg.dim h ≠ cfg.dim key then throw .valueError else checkColumn X k

/-- `static_mask & grounded`. -/
def finalMask (k : ℕ) (key : String) (i : ℕ) : Bool :=
  cfg.staticMask key i && match cfg.thicknessKey with
    | none => false
    | some h => decide (0 < X.value h i k + X.value key i k / cfg.di)

/-- The rows of a variable other than the bed. -/
def utilsDraw (km k : ℕ) (key : String) (_old : ℕ → Option Drawn) (i : ℕ) : Option Drawn :=
  if i < cfg.dim key then some ⟨k, X.value key i k + noise km key i⟩ else none

/-- The rows of a bed, of which the unmasked ones stay as they are. -/
def utilsDrawBed (km k : ℕ) (key : String) (old : ℕ → Option Drawn) (i : ℕ) : Option Drawn :=
  if i < cfg.dim key ∧ cfg.finalMask X k key i then
    some ⟨k, X.value key i k + noise km key i⟩
  else old i

/-- Column `km`, drawn from column `k` of the true state. -/
def utilsColumn (km k : ℕ) : Except ObsError ObsColumn := do
  let c ← Keyed.sweep (fun key => decide (key ∈ cfg.observed) && !keyIsBed key)
    (fun _ => checkColumn X k) (cfg.utilsDraw noise X km k) cfg.vecInputs (fun _ _ => none)
  if km ∈ cfg.bedSnapCols obsT then
    Keyed.sweep (fun key => keyIsBed key && decide (key ∈ cfg.observed)) (cfg.checkBed X k)
      (cfg.utilsDrawBed noise X km k) cfg.vecInputs c
  else return c

/-- The matrix, column by column. -/
def utilsObs (obs : ObsIndex) : Except ObsError (ℕ → ObsColumn) :=
  Keyed.fill (fun km k => cfg.utilsColumn noise obsT X km k.toNat) obs.times 0 (fun _ _ _ => none)

/-! ### `EnKF_fully_parallel_IO._create_synthetic_observations` -/

/-- `create_dataset("hu_obs", (nd, m_obs))`: without a column the chunks would be empty. -/
def createHuObs (mObs : ℕ) : Except ObsError Unit :=
  if mObs = 0 then throw .valueError else return

/-- A variable that is drawn in column `km`. -/
def fullDraws (km : ℕ) (key : String) : Bool :=
  (decide (key ∈ cfg.observed) && !keyIsBedExact key) ||
    (keyIsBedExact key && decide (km ∈ cfg.bedSnapCols obsT) &&
      (List.range (cfg.dim key)).any (cfg.bedMaskMap key))

/-- Column `km`, drawn from column `tcol` of the true state. -/
def fullColumn (km tcol : ℕ) : Except ObsError ObsColumn :=
  Keyed.sweep (fun _ => true)
    (fun key => if cfg.fullDraws obsT km key then checkColumn X tcol else return)
    (fun key _ i =>
      if i < cfg.dim key then
        if keyIsBedExact key && decide (km ∈ cfg.bedSnapCols obsT) && cfg.bedMaskMap key i then
          some ⟨tcol, X.value key i tcol + noise km key i⟩
        else if key ∈ cfg.observed ∧ ¬ keyIsBedExact key then
          some ⟨tcol, X.value key i tcol + noise km key i⟩
        else none
      else none)
    cfg.vecInputs (fun _ _ => none)

/-- `step + 1 if (step + 1) < statevec_true.shape[1] else step`. -/
def tcol (step : ℕ) : ℕ := if step + 1 < X.ncols then step + 1 else step

/-- One turn of the loop over the steps. -/
def fullStep (obs : ObsIndex) (s : ℕ × (ℕ → ObsColumn)) (step : ℕ) :
    Except ObsError (ℕ × (ℕ → ObsColumn)) :=
  if obs.mObs ≤ s.1 then return s
  else if obs.times[s.1]? = some (step : ℤ) then
    return (s.1 + 1, Function.update s.2 s.1 (← cfg.fullColumn noise obsT X s.1 (tcol X step)))
  else return s

/-- The counter and the matrix after the steps before `n`. -/
def fullLoop (obs : ObsIndex) (n : ℕ) : Except ObsError (ℕ × (ℕ → ObsColumn)) :=
  (List.range n).foldlM (cfg.fullStep noise obsT X obs) (0, fun _ _ _ => none)

/-- The matrix after the steps of `range(nt)`. -/
def fullObs (obs : ObsIndex) (nt : ℕ) : Except ObsError (ℕ → ObsColumn) := do
  createHuObs obs.mObs
  return (← cfg.fullLoop noise obsT X obs nt).2

/-! ### The entries of a column -/

variable {cfg noise obsT X} {km k : ℕ} {c : ObsColumn}

lemma checkColumn_ok_iff : checkColumn X k = .ok () ↔ k < X.ncols := by
  rw [checkColumn]
  split <;> simp_all [pure, Except.pure, Keyed.throw_eq]

/-- There is an observation. -/
lemma createHuObs_ok_iff {mObs : ℕ} : createHuObs mObs = .ok () ↔ mObs ≠ 0 := by
  rw [createHuObs]
  split <;> simp_all [pure, Except.pure, Keyed.throw_eq]

lemma checkBed_ok_iff {key : String} : cfg.checkBed X k key = .ok () ↔
    (∃ h, cfg.thicknessKey = some h ∧ cfg.dim h = cfg.dim key) ∧ k < X.ncols := by
  rw [checkBed]
  cases cfg.thicknessKey with
  | none => simp [Keyed.throw_eq]
  | some h =>
      by_cases hdim : cfg.dim h = cfg.dim key
      · simp [hdim, checkColumn_ok_iff]
      · simp [hdim, Keyed.throw_eq]

/-- An entry that `UtilsFunctions` draws in column `km` from column `k` of the state: an
observed variable, for a bed only in a snapshot column and where it is masked. -/
def UtilsObserves (cfg : ObsSetup) (obsT : List ℚ) (X : TrueState) (km k : ℕ) (key : String)
    (i : ℕ) : Prop :=
  key ∈ cfg.vecInputs ∧ key ∈ cfg.observed ∧ i < cfg.dim key ∧
    (keyIsBed key → km ∈ cfg.bedSnapCols obsT ∧ cfg.finalMask X k key i)

/-- `UtilsFunctions` can draw column `km` from column `k` of the state: the column is
there, and in a snapshot column every bed has its thickness. -/
def UtilsDrawable (cfg : ObsSetup) (obsT : List ℚ) (X : TrueState) (km k : ℕ) : Prop :=
  ∀ key ∈ cfg.vecInputs, key ∈ cfg.observed →
    (keyIsBed key → km ∈ cfg.bedSnapCols obsT →
      ∃ h, cfg.thicknessKey = some h ∧ cfg.dim h = cfg.dim key) ∧
    (¬ keyIsBed key ∨ km ∈ cfg.bedSnapCols obsT → k < X.ncols)

lemma utilsColumn_eq_ok : cfg.utilsColumn noise obsT X km k = .ok c ↔
    ∃ c₀, Keyed.sweep (fun key => decide (key ∈ cfg.observed) && !keyIsBed key)
        (fun _ => checkColumn X k) (cfg.utilsDraw noise X km k) cfg.vecInputs
          (fun _ _ => none) = .ok c₀ ∧
      if km ∈ cfg.bedSnapCols obsT then
        Keyed.sweep (fun key => keyIsBed key && decide (key ∈ cfg.observed)) (cfg.checkBed X k)
          (cfg.utilsDrawBed noise X km k) cfg.vecInputs c₀ = .ok c
      else c₀ = c := by
  rw [utilsColumn, Keyed.bind_eq_ok]
  refine exists_congr fun c₀ => and_congr_right fun _ => ?_
  by_cases hsnap : km ∈ cfg.bedSnapCols obsT
  · rw [if_pos hsnap, if_pos hsnap]
  · rw [if_neg hsnap, if_neg hsnap]
    simp [pure, Except.pure]

/-- The column can be drawn exactly if nothing is missing. -/
theorem utilsColumn_ok_iff :
    (∃ c, cfg.utilsColumn noise obsT X km k = .ok c) ↔ UtilsDrawable cfg obsT X km k := by
  have hplain : (∃ c₀, Keyed.sweep (fun key => decide (key ∈ cfg.observed) && !keyIsBed key)
      (fun _ => checkColumn X k) (cfg.utilsDraw noise X km k) cfg.vecInputs
        (fun _ _ => none) = .ok c₀) ↔
      ∀ key ∈ cfg.vecInputs, key ∈ cfg.observed → ¬ keyIsBed key → k < X.ncols := by
    simp [Keyed.sweep_ok_iff, checkColumn_ok_iff]
  simp only [utilsColumn_eq_ok]
  rw [exists_comm]
  -- outside a snapshot the beds are passed over
  by_cases hsnap : km ∈ cfg.bedSnapCols obsT
  · simp only [hsnap, if_true, exists_and_left, Keyed.sweep_ok_iff, exists_and_right, hplain,
      checkBed_ok_iff, UtilsDrawable]
    constructor
    · rintro ⟨hp, hb⟩ key hin hobs
      cases hkey : keyIsBed key
      · exact ⟨by simp, fun _ => hp key hin hobs (by simp [hkey])⟩
      · have hbed := hb key hin (by simp [hkey, hobs])
        exact ⟨fun _ _ => hbed.1, fun _ => hbed.2⟩
    · intro h
      refine ⟨fun key hin hobs _ => (h key hin hobs).2 (.inr trivial), fun key hin hkey => ?_⟩
      rw [Bool.and_eq_true, decide_eq_true_eq] at hkey
      obtain ⟨hthick, hcol⟩ := h key hin hkey.2
      exact ⟨hthick hkey.1 trivial, hcol (.inr trivial)⟩
  · simp only [hsnap, if_false, exists_and_left, exists_eq', and_true, hplain, UtilsDrawable]
    refine forall_congr' fun key => forall₂_congr fun _ _ => ?_
    simp

/-- The entries of a column of `UtilsFunctions`. -/
theorem utilsColumn_apply (h : cfg.utilsColumn noise obsT X km k = .ok c) {key : String}
    {i : ℕ} {e : Drawn} : c key i = some e ↔
      UtilsObserves cfg obsT X km k key i ∧ ⟨k, X.value key i k + noise km key i⟩ = e := by
  obtain ⟨c₀, h₀, h₁⟩ := utilsColumn_eq_ok.mp h
  have hc₀ := congrFun (Keyed.sweep_apply h₀ (fun _ _ => rfl) key) i
  by_cases hsnap : km ∈ cfg.bedSnapCols obsT
  · rw [if_pos hsnap] at h₁
    have hidem : ∀ key old, cfg.utilsDrawBed noise X km k key
        (cfg.utilsDrawBed noise X km k key old) = cfg.utilsDrawBed noise X km k key old := by
      intro key old
      funext i
      simp only [utilsDrawBed]
      split_ifs <;> rfl
    have hc := congrFun (Keyed.sweep_apply h₁ hidem key) i
    rw [hc]
    by_cases hin : key ∈ cfg.vecInputs <;> by_cases hobs : key ∈ cfg.observed <;>
      cases hkey : keyIsBed key <;>
      simp_all [UtilsObserves, utilsDraw, utilsDrawBed]
  · rw [if_neg hsnap] at h₁
    subst h₁
    rw [hc₀]
    by_cases hin : key ∈ cfg.vecInputs <;> by_cases hobs : key ∈ cfg.observed <;>
      cases hkey : keyIsBed key <;>
      simp_all [UtilsObserves, utilsDraw]

/-- The entries of a column of the full generator: beds are drawn by their mask in the
snapshot columns, observed or not. -/
def FullObserves (cfg : ObsSetup) (obsT : List ℚ) (km : ℕ) (key : String) (i : ℕ) : Prop :=
  key ∈ cfg.vecInputs ∧ i < cfg.dim key ∧
    if keyIsBedExact key then km ∈ cfg.bedSnapCols obsT ∧ cfg.bedMaskMap key i
    else key ∈ cfg.observed

theorem fullColumn_apply {tc : ℕ} (h : cfg.fullColumn noise obsT X km tc = .ok c) {key : String}
    {i : ℕ} {e : Drawn} : c key i = some e ↔
      FullObserves cfg obsT km key i ∧ ⟨tc, X.value key i tc + noise km key i⟩ = e := by
  have hc := congrFun (Keyed.sweep_apply h (fun _ _ => rfl) key) i
  rw [hc]
  by_cases hin : key ∈ cfg.vecInputs <;> by_cases hobs : key ∈ cfg.observed <;>
    by_cases hsnap : km ∈ cfg.bedSnapCols obsT <;> cases hkey : keyIsBedExact key <;>
    simp_all [FullObserves, and_assoc]

/-! ### The columns of a matrix -/

variable {obs : ObsIndex} {hu : ℕ → ObsColumn}

/-- `UtilsFunctions` draws column `km` from the column of its observation index. -/
theorem utilsObs_spec (h : cfg.utilsObs noise obsT X obs = .ok hu) {k : ℤ}
    (hk : obs.times[km]? = some k) : cfg.utilsColumn noise obsT X km k.toNat = .ok (hu km) := by
  simpa using (Keyed.fill_apply h).1 km k hk

/-- It has no other columns. -/
lemma utilsObs_none (h : cfg.utilsObs noise obsT X obs = .ok hu) (hk : obs.times[km]? = none)
    (key : String) (i : ℕ) : hu km key i = none := by
  rw [(Keyed.fill_apply h).2 km (.inr (by simpa using hk))]

/-- The matrix is built exactly if every column can be drawn. -/
theorem utilsObs_ok_iff : (∃ hu, cfg.utilsObs noise obsT X obs = .ok hu) ↔
    ∀ (km : ℕ) (k : ℤ), obs.times[km]? = some k → UtilsDrawable cfg obsT X km k.toNat := by
  simp only [utilsObs, Keyed.fill_ok_iff, Nat.zero_add, utilsColumn_ok_iff]

lemma fullLoop_succ_ok {n : ℕ} {s' : ℕ × (ℕ → ObsColumn)}
    (h : cfg.fullLoop noise obsT X obs (n + 1) = .ok s') :
    ∃ s, cfg.fullLoop noise obsT X obs n = .ok s ∧ cfg.fullStep noise obsT X obs s n = .ok s' := by
  rw [fullLoop, List.range_succ, List.foldlM_append, Keyed.bind_eq_ok] at h
  obtain ⟨s, hs, hstep⟩ := h
  exact ⟨s, hs, by simpa using hstep⟩

/-- The loop of the full generator: after the steps before `n` the counter is at their
position, and the columns up to it are drawn. -/
lemma fullLoop_spec (hobs : ∀ k ∈ obs.times, 0 ≤ k) {n : ℕ} {s : ℕ × (ℕ → ObsColumn)}
    (h : cfg.fullLoop noise obsT X obs n = .ok s) :
    s.1 = below obs.times n ∧ ∀ km (k : ℕ), obs.times[km]? = some (k : ℤ) →
      if k < n then cfg.fullColumn noise obsT X km (tcol X k) = .ok (s.2 km)
      else s.2 km = fun _ _ => none := by
  induction n generalizing s with
  | zero =>
      obtain rfl := Except.ok.inj h
      exact ⟨(below_eq_zero fun x hx => not_lt.mpr (hobs x hx)).symm, fun _ _ _ => rfl⟩
  | succ n ih =>
      obtain ⟨s₀, hs₀, hstep⟩ := fullLoop_succ_ok h
      obtain ⟨hkm, hcols⟩ := ih hs₀
      rw [Nat.cast_succ]
      -- step `n` is observed: its column is drawn and the counter moves
      by_cases hmem : (n : ℤ) ∈ obs.times
      · have hpos := (getElem?_below obs.sorted).mpr hmem
        have hlt : ¬ obs.mObs ≤ s₀.1 := by
          rw [hkm]
          exact not_le.mpr (below_lt_length obs.sorted hmem)
        rw [fullStep, if_neg hlt, hkm, if_pos hpos, Keyed.bind_eq_ok] at hstep
        obtain ⟨c, hc, hs⟩ := hstep
        obtain rfl := Except.ok.inj hs
        refine ⟨(below_succ_of_mem obs.sorted hmem).symm, fun km k hk => ?_⟩
        rcases eq_or_ne k n with rfl | hne
        · obtain rfl := below_eq_of_getElem? obs.sorted hk
          rw [if_pos (Nat.lt_succ_self k)]
          simpa using hc
        · have hkm : km ≠ below obs.times n := by
            rintro rfl
            rw [hpos] at hk
            exact hne (by exact_mod_cast (Option.some.inj hk).symm)
          simp only [Function.update_of_ne hkm]
          simpa only [show k < n + 1 ↔ k < n by omega] using hcols km k hk
      · -- it is not, or there is no column left
        have hstay : s₀ = s := by
          rw [fullStep] at hstep
          split at hstep
          · exact Except.ok.inj hstep
          · rw [if_neg fun hk => hmem (List.mem_of_getElem? hk)] at hstep
            exact Except.ok.inj hstep
        rw [← hstay, below_succ_of_notMem obs.sorted hmem]
        refine ⟨hkm, fun km k hk => ?_⟩
        have hne : k ≠ n := by
          rintro rfl
          exact hmem (List.mem_of_getElem? hk)
        simpa only [show k < n + 1 ↔ k < n by omega] using hcols km k hk

/-- The full generator draws column `km` one column after its observation index, and an
observation after the last step not at all. -/
theorem fullObs_spec (hobs : ∀ k ∈ obs.times, 0 ≤ k) {nt : ℕ}
    (h : cfg.fullObs noise obsT X obs nt = .ok hu) (hk : obs.times[km]? = some (k : ℤ)) :
    if k < nt then cfg.fullColumn noise obsT X km (tcol X k) = .ok (hu km)
    else hu km = fun _ _ => none := by
  obtain ⟨_, -, h⟩ := Keyed.bind_eq_ok.mp h
  obtain ⟨s, hs, hhu⟩ := Keyed.bind_eq_ok.mp h
  obtain rfl := Except.ok.inj hhu
  exact (fullLoop_spec hobs hs).2 km k hk

end ObsSetup

end Icesee
