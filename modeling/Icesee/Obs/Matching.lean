import Mathlib.Data.List.GetD
import Icesee.Lib.Nearest
import Icesee.Obs.Synthetic

/-!
How the observation schedule matches the requested times.

`fullGenerateObservationSchedule` is the copy of the function in `EnKF_fully_parallel_IO`,
with its own loop and with the exception that it lets through. `np.argmin` of the
distances is the first nearest grid point (`isFirstNearest_nearestIndex`), so that the schedule
is read off the midpoints of the grid. `observationSchedule_law` says what is matched on
any grid, and that on a uniform one every request has its own index.
-/

namespace Icesee

open Nearest

/-! ### The smallest entry -/

lemma argmin_le {l : List ℚ} (hl : l ≠ []) {y : ℚ} (hy : y ∈ l) : l.getD (argmin l) 0 ≤ y := by
  have hlt := argmin_lt hl
  have hall : (l.all fun y => l[argmin l] ≤ y) = true := List.findIdx_getElem (w := hlt)
  rw [List.getD_eq_getElem _ _ hlt]
  simpa using List.all_eq_true.mp hall y hy

/-- No earlier entry is as small. -/
lemma exists_lt_of_lt_argmin {l : List ℚ} {i : ℕ} (hi : i < argmin l) :
    ∃ y ∈ l, y < l.getD i 0 := by
  have hlen : i < l.length := hi.trans_le List.findIdx_le_length
  have hall := List.not_of_lt_findIdx hi
  rw [List.getD_eq_getElem _ _ hlen]
  simpa using hall

/-- `np.argmin(np.abs(t - s))`. -/
def nearestIndex (t : List ℚ) (s : ℚ) : ℕ := argmin (t.map fun x => |x - s|)

/-- It is the first nearest point. -/
lemma isFirstNearest_nearestIndex {t : List ℚ} (ht : t ≠ []) (s : ℚ) :
    IsFirstNearest (fun k => t.getD k 0) t.length s (nearestIndex t s) := by
  have hget : ∀ {k}, k < t.length → (t.map fun x => |x - s|).getD k 0 = |t.getD k 0 - s| := by
    intro k hk
    rw [List.getD_eq_getElem _ _ (by simpa using hk), List.getD_eq_getElem _ _ hk,
      List.getElem_map]
  have hne : (t.map fun x => |x - s|) ≠ [] := by simpa using ht
  have hlt : nearestIndex t s < t.length := by simpa [nearestIndex] using argmin_lt hne
  refine ⟨⟨hlt, fun k hk => ?_⟩, fun k hk hnear => ?_⟩
  · have hmem : |t.getD k 0 - s| ∈ t.map fun x => |x - s| := by
      rw [List.getD_eq_getElem _ _ hk]
      exact List.mem_map_of_mem (List.getElem_mem hk)
    exact (hget hlt).symm.trans_le (argmin_le hne hmem)
  · obtain ⟨y, hy, hyk⟩ := exists_lt_of_lt_argmin hk
    obtain ⟨x, hx, rfl⟩ := List.mem_map.mp hy
    obtain ⟨l, hl, rfl⟩ := List.getElem_of_mem hx
    have hle := hnear.le l hl
    rw [hget (hk.trans hlt)] at hyk
    rw [List.getD_eq_getElem _ _ hl] at hle
    exact absurd hle hyk.not_ge

/-! ### The requests and the grid step -/

/-- `np.diff` has the steps of the grid. -/
lemma mem_diff {t : List ℚ} {d : ℚ} :
    d ∈ diff t ↔ ∃ k, k + 1 < t.length ∧ t.getD (k + 1) 0 - t.getD k 0 = d := by
  have hlen : (diff t).length = t.length - 1 := by simp [diff]
  rw [List.mem_iff_getElem]
  refine exists_congr fun k => ?_
  constructor
  · rintro ⟨hk, h⟩
    have hk' : k + 1 < t.length := by omega
    refine ⟨hk', ?_⟩
    rw [← h, List.getD_eq_getElem _ _ hk', List.getD_eq_getElem _ _ (by omega)]
    simp [diff]
  · rintro ⟨hk, h⟩
    refine ⟨by omega, ?_⟩
    rw [List.getD_eq_getElem _ _ hk, List.getD_eq_getElem _ _ (by omega)] at h
    simpa [diff] using h

/-- `dt_grid`. -/
def gridStep (t : List ℚ) : ℚ := if 1 < t.length then minimum (diff t) else 1

lemma gridStep_le {t : List ℚ} {k : ℕ} (hk : k + 1 < t.length) :
    gridStep t ≤ t.getD (k + 1) 0 - t.getD k 0 := by
  have hmem : t.getD (k + 1) 0 - t.getD k 0 ∈ diff t := mem_diff.mpr ⟨k, hk, rfl⟩
  rw [gridStep, if_pos (by omega)]
  exact argmin_le (List.ne_nil_of_mem hmem) hmem

/-- The step of a uniform grid. -/
lemma gridStep_eq {t : List ℚ} {dt : ℚ} (ht : 1 < t.length)
    (hstep : ∀ k, k + 1 < t.length → t.getD (k + 1) 0 - t.getD k 0 = dt) : gridStep t = dt := by
  have hne : diff t ≠ [] := List.ne_nil_of_mem (mem_diff.mpr ⟨0, ht, rfl⟩)
  have hmin : minimum (diff t) ∈ diff t := by
    rw [minimum, List.getD_eq_getElem _ _ (argmin_lt hne)]
    exact List.getElem_mem _
  obtain ⟨k, hk, h⟩ := mem_diff.mp hmin
  rw [gridStep, if_pos ht, ← h, hstep k hk]

namespace ObsWindow

variable (p : ObsWindow) (t : List ℚ)

/-- `obs_start` and `obs_max`, within the grid. -/
def obsStart : ℚ := max p.obsStartTime (t.headD 0)

def obsMax : ℚ := min p.obsMaxTime (t.getLastD 0)

/-- Nothing is requested. -/
def Closed : Prop := p.freqObs ≤ 0 ∨ p.obsStart t > p.obsMax t

/-- `obs_t_req` otherwise. -/
def obsTReq : List ℚ :=
  (List.range (⌊(p.obsMax t - p.obsStart t) / p.freqObs⌋.toNat + 1)).map fun i : ℕ =>
    p.obsStart t + i * p.freqObs

variable {p t}

lemma schedule_of_closed (h : p.Closed t) : generateObservationSchedule p t = ([], [], 0) :=
  if_pos h

lemma schedule_of_open (h : ¬ p.Closed t) : generateObservationSchedule p t =
    (p.obsTReq t, ((p.obsTReq t).filterMap (matchIndex t (gridStep t))).toFinset.sort,
      ((p.obsTReq t).filterMap (matchIndex t (gridStep t))).toFinset.sort.length) :=
  if_neg h

/-- The requests are within the grid. -/
lemma mem_obsTReq (h : ¬ p.Closed t) {s : ℚ} (hs : s ∈ p.obsTReq t) :
    t.headD 0 ≤ s ∧ s ≤ t.getLastD 0 := by
  obtain ⟨hfreq, hopen⟩ := not_or.mp h
  have hfreq' : 0 < p.freqObs := not_le.mp hfreq
  obtain ⟨i, hi, rfl⟩ := List.mem_map.mp hs
  have hfloor : ((⌊(p.obsMax t - p.obsStart t) / p.freqObs⌋.toNat : ℤ) : ℚ) ≤
      (p.obsMax t - p.obsStart t) / p.freqObs := by
    rw [Int.toNat_of_nonneg (Int.floor_nonneg.mpr (div_nonneg (by linarith) hfreq'.le))]
    exact Int.floor_le _
  have hi' : (i : ℚ) ≤ (p.obsMax t - p.obsStart t) / p.freqObs := by
    have hle : i ≤ ⌊(p.obsMax t - p.obsStart t) / p.freqObs⌋.toNat := by
      have := List.mem_range.mp hi
      omega
    exact le_trans (by exact_mod_cast hle) hfloor
  have hmul := (le_div_iff₀ hfreq').mp hi'
  have hnonneg : 0 ≤ (i : ℚ) * p.freqObs := mul_nonneg (Nat.cast_nonneg i) hfreq'.le
  have hstart : t.headD 0 ≤ p.obsStart t := le_max_right _ _
  have hmax : p.obsMax t ≤ t.getLastD 0 := min_le_right _ _
  exact ⟨by linarith, by linarith⟩

/-- They are a period apart. -/
lemma obsTReq_pairwise : (p.obsTReq t).Pairwise fun s s' => p.freqObs ≤ 0 ∨ s + p.freqObs ≤ s' := by
  refine List.pairwise_lt_range.map _ fun i j hij => ?_
  rcases le_or_gt p.freqObs 0 with hfreq | hfreq
  · exact Or.inl hfreq
  · have hcast : (i : ℚ) + 1 ≤ j := by exact_mod_cast hij
    have hmul := mul_le_mul_of_nonneg_right hcast hfreq.le
    exact Or.inr (by linarith)

end ObsWindow

/-! ### The other copy -/

/-- `EnKF_fully_parallel_IO.generate_observation_schedule`. -/
def fullGenerateObservationSchedule (p : ObsWindow) (t : List ℚ) :
    Except ObsError (List ℚ × List ℕ × ℕ) :=
  if t.length = 0 then throw .valueError
  else
    let obsStart := max p.obsStartTime (t.headD 0)
    let obsMax := min p.obsMaxTime (t.getLastD 0)
    if p.freqObs ≤ 0 ∨ obsStart > obsMax then return ([], [], 0)
    else
      let nObs := ⌊(obsMax - obsStart) / p.freqObs⌋.toNat + 1
      let obsTReq := (List.range nObs).map fun i : ℕ => obsStart + i * p.freqObs
      let dtGrid := if 1 < t.length then minimum (diff t) else 1
      let matched := obsTReq.foldl (fun obsIdx tobs =>
        let i := argmin (t.map fun x => |x - tobs|)
        if |t.getD i 0 - tobs| ≤ 1 / 2 * dtGrid then obsIdx ++ [i] else obsIdx) []
      let obsIdx := matched.toFinset.sort
      return (obsTReq, obsIdx, obsIdx.length)

lemma matchIndex_eq_some_iff {t : List ℚ} {dtGrid s : ℚ} {i : ℕ} :
    matchIndex t dtGrid s = some i ↔
      nearestIndex t s = i ∧ |t.getD i 0 - s| ≤ 1 / 2 * dtGrid := by
  rw [matchIndex, nearestIndex]
  split
  · rename_i hle
    exact ⟨fun h => ⟨Option.some.inj h, Option.some.inj h ▸ hle⟩, fun h => congrArg some h.1⟩
  · rename_i hgt
    exact ⟨fun h => absurd h (by simp), fun h => absurd (h.1 ▸ h.2) hgt⟩

/-- A loop that appends what matches. -/
lemma foldl_matched (t : List ℚ) (dtGrid : ℚ) (reqs : List ℚ) (obsIdx : List ℕ) :
    reqs.foldl (fun obsIdx tobs =>
      let i := argmin (t.map fun x => |x - tobs|)
      if |t.getD i 0 - tobs| ≤ 1 / 2 * dtGrid then obsIdx ++ [i] else obsIdx) obsIdx =
      obsIdx ++ reqs.filterMap (matchIndex t dtGrid) := by
  induction reqs generalizing obsIdx with
  | nil => simp
  | cons tobs reqs ih =>
      rw [List.foldl_cons, ih, List.filterMap_cons]
      by_cases hle : |t.getD (argmin (t.map fun x => |x - tobs|)) 0 - tobs| ≤ 1 / 2 * dtGrid
      · rw [matchIndex_eq_some_iff.mpr ⟨rfl, hle⟩]
        simp only [if_pos hle, nearestIndex, List.append_assoc, List.singleton_append]
      · rw [matchIndex, if_neg hle]
        simp only [if_neg hle]

lemma fullGenerateObservationSchedule_eq (p : ObsWindow) {t : List ℚ} (ht : t ≠ []) :
    fullGenerateObservationSchedule p t = .ok (generateObservationSchedule p t) := by
  rw [fullGenerateObservationSchedule, if_neg (by simpa using ht), generateObservationSchedule]
  simp only [foldl_matched, List.nil_append]
  split <;> rfl

/-! ### What is matched -/

/-- The requested times: from the later of `obs_start_time` and the first grid point on in
steps of `freq_obs`, as long as they are not after `obs_max_time` and the last grid point. -/
def RequestsWindow (p : ObsWindow) (t reqs : List ℚ) : Prop :=
  ∀ (j : ℕ) (s : ℚ), reqs[j]? = some s ↔ 0 < p.freqObs ∧
    s = max p.obsStartTime (t.headD 0) + j * p.freqObs ∧ s ≤ min p.obsMaxTime (t.getLastD 0)

/-- The schedule on an arbitrary grid: increasing indices, each within half of every grid
step of a requested time, and exact on a single point. -/
structure MatchesRequests (t : List ℚ) (sched : List ℚ × List ℕ × ℕ) : Prop where
  sorted : sched.2.1.SortedLT
  count : sched.2.2 = sched.2.1.length
  inGrid : ∀ i ∈ sched.2.1, i < t.length
  near : ∀ i ∈ sched.2.1, ∃ s ∈ sched.1,
    (∀ k, k + 1 < t.length → |t.getD i 0 - s| ≤ 1 / 2 * (t.getD (k + 1) 0 - t.getD k 0)) ∧
      (t.length = 1 → t.getD i 0 = s)

/-- The schedule on a uniform grid: index `j` is the match of request `j`, and nearest. -/
structure OneToOne (t : List ℚ) (sched : List ℚ × List ℕ × ℕ) : Prop where
  count : sched.2.2 = sched.1.length
  matched : sched.1.map (matchIndex t (gridStep t)) = sched.2.1.map some
  nearest : ∀ j < sched.1.length,
    IsNearest (fun k => t.getD k 0) t.length (sched.1.getD j 0) (sched.2.1.getD j 0)

/-- The requests are counted by the floor of the window against the period. -/
lemma requestsWindow (p : ObsWindow) (t : List ℚ) :
    RequestsWindow p t (generateObservationSchedule p t).1 := by
  intro j s
  -- a window that is closed has no request, whatever the period
  by_cases hp : p.Closed t
  · rw [ObsWindow.schedule_of_closed hp]
    refine iff_of_false (by simp) ?_
    rintro ⟨hfreq, rfl, hle⟩
    have hj : 0 ≤ (j : ℚ) * p.freqObs := mul_nonneg (Nat.cast_nonneg j) hfreq.le
    rcases hp with hfreq' | hstart
    · exact absurd hfreq hfreq'.not_gt
    · rw [ObsWindow.obsStart, ObsWindow.obsMax] at hstart
      linarith
  · obtain ⟨hfreq, hopen⟩ := not_or.mp hp
    have hfreq' : 0 < p.freqObs := not_le.mp hfreq
    have hquot : 0 ≤ (p.obsMax t - p.obsStart t) / p.freqObs :=
      div_nonneg (by linarith) hfreq'.le
    -- the floor counts the requests up to the end of the window
    have hcount : j < ⌊(p.obsMax t - p.obsStart t) / p.freqObs⌋.toNat + 1 ↔
        p.obsStart t + j * p.freqObs ≤ p.obsMax t := by
      rw [Nat.lt_succ_iff, Int.le_toNat (Int.floor_nonneg.mpr hquot), Int.le_floor,
        le_div_iff₀ hfreq', Int.cast_natCast, le_sub_iff_add_le']
    rw [ObsWindow.schedule_of_open hp]
    show (p.obsTReq t)[j]? = some s ↔ 0 < p.freqObs ∧ s = p.obsStart t + j * p.freqObs ∧
      s ≤ p.obsMax t
    rw [ObsWindow.obsTReq, List.getElem?_map]
    by_cases hj : j < ⌊(p.obsMax t - p.obsStart t) / p.freqObs⌋.toNat + 1
    · rw [List.getElem?_range hj, Option.map_some, Option.some_inj]
      refine ⟨fun h => ⟨hfreq', h.symm, h ▸ hcount.mp hj⟩, fun h => h.2.1.symm⟩
    · rw [List.getElem?_eq_none (by simpa using hj), Option.map_none]
      refine iff_of_false (by simp) ?_
      rintro ⟨-, rfl, hle⟩
      exact hj (hcount.mpr hle)

/-- A grid of one point has its requests there. -/
lemma eq_of_mem_obsTReq {p : ObsWindow} {t : List ℚ} (h : ¬ p.Closed t) (ht : t.length = 1)
    {s : ℚ} (hs : s ∈ p.obsTReq t) {i : ℕ} (hi : i < t.length) : t.getD i 0 = s := by
  obtain ⟨x, rfl⟩ := List.length_eq_one_iff.mp ht
  obtain rfl : i = 0 := by simpa using hi
  obtain ⟨hlow, hhigh⟩ := ObsWindow.mem_obsTReq h hs
  exact le_antisymm hlow hhigh

lemma matchesRequests (p : ObsWindow) {t : List ℚ} (ht : t ≠ []) :
    MatchesRequests t (generateObservationSchedule p t) where
  sorted := generateObservationSchedule_sorted p t
  count := generateObservationSchedule_length p t
  inGrid i hi := generateObservationSchedule_lt ht hi
  near i hi := by
    have hlt := generateObservationSchedule_lt ht hi
    by_cases hp : p.Closed t
    · simp [ObsWindow.schedule_of_closed hp] at hi
    · rw [ObsWindow.schedule_of_open hp, Finset.mem_sort, List.mem_toFinset,
        List.mem_filterMap] at hi
      obtain ⟨s, hs, hmatch⟩ := hi
      rw [ObsWindow.schedule_of_open hp]
      refine ⟨s, hs, fun k hk => ?_, fun hone => eq_of_mem_obsTReq hp hone hs hlt⟩
      have hhalf := (matchIndex_eq_some_iff.mp hmatch).2
      have hstep := gridStep_le hk
      linarith

/-! ### Uniform grids -/

lemma strictMonoOn_getD {t : List ℚ} (h : t.SortedLT) :
    StrictMonoOn (fun k => t.getD k 0) (Set.Iio t.length) := by
  intro i hi j hj hij
  have hi' : i < t.length := hi
  have hj' : j < t.length := hj
  show t.getD i 0 < t.getD j 0
  rw [List.getD_eq_getElem _ _ hi', List.getD_eq_getElem _ _ hj']
  exact h.getElem_lt_getElem_of_lt hij

lemma headD_eq_getD (t : List ℚ) : t.headD 0 = t.getD 0 0 := by
  cases t with
  | nil => rfl
  | cons => rfl

lemma getLastD_eq_getD (t : List ℚ) : t.getLastD 0 = t.getD (t.length - 1) 0 := by
  rw [List.getLastD_eq_getLast?, List.getLast?_eq_getElem?, List.getD_eq_getElem?_getD]

section Uniform

variable {p : ObsWindow} {t : List ℚ} {dt : ℚ}

/-- Every request is within half a step of its nearest point. -/
lemma matchIndex_of_uniform (ht : t ≠ []) (hinc : t.SortedLT) (hdt : 0 < dt)
    (hstep : ∀ k, k + 1 < t.length → t.getD (k + 1) 0 - t.getD k 0 = dt) (hp : ¬ p.Closed t)
    {s : ℚ} (hs : s ∈ p.obsTReq t) :
    matchIndex t (gridStep t) s = some (nearestIndex t s) := by
  have hnear := isFirstNearest_nearestIndex ht s
  refine matchIndex_eq_some_iff.mpr ⟨rfl, ?_⟩
  by_cases hone : 1 < t.length
  · obtain ⟨hlow, hhigh⟩ := ObsWindow.mem_obsTReq hp hs
    rw [headD_eq_getD] at hlow
    rw [getLastD_eq_getD] at hhigh
    rw [gridStep_eq hone hstep]
    have hhalf := hnear.toIsNearest.abs_le_of_uniform hdt.le (strictMonoOn_getD hinc) hstep hlow
      hhigh
    exact hhalf
  · have hlt := hnear.lt
    rw [eq_of_mem_obsTReq hp (by omega) hs hlt, sub_self, abs_zero, gridStep, if_neg hone]
    norm_num

/-- Requests a period apart have different nearest points. -/
lemma pairwise_nearestIndex (ht : t ≠ []) (hinc : t.SortedLT) (hdt : 0 < dt)
    (hstep : ∀ k, k + 1 < t.length → t.getD (k + 1) 0 - t.getD k 0 = dt) (hp : ¬ p.Closed t)
    (hfreq : dt ≤ p.freqObs) : ((p.obsTReq t).map (nearestIndex t)).Pairwise (· < ·) := by
  refine List.pairwise_map.mpr (ObsWindow.obsTReq_pairwise.imp_of_mem fun {s s'} hs hs' hss => ?_)
  have hlow := (ObsWindow.mem_obsTReq hp hs).1
  have hhigh := (ObsWindow.mem_obsTReq hp hs').2
  rw [headD_eq_getD] at hlow
  rw [getLastD_eq_getD] at hhigh
  have hss' : s + p.freqObs ≤ s' := hss.resolve_left (by linarith)
  exact (isFirstNearest_nearestIndex ht s).lt_of_uniform hdt (strictMonoOn_getD hinc) hstep
    (isFirstNearest_nearestIndex ht s') hlow hhigh (by linarith)

/-- The indices are the nearest points of the requests, in their order. -/
lemma schedule_of_uniform (ht : t ≠ []) (hinc : t.SortedLT) (hdt : 0 < dt)
    (hstep : ∀ k, k + 1 < t.length → t.getD (k + 1) 0 - t.getD k 0 = dt) (hp : ¬ p.Closed t)
    (hfreq : dt ≤ p.freqObs) : generateObservationSchedule p t =
      (p.obsTReq t, (p.obsTReq t).map (nearestIndex t), (p.obsTReq t).length) := by
  have hmatched : (p.obsTReq t).filterMap (matchIndex t (gridStep t)) =
      (p.obsTReq t).map (nearestIndex t) := by
    rw [← List.filterMap_eq_map]
    exact List.filterMap_congr fun s hs => matchIndex_of_uniform ht hinc hdt hstep hp hs
  have hsorted := pairwise_nearestIndex ht hinc hdt hstep hp hfreq
  have hsort : ((p.obsTReq t).map (nearestIndex t)).toFinset.sort =
      (p.obsTReq t).map (nearestIndex t) :=
    (List.toFinset_sort _ (hsorted.imp ne_of_lt)).mpr (hsorted.imp le_of_lt)
  rw [ObsWindow.schedule_of_open hp, hmatched, hsort, List.length_map]

/-- On a uniform grid, requests and indices correspond. -/
lemma oneToOne_of_uniform (ht : t ≠ []) (hinc : t.SortedLT) (hdt : 0 < dt)
    (hstep : ∀ k, k + 1 < t.length → t.getD (k + 1) 0 - t.getD k 0 = dt)
    (hfreq : dt ≤ p.freqObs) : OneToOne t (generateObservationSchedule p t) := by
  by_cases hp : p.Closed t
  · rw [ObsWindow.schedule_of_closed hp]
    exact ⟨rfl, rfl, fun j hj => absurd hj (Nat.not_lt_zero j)⟩
  · rw [schedule_of_uniform ht hinc hdt hstep hp hfreq]
    refine ⟨rfl, ?_, fun j hj => ?_⟩
    · rw [List.map_map]
      exact List.map_congr_left fun s hs => matchIndex_of_uniform ht hinc hdt hstep hp hs
    · have hreq : ((p.obsTReq t).map (nearestIndex t)).getD j 0 =
          nearestIndex t ((p.obsTReq t).getD j 0) := by
        rw [List.getD_eq_getElem _ _ (by simpa using hj), List.getElem_map,
          List.getD_eq_getElem _ _ hj]
      show IsNearest _ _ ((p.obsTReq t).getD j 0) (((p.obsTReq t).map (nearestIndex t)).getD j 0)
      rw [hreq]
      exact (isFirstNearest_nearestIndex ht _).toIsNearest

end Uniform

/-- **The observation schedule**: both copies return the same, the requests are those of the
window, the indices match them on every increasing grid, and on a uniform grid that is not
coarser than the period every request has its own index, of a nearest point. -/
theorem observationSchedule_law (p : ObsWindow) {t : List ℚ} (ht : t ≠ []) (hinc : t.SortedLT) :
    fullGenerateObservationSchedule p t = .ok (generateObservationSchedule p t) ∧
      RequestsWindow p t (generateObservationSchedule p t).1 ∧
      MatchesRequests t (generateObservationSchedule p t) ∧
      ∀ dt : ℚ, 0 < dt →
        (∀ k, k + 1 < t.length → t.getD (k + 1) 0 - t.getD k 0 = dt) → dt ≤ p.freqObs →
        OneToOne t (generateObservationSchedule p t) :=
  ⟨fullGenerateObservationSchedule_eq p ht, requestsWindow p t, matchesRequests p ht,
    fun _ hdt hstep hfreq => oneToOne_of_uniform ht hinc hdt hstep hfreq⟩

/-- Requests at half steps, where two points are equally near. -/
theorem observationSchedule_law_half_steps :
    OneToOne [0, 1, 2] (generateObservationSchedule ⟨1, 1 / 2, 2⟩ [0, 1, 2]) := by
  refine (observationSchedule_law ⟨1, 1 / 2, 2⟩ (List.cons_ne_nil 0 [1, 2])
    (by decide)).2.2.2 1 one_pos (fun k hk => ?_) (by norm_num)
  have hk' : k < 2 := Nat.lt_of_succ_lt_succ hk
  interval_cases k <;> norm_num

end Icesee
