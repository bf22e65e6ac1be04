import Mathlib.Algebra.Order.Floor.Defs
import Mathlib.Data.Rat.Floor
import Mathlib.Data.Finset.Sort
import Icesee.Obs.Counter

/-!
`generate_observation_schedule`: which model steps have an observation.

The requested times `obs_start, obs_start + freq_obs, …` are matched to the nearest
points of the time grid, and a match counts if it is within half a grid step. Both
copies of the function, in `UtilsFunctions` and in `EnKF_fully_parallel_IO`, do this.
The matched indices are sorted and free of duplicates, and a grid of `nt + 1` points
has the indices `0, …, nt`: `observationSchedule` packs them as a `Schedule nt`. The
loops of the drivers run over the steps `0, …, nt - 1` only.
-/

namespace Icesee

/-! ### Array helpers -/

/-- `np.argmin`: the first index of the minimum. -/
def argmin (l : List ℚ) : ℕ := l.findIdx fun x => l.all fun y => x ≤ y

/-- `np.diff`. -/
def diff (l : List ℚ) : List ℚ := List.zipWith (fun x y => y - x) l l.tail

/-- `np.min` of a non-empty array. -/
def minimum (l : List ℚ) : ℚ := l.getD (argmin l) 0

/-- A non-empty array has its minimum inside. -/
lemma argmin_lt {l : List ℚ} (hl : l ≠ []) : argmin l < l.length := by
  obtain ⟨x, hx, hmin⟩ := l.toFinset.exists_min_image id (by simpa using hl)
  refine List.findIdx_lt_length_of_exists ⟨x, by simpa using hx, ?_⟩
  simpa using hmin

/-! ### The schedule -/

/-- The time grid `t` of `nt + 1` points. -/
structure TimeGrid (nt : ℕ) where
  points : List ℚ
  length_points : points.length = nt + 1

/-- `freq_obs`, `obs_start_time` and `obs_max_time`. -/
structure ObsWindow where
  freqObs : ℚ
  obsStartTime : ℚ
  obsMaxTime : ℚ

/-- One turn of the matching loop: the nearest grid point, if it is within half a grid
step of the requested time. -/
def matchIndex (t : List ℚ) (dtGrid tobs : ℚ) : Option ℕ :=
  let i := argmin (t.map fun x => |x - tobs|)
  if |t.getD i 0 - tobs| ≤ 1 / 2 * dtGrid then some i else none

/-- `generate_observation_schedule`: the requested times, the sorted matched indices and
their number. -/
def generateObservationSchedule (p : ObsWindow) (t : List ℚ) : List ℚ × List ℕ × ℕ :=
  let obsStart := max p.obsStartTime (t.headD 0)
  let obsMax := min p.obsMaxTime (t.getLastD 0)
  if p.freqObs ≤ 0 ∨ obsStart > obsMax then ([], [], 0)
  else
    let nObs := ⌊(obsMax - obsStart) / p.freqObs⌋.toNat + 1
    let obsTReq := (List.range nObs).map fun i : ℕ => obsStart + i * p.freqObs
    let dtGrid := if 1 < t.length then minimum (diff t) else 1
    let obsIdx := (obsTReq.filterMap (matchIndex t dtGrid)).toFinset.sort
    (obsTReq, obsIdx, obsIdx.length)

lemma matchIndex_lt {t : List ℚ} (ht : t ≠ []) {dtGrid tobs : ℚ} {i : ℕ}
    (hi : matchIndex t dtGrid tobs = some i) : i < t.length := by
  have hlt := argmin_lt (l := t.map fun x => |x - tobs|) (by simpa using ht)
  rw [List.length_map] at hlt
  rw [matchIndex] at hi
  split at hi
  · rwa [← Option.some.inj hi]
  · simp at hi

/-- The indices are strictly increasing: `sorted(set(obs_idx))`. -/
lemma generateObservationSchedule_sorted (p : ObsWindow) (t : List ℚ) :
    (generateObservationSchedule p t).2.1.SortedLT := by
  rw [generateObservationSchedule]
  split
  · exact List.Pairwise.nil.sortedLT
  · simp only [Finset.sortedLT_sort]

/-- The indices are positions of the grid. -/
lemma generateObservationSchedule_lt {p : ObsWindow} {t : List ℚ} (ht : t ≠ []) {i : ℕ}
    (hi : i ∈ (generateObservationSchedule p t).2.1) : i < t.length := by
  rw [generateObservationSchedule] at hi
  split at hi
  · simp at hi
  · rw [Finset.mem_sort, List.mem_toFinset, List.mem_filterMap] at hi
    obtain ⟨tobs, -, hidx⟩ := hi
    exact matchIndex_lt ht hidx

/-- The third component is `m_obs`. -/
lemma generateObservationSchedule_length (p : ObsWindow) (t : List ℚ) :
    (generateObservationSchedule p t).2.2 = (generateObservationSchedule p t).2.1.length := by
  rw [generateObservationSchedule]
  split <;> rfl

/-- Observation indices within the time grid `0, …, nt`. -/
structure Schedule (nt : ℕ) extends ObsIndex where
  inGrid : ∀ k ∈ times, 0 ≤ k ∧ k ≤ nt

/-- The schedule that the function returns for a grid, as `obs_index`. -/
def observationSchedule {nt : ℕ} (p : ObsWindow) (t : TimeGrid nt) : Schedule nt where
  times := (generateObservationSchedule p t.points).2.1.map fun i : ℕ => (i : ℤ)
  sorted := by
    have hs := (generateObservationSchedule_sorted p t.points).pairwise
    exact (hs.map _ fun i j hij => by exact_mod_cast hij).sortedLT
  inGrid k hk := by
    obtain ⟨i, hi, rfl⟩ := List.mem_map.mp hk
    have hne : t.points ≠ [] := by
      have := t.length_points
      rintro h
      simp [h] at this
    have hlt := generateObservationSchedule_lt hne hi
    rw [t.length_points] at hlt
    omega

end Icesee
