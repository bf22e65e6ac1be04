import Icesee.Lib.Counting

/-!
The observation counter `km`.

An `ObsIndex` is the array `obs_index` of the model steps with an observation.
`due` is the trigger `(km < number_obs_instants) and (k == obs_index[km])` of all
three drivers, and `computeKmFromTobserve` the value the full driver starts from.
With `km` at the position of `k`, the trigger is membership (`due_below`).
-/

namespace Icesee

open Counting

/-- The observation indices: strictly increasing model steps. -/
structure ObsIndex where
  times : List ℤ
  sorted : times.SortedLT

namespace ObsIndex

/-- No observation. -/
def none : ObsIndex := ⟨[], by decide⟩

variable (obs : ObsIndex)

/-- `m_obs`, also `number_obs_instants`. -/
def mObs : ℕ := obs.times.length

/-- `(km < number_obs_instants) and (k == obs_index[km])`. -/
def due (km : ℕ) (k : ℤ) : Bool := decide (km < obs.mObs) && obs.times[km]? == some k

lemma due_iff {km : ℕ} {k : ℤ} : obs.due km k ↔ obs.times[km]? = some k := by
  rw [due, Bool.and_eq_true, beq_iff_eq, decide_eq_true_iff]
  exact and_iff_right_of_imp fun h => (List.getElem?_eq_some_iff.mp h).1

/-- At the position of `k`, step `k` is due exactly if it is an observation index. -/
lemma due_below {k : ℤ} : obs.due (below obs.times k) k ↔ k ∈ obs.times := by
  rw [due_iff, getElem?_below obs.sorted]

end ObsIndex

/-- `compute_km_from_tobserve(tobserve, k_start, m_obs)`: the clamp of `m_obs`, then the
number of entries up to `k_start`. -/
def computeKmFromTobserve (tobserve : List ℤ) (kStart : ℤ) (mObs : Option ℤ) : ℕ :=
  let mObsI : ℤ := match mObs with
    | none => tobserve.length
    | some m => m
  let mObsI : ℤ := max 0 (min mObsI tobserve.length)
  (tobserve.take mObsI.toNat).countP (· ≤ kStart)

/-- Called with the length of the array, the function counts the entries below
`k_start + 1`, one step further than the position of `k_start`. -/
lemma computeKm_eq (obs : ObsIndex) (k : ℤ) :
    computeKmFromTobserve obs.times k (some obs.mObs) = below obs.times (k + 1) := by
  simp [computeKmFromTobserve, ObsIndex.mObs, countP_le_eq]

end Icesee
