import Icesee.Obs.Matching

/-!
The columns of the bed snapshots.

`_create_synthetic_observations` looks for a snapshot in `obs_t`, the requested times, and
uses the position as a column. The columns are numbered by `ind_m`, which has lost the
requests without a grid point and those that share one. `snapshots_iff` says when the
position is a column, and one that is nearest to the snapshot.
-/

namespace Icesee

open Nearest

namespace ObsSetup

variable (cfg : ObsSetup)

/-- The loop over the snapshots puts column `col` for `s`. -/
def PutsFor (obsT : List ℚ) (s : ℚ) (col : ℕ) : Prop :=
  obsT ≠ [] ∧ s ∈ cfg.bedSnapshots ∧ nearestIndex obsT s = col

lemma mem_bedSnapCols {obsT : List ℚ} {col : ℕ} :
    col ∈ cfg.bedSnapCols obsT ↔ ∃ s, cfg.PutsFor obsT s col := by
  rw [bedSnapCols]
  split
  · rename_i h
    simp [PutsFor, h]
  · rename_i h
    simp [PutsFor, h, nearestIndex]

/-- The model time of a column: `t[ind_m[col]]`. -/
def columnTime (t : List ℚ) (indM : List ℕ) (col : ℕ) : ℚ := t.getD (indM.getD col 0) 0

/-- In both generators, every column that is put for a snapshot is one of the `m_obs`
columns, and none is nearer to the snapshot. -/
def SnapshotsHit (p : ObsWindow) (t : List ℚ) : Prop :=
  ∀ obsT indM mObs,
    (obsT, indM, mObs) = generateObservationSchedule p t ∨
      fullGenerateObservationSchedule p t = .ok (obsT, indM, mObs) →
    ∀ s col, cfg.PutsFor obsT s col → IsNearest (columnTime t indM) mObs s col

/-- There is a column, the snapshot is not beyond the requests that have a column number,
and no midpoint of the requests and of the columns has it on different sides. -/
def Aligned (t obsT : List ℚ) (indM : List ℕ) (s : ℚ) : Prop :=
  0 < indM.length ∧
    (indM.length < obsT.length →
      2 * s ≤ obsT.getD (indM.length - 1) 0 + obsT.getD indM.length 0) ∧
    ∀ i, i + 1 < indM.length →
      (obsT.getD i 0 + obsT.getD (i + 1) 0 < 2 * s →
        columnTime t indM i + columnTime t indM (i + 1) ≤ 2 * s) ∧
      (2 * s ≤ obsT.getD i 0 + obsT.getD (i + 1) 0 →
        2 * s ≤ columnTime t indM i + columnTime t indM (i + 1))

/-! ### The two numberings -/

variable {p : ObsWindow} {t : List ℚ}

/-- The requests increase. -/
lemma sortedLT_obsT (hfreq : 0 < p.freqObs) : (generateObservationSchedule p t).1.SortedLT := by
  by_cases hp : p.Closed t
  · rw [ObsWindow.schedule_of_closed hp]
    exact List.Pairwise.nil.sortedLT
  · rw [ObsWindow.schedule_of_open hp]
    refine (ObsWindow.obsTReq_pairwise.imp fun {s s'} hss => ?_).sortedLT
    have hle := hss.resolve_left hfreq.not_ge
    linarith

/-- There are not more columns than requests. -/
lemma length_indM_le : (generateObservationSchedule p t).2.1.length ≤
    (generateObservationSchedule p t).1.length := by
  by_cases hp : p.Closed t
  · rw [ObsWindow.schedule_of_closed hp]
    exact Nat.le_refl 0
  · rw [ObsWindow.schedule_of_open hp, Finset.length_sort]
    exact (List.toFinset_card_le _).trans (List.length_filterMap_le _ _)

/-- The model times of the columns increase. -/
lemma strictMonoOn_columnTime (ht : t ≠ []) (hinc : t.SortedLT) :
    StrictMonoOn (columnTime t (generateObservationSchedule p t).2.1)
      (Set.Iio (generateObservationSchedule p t).2.1.length) := by
  set indM := (generateObservationSchedule p t).2.1 with hind
  have hinGrid : ∀ {k}, k < indM.length → indM.getD k 0 < t.length := by
    intro k hk
    rw [List.getD_eq_getElem _ _ hk]
    exact generateObservationSchedule_lt ht (List.getElem_mem hk)
  intro i hi j hj hij
  refine strictMonoOn_getD hinc (hinGrid hi) (hinGrid hj) ?_
  have hi' : i < indM.length := hi
  have hj' : j < indM.length := hj
  rw [List.getD_eq_getElem _ _ hi', List.getD_eq_getElem _ _ hj']
  exact (generateObservationSchedule_sorted p t).getElem_lt_getElem_of_lt hij

/-- What is put for one snapshot. -/
lemma isNearest_column_iff (ht : t ≠ []) (hinc : t.SortedLT) (hfreq : 0 < p.freqObs)
    (hreq : (generateObservationSchedule p t).1 ≠ []) (s : ℚ) :
    IsNearest (columnTime t (generateObservationSchedule p t).2.1)
        (generateObservationSchedule p t).2.2 s
        (nearestIndex (generateObservationSchedule p t).1 s) ↔
      Aligned t (generateObservationSchedule p t).1 (generateObservationSchedule p t).2.1 s := by
  rw [generateObservationSchedule_length]
  have hmid := (isFirstNearest_nearestIndex hreq s).isNearest_iff_midpoints length_indM_le
    (strictMonoOn_getD (sortedLT_obsT hfreq)) (strictMonoOn_columnTime ht hinc)
  exact hmid

/-- **The bed snapshots** hit a nearest observation column if and only if every snapshot
is aligned: the positions in the list of requests are used as column numbers. -/
theorem snapshots_iff (ht : t ≠ []) (hinc : t.SortedLT) (hfreq : 0 < p.freqObs) :
    cfg.SnapshotsHit p t ↔ ((generateObservationSchedule p t).1 ≠ [] →
      ∀ s ∈ cfg.bedSnapshots, Aligned t (generateObservationSchedule p t).1
        (generateObservationSchedule p t).2.1 s) := by
  refine ⟨fun h hreq s hs => ?_, fun h obsT indM mObs hsched s col hput => ?_⟩
  · rw [← isNearest_column_iff ht hinc hfreq hreq]
    exact h _ _ _ (Or.inl rfl) s _ ⟨hreq, hs, rfl⟩
  · have hsched' : (obsT, indM, mObs) = generateObservationSchedule p t := by
      rcases hsched with hsched | hsched
      · exact hsched
      · rw [fullGenerateObservationSchedule_eq p ht] at hsched
        exact (Except.ok.inj hsched).symm
    obtain ⟨hreq, hs, rfl⟩ := hput
    have haligned := h (hsched' ▸ hreq) s hs
    rwa [← isNearest_column_iff ht hinc hfreq (hsched' ▸ hreq), ← hsched'] at haligned

/-! ### Three grid points -/

/-- A bed of one entry, with these snapshots. -/
def bedAt (snapshots : List ℚ) : ObsSetup where
  vecInputs := ["bed"]
  dim _ := 1
  observed := ["bed"]
  bedSnapshots := snapshots
  di := 9 / 10
  staticMask _ _ := true
  bedMaskMap _ _ := true

/-- The schedule, evaluated in its three steps. -/
lemma schedule_eq {reqs : List ℚ} {indM : List ℕ} (matched : List ℕ) (hopen : ¬ p.Closed t)
    (hreq : p.obsTReq t = reqs) (hmatched : reqs.filterMap (matchIndex t (gridStep t)) = matched)
    (hsort : matched.toFinset.sort = indM) :
    generateObservationSchedule p t = (reqs, indM, indM.length) := by
  rw [ObsWindow.schedule_of_open hopen, hreq, hmatched, hsort]

/-- Requests on the grid points: the two numberings are the same. -/
theorem snapshotsHit_unit_requests : (bedAt [1, 2]).SnapshotsHit ⟨1, 0, 2⟩ [0, 1, 2] := by
  refine (snapshots_iff (bedAt [1, 2]) (List.cons_ne_nil 0 [1, 2]) (by decide)
    one_pos).mpr fun _ s _ => ?_
  have hsched : generateObservationSchedule ⟨1, 0, 2⟩ [0, 1, 2] = ([0, 1, 2], [0, 1, 2], 3) :=
    schedule_eq [0, 1, 2] (by norm_num [ObsWindow.Closed, ObsWindow.obsStart,
      ObsWindow.obsMax]) (by decide +kernel) (by decide +kernel) (by simp [Finset.sort_insert])
  rw [hsched]
  refine ⟨by norm_num, fun h => absurd h (lt_irrefl 3), fun i hi => ?_⟩
  have hi' : i < 2 := Nat.lt_of_succ_lt_succ hi
  interval_cases i <;> exact ⟨le_of_lt, id⟩

/-- Two requests for every grid point: the last one is not a column. -/
theorem not_snapshotsHit_double_requests :
    ¬ (bedAt [2]).SnapshotsHit ⟨1 / 2, 0, 2⟩ [0, 1, 2] := by
  intro h
  have hsched : generateObservationSchedule ⟨1 / 2, 0, 2⟩ [0, 1, 2] =
      ([0, 1 / 2, 1, 3 / 2, 2], [0, 1, 2], 3) :=
    schedule_eq [0, 0, 1, 1, 2] (by norm_num [ObsWindow.Closed, ObsWindow.obsStart,
      ObsWindow.obsMax]) (by decide +kernel) (by decide +kernel) (by simp [Finset.sort_insert])
  have hput : (bedAt [2]).PutsFor [0, 1 / 2, 1, 3 / 2, 2] 2 4 :=
    ⟨List.cons_ne_nil 0 _, List.mem_singleton_self 2, by decide +kernel⟩
  exact absurd (h _ _ _ (Or.inl hsched.symm) 2 4 hput).lt (by norm_num)

end ObsSetup

end Icesee
