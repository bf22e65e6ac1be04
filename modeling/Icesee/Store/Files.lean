import Mathlib.Data.List.AList
import Mathlib.Data.List.Sort
import Icesee.Lib.Decimal

/-!
The data directory of the full-parallel run: its HDF5 files, their names, and the
tests that `tools.py` runs on it.

* **Files.** An `H5File` holds one two-dimensional dataset. An entry nobody has
  written since the file was created has no value of its own and reads as the
  fill value `0` (`H5File.entry`).
* **Names.** Step files are `{prefix}_ens_{t:04d}.h5` (serial creation) or
  `{prefix}_{t:04d}.h5` (parallel creation), the means are `{prefix}_mean.h5`.
  `stepName_inj` and `stepName_ne_meanName` keep them apart.
* **Tests.** `stepAlreadyDone` and `lastCompletedStep` look at names only;
  `lastCompletedStep_eq` evaluates the latter on a directory whose step files are
  those of the times below `n`.
-/

namespace Icesee

open Decimal

variable {β : Type}

/-! ### HDF5 files -/

/-- The dataset a file carries: the ensemble of one time, or the means of all. -/
inductive DatasetName where
  | states
  | mean
  deriving DecidableEq, Repr

/-- A file with one dataset of the given shape. `written i j` is the value of entry
`(i, j)` if it has been written since the file was created. -/
structure H5File (β : Type) where
  dset : DatasetName
  shape : ℕ × ℕ
  written : ℕ → ℕ → Option β

namespace H5File

/-- `h5py.File(fname, 'w')` followed by `create_dataset`: nothing is written yet. -/
def blank (dset : DatasetName) (rows cols : ℕ) : H5File β :=
  { dset, shape := (rows, cols), written := fun _ _ => none }

/-- `ds[i, j]`: an entry that was never written reads as the fill value. -/
def entry [Zero β] (f : H5File β) (i j : ℕ) : β := (f.written i j).getD 0

/-- `ds[lo:hi, j] = data`. -/
def setRows (f : H5File β) (lo hi j : ℕ) (data : ℕ → β) : H5File β :=
  { f with written := fun i j' =>
      if (lo ≤ i ∧ i < hi) ∧ j' = j then some (data (i - lo)) else f.written i j' }

@[simp] lemma setRows_written (f : H5File β) (lo hi j : ℕ) (data : ℕ → β) (i j' : ℕ) :
    (f.setRows lo hi j data).written i j' =
      if (lo ≤ i ∧ i < hi) ∧ j' = j then some (data (i - lo)) else f.written i j' := rfl

end H5File

/-! ### File names -/

abbrev FileName := List Char

/-- `f"{prefix}_ens_{t:04d}.h5"`, the step files of `_create_batch_serial`. -/
def serialName (filePrefix : FileName) (t : ℕ) : FileName :=
  filePrefix ++ "_ens_".toList ++ padded 4 t ++ ".h5".toList

/-- `f"{prefix}_{t:04d}.h5"`, the step files of `_create_batch_parallel`. -/
def parallelName (filePrefix : FileName) (t : ℕ) : FileName :=
  filePrefix ++ "_".toList ++ padded 4 t ++ ".h5".toList

/-- `f"{prefix}_mean.h5"`. -/
def meanName (filePrefix : FileName) : FileName := filePrefix ++ "_mean.h5".toList

/-- The name of the step file of time `t` in either creation mode. -/
def stepName (serialFileCreation : Bool) (filePrefix : FileName) (t : ℕ) : FileName :=
  if serialFileCreation then serialName filePrefix t else parallelName filePrefix t

@[simp] lemma serialName_inj {pre : FileName} {s t : ℕ} :
    serialName pre s = serialName pre t ↔ s = t := by
  simp [serialName]

@[simp] lemma parallelName_inj {pre : FileName} {s t : ℕ} :
    parallelName pre s = parallelName pre t ↔ s = t := by
  simp [parallelName]

/-- Different times have different step files. -/
@[simp] lemma stepName_inj {b : Bool} {pre : FileName} {s t : ℕ} :
    stepName b pre s = stepName b pre t ↔ s = t := by
  cases b <;> simp [stepName]

/-- A step file is never the file of the means. -/
lemma stepName_ne_meanName (b : Bool) (pre : FileName) (t : ℕ) :
    stepName b pre t ≠ meanName pre := by
  intro h
  cases b
  · -- after the common `prefix_` a numeral would have to begin with an `m`
    have htail : padded 4 t ++ ".h5".toList = "mean.h5".toList := by
      simpa [stepName, parallelName, meanName, List.append_assoc] using h
    obtain ⟨c, l, hl⟩ := List.exists_cons_of_ne_nil (padded_ne_nil 4 t)
    have hc : c.isDigit := isDigit_of_mem_padded (w := 4) (n := t) (by rw [hl]; simp)
    rw [hl] at htail
    have hm := congrArg List.head? htail
    simp only [List.cons_append, List.head?_cons] at hm
    obtain rfl : c = 'm' := Option.some.inj hm
    exact absurd hc (by decide)
  · simp [stepName, serialName, meanName, List.append_assoc] at h

/-! ### The directory -/

/-- A directory: finitely many files, each under its own name. -/
abbrev Directory (β : Type) := AList fun _ : FileName => H5File β

namespace Directory

/-- `for file_path in glob.glob(pattern): os.remove(file_path)` for `pre*suf`. -/
def removeGlob (dir : Directory β) (pre suf : FileName) : Directory β :=
  (dir.keys.filter (globMatch pre suf)).foldl (fun d n => d.erase n) dir

/-- What is left after removing a list of names. -/
lemma lookup_foldl_erase (names : List FileName) (dir : Directory β) (n : FileName) :
    (names.foldl (fun d m => d.erase m) dir).lookup n =
      if n ∈ names then none else dir.lookup n := by
  induction names generalizing dir with
  | nil => simp
  | cons m names ih =>
      rw [List.foldl_cons, ih]
      by_cases hn : n = m
      · subst hn; simp [AList.lookup_erase]
      · simp [AList.lookup_erase_ne hn, hn]

/-- The files that match the pattern are gone, the others are untouched. -/
lemma lookup_removeGlob (dir : Directory β) (pre suf n : FileName) :
    (dir.removeGlob pre suf).lookup n =
      if globMatch pre suf n then none else dir.lookup n := by
  rw [removeGlob, lookup_foldl_erase]
  by_cases hg : globMatch pre suf n <;> by_cases hn : n ∈ dir.keys
  · simp [hg, hn]
  · have : dir.lookup n = none := AList.lookup_eq_none.mpr hn
    simp [this]
  · simp [hg]
  · simp [hg]

/-! ### The completion tests -/

/-- `step_already_done`: a file with the padded or with the plain name exists. -/
def stepAlreadyDone (dir : Directory β) (k : ℕ) : Bool :=
  (dir.lookup ("icesee_enkf_ens_".toList ++ padded 4 k ++ ".h5".toList)).isSome ||
    (dir.lookup ("icesee_enkf_ens_".toList ++ digits k ++ ".h5".toList)).isSome

/-- `_extract_time_from_name`, with its `ValueError`. -/
def extractTimeFromName (fname : FileName) : Except String ℕ :=
  match searchField "icesee_enkf_ens_".toList ".h5".toList fname with
  | some t => .ok t
  | none => .error ("Bad filename (no time index): " ++ String.ofList fname)

/-- `_sorted_step_files`: every key is computed before the sort starts. -/
def sortedStepFiles (dir : Directory β) : Except String (List FileName) := do
  let files := dir.keys.filter (globMatch "icesee_enkf_ens_".toList ".h5".toList)
  let keyed ← files.mapM fun f => do return ((← extractTimeFromName f), f)
  return (keyed.mergeSort fun a b => a.1 ≤ b.1).map Prod.snd

/-- `_last_completed_step`. -/
def lastCompletedStep (dir : Directory β) : Except String (Option ℕ) := do
  let files ← sortedStepFiles dir
  match files.getLast? with
  | none => return none
  | some f => return some (← extractTimeFromName f)

lemma globMatch_serialName (t : ℕ) : globMatch "icesee_enkf_ens_".toList ".h5".toList
    (serialName "icesee_enkf".toList t) := by
  have h := globMatch_append "icesee_enkf_ens_".toList (padded 4 t) ".h5".toList
  simpa [serialName] using h

lemma extractTimeFromName_serialName (t : ℕ) :
    extractTimeFromName (serialName "icesee_enkf".toList t) = .ok t := by
  have h := fieldAt_padded "icesee_enkf_ens_".toList ".h5".toList 4 t (by decide)
  have hname : serialName "icesee_enkf".toList t =
      "icesee_enkf_ens_".toList ++ padded 4 t ++ ".h5".toList := by simp [serialName]
  rw [extractTimeFromName, hname, searchField_of_field h]

/-- The number in a name, `0` where there is none. -/
def timeOf (fname : FileName) : ℕ :=
  (searchField "icesee_enkf_ens_".toList ".h5".toList fname).getD 0

@[simp] lemma timeOf_serialName (t : ℕ) : timeOf (serialName "icesee_enkf".toList t) = t := by
  have ht := extractTimeFromName_serialName t
  unfold extractTimeFromName at ht
  split at ht <;> simp_all [timeOf]

lemma mapM_eq_ok {α γ ε : Type*} {f : α → Except ε γ} {g : α → γ} {l : List α}
    (h : ∀ a ∈ l, f a = .ok (g a)) : l.mapM f = .ok (l.map g) := by
  induction l with
  | nil => rfl
  | cons a l ih =>
      rw [List.mapM_cons, h a (by simp), ih fun b hb => h b (by simp [hb])]
      rfl

/-- The last element of a sorted list bounds all of them. -/
lemma le_key_getLast {α : Type*} (key : α → ℕ) {l : List α} {a b : α} (ha : a ∈ l)
    (hb : (l.mergeSort fun x y => key x ≤ key y).getLast? = some b) : key a ≤ key b := by
  obtain ⟨ys, hys⟩ := List.getLast?_eq_some_iff.mp hb
  have hsorted : (l.mergeSort fun x y => key x ≤ key y).Pairwise
      (fun x y => decide (key x ≤ key y)) :=
    List.pairwise_mergeSort (by simp; omega) (by simp; omega) l
  have hmem : a ∈ l.mergeSort fun x y => key x ≤ key y := List.mem_mergeSort.mpr ha
  rw [hys] at hsorted hmem
  rcases List.mem_append.mp hmem with h | h
  · simpa using (List.pairwise_append.mp hsorted).2.2 a h b (by simp)
  · rw [List.mem_singleton.mp h]

/-- Where every step file has a proper name, the files are sorted by their times. -/
lemma sortedStepFiles_eq {dir : Directory β} {time : FileName → ℕ}
    (h : ∀ f ∈ dir.keys, globMatch "icesee_enkf_ens_".toList ".h5".toList f →
      extractTimeFromName f = .ok (time f)) :
    sortedStepFiles dir = .ok
      ((((dir.keys.filter (globMatch "icesee_enkf_ens_".toList ".h5".toList)).map
        fun f => (time f, f)).mergeSort fun a b => a.1 ≤ b.1).map Prod.snd) := by
  rw [sortedStepFiles, mapM_eq_ok (g := fun f => (time f, f))]
  · rfl
  · intro f hf
    obtain ⟨hkey, hglob⟩ := List.mem_filter.mp hf
    rw [h f hkey hglob]
    rfl

/-- Where the step files are those of the times below `n + 1`, time `n` among them,
`_last_completed_step` answers `n`, whatever has been written to the files. -/
lemma lastCompletedStep_eq {dir : Directory β} {n : ℕ}
    (h : ∀ f ∈ dir.keys, globMatch "icesee_enkf_ens_".toList ".h5".toList f →
      ∃ t ≤ n, f = serialName "icesee_enkf".toList t)
    (hn : serialName "icesee_enkf".toList n ∈ dir) :
    lastCompletedStep dir = .ok (some n) := by
  have hkeyed : ∀ f ∈ dir.keys, globMatch "icesee_enkf_ens_".toList ".h5".toList f →
      extractTimeFromName f = .ok (timeOf f) := by
    intro f hf hg
    obtain ⟨t, _, rfl⟩ := h f hf hg
    rw [extractTimeFromName_serialName, timeOf_serialName]
  rw [lastCompletedStep, sortedStepFiles_eq hkeyed]
  set keyed := (dir.keys.filter (globMatch "icesee_enkf_ens_".toList ".h5".toList)).map
    fun f => (timeOf f, f) with hdef
  have hmem : (n, serialName "icesee_enkf".toList n) ∈ keyed := by
    refine List.mem_map.mpr ⟨_, List.mem_filter.mpr ⟨hn, globMatch_serialName n⟩, ?_⟩
    rw [timeOf_serialName]
  -- the files are sorted, so the last one has the largest time
  cases hlast : (keyed.mergeSort fun a b => a.1 ≤ b.1).getLast? with
  | none =>
      rw [List.getLast?_eq_none_iff] at hlast
      have hnil := (List.mergeSort_perm keyed fun a b => a.1 ≤ b.1).mem_iff.mpr hmem
      rw [hlast] at hnil
      simp at hnil
  | some b =>
      have hle : n ≤ b.1 := le_key_getLast Prod.fst hmem hlast
      have hb : b ∈ keyed := List.mem_mergeSort.mp (List.mem_of_getLast? hlast)
      obtain ⟨f, hf, rfl⟩ := List.mem_map.mp hb
      obtain ⟨hkey, hglob⟩ := List.mem_filter.mp hf
      obtain ⟨t, ht, rfl⟩ := h f hkey hglob
      rw [timeOf_serialName] at hle
      obtain rfl : t = n := by omega
      have hfile : ((keyed.mergeSort fun a b => a.1 ≤ b.1).map Prod.snd).getLast? =
          some (serialName "icesee_enkf".toList t) := by
        rw [List.getLast?_map, hlast]
        rfl
      change (match ((keyed.mergeSort fun a b => a.1 ≤ b.1).map Prod.snd).getLast? with
        | none => pure none
        | some f => do return some (← extractTimeFromName f)) = _
      simp only [hfile, extractTimeFromName_serialName]
      rfl

end Directory

end Icesee
