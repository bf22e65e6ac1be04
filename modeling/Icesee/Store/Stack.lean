import Mathlib.Algebra.BigOperators.Group.Finset.Basic
import Mathlib.Algebra.Field.Basic
import Mathlib.Algebra.Field.Rat
import Mathlib.Data.Finset.Sort
import Icesee.Lib.Keyed
import Icesee.Store.Files

/-!
Stacking the step files of a run into one file: `build_vds` and `consolidate_h5`.

* **Discovery.** `listSortedFiles` sorts whatever order `glob` lists by the number in
  the name; `listSortedFiles_eq` says what comes out for the files of the times `T`.
* **Builders.** `buildVds` stacks views, `consolidateH5` copies. Both number the
  slices by position in the sorted list, and `StepFiles.builders_eq` says what they
  build from the serially created files of a run.
* **Slots.** `positional_iff`: position is time exactly when the times are
  `0, 1, …, n - 1`.
* **Finalisation** (`StepFiles.finalised`): the two builders never agree on the name of
  the dataset, and apart from the name they do what they are for exactly for serially
  created files without a gap.
-/

namespace Icesee

open Finset Decimal Directory

variable {K : Type}

/-! ### Discovery -/

/-- The pattern `icesee_enkf_ens_*.h5`. -/
def isEnsFile : FileName → Bool := globMatch "icesee_enkf_ens_".toList ".h5".toList

/-- `_extract_time`. It has the text of `_extract_time_from_name`. -/
def extractTime (fname : FileName) : Except String ℕ := extractTimeFromName fname

/-- `_list_sorted_files`, for the order `listing` in which `glob` lists the files. -/
def listSortedFiles (inputDir : String) (listing : List FileName) :
    Except String (List FileName) := do
  if listing.isEmpty then
    throw ("No input files found in " ++ inputDir)
  let keyed ← listing.mapM fun f => do return ((← extractTime f), f)
  return (keyed.mergeSort fun a b => a.1 ≤ b.1).map Prod.snd

/-- `icesee_enkf_0000.h5` is not of the pattern. -/
lemma not_isEnsFile_parallelName (t : ℕ) :
    ¬ isEnsFile (parallelName "icesee_enkf".toList t) := by
  intro h
  obtain ⟨c, l, hl⟩ := List.exists_cons_of_ne_nil (padded_ne_nil 4 t)
  have hc : c.isDigit := isDigit_of_mem_padded (w := 4) (n := t) (by rw [hl]; simp)
  have hname : parallelName "icesee_enkf".toList t =
      "icesee_enkf_".toList ++ c :: (l ++ ".h5".toList) := by
    simp [parallelName, hl]
  rw [isEnsFile, globMatch, hname] at h
  -- after the common head the pattern has an `e`
  have hce : 'e' = c := by
    rw [Bool.and_eq_true, List.isPrefixOf_iff_prefix] at h
    have hpre : "icesee_enkf_".toList ++ "ens_".toList <+:
        "icesee_enkf_".toList ++ c :: (l ++ ".h5".toList) := by simpa using h.1
    rw [List.prefix_append_right_inj] at hpre
    exact (List.cons_prefix_cons.mp hpre).1
  rw [← hce] at hc
  exact absurd hc (by decide)

/-- The names of the serial step files of the times `T`, in the order of time. -/
def ensFiles (T : Finset ℕ) : List FileName := T.sort.map (serialName "icesee_enkf".toList)

/-- Pairs of a time and its name, in whatever order, are sorted into the order of time. -/
lemma mergeSort_keyed {T : Finset ℕ} {keyed : List (ℕ × FileName)}
    (h : keyed.Perm (T.sort.map fun t => (t, serialName "icesee_enkf".toList t))) :
    keyed.mergeSort (fun a b => a.1 ≤ b.1) =
      T.sort.map fun t => (t, serialName "icesee_enkf".toList t) := by
  have hperm := (List.mergeSort_perm keyed fun a b => a.1 ≤ b.1).trans h
  have hsorted : (keyed.mergeSort fun a b => a.1 ≤ b.1).Pairwise
      fun a b => decide (a.1 ≤ b.1) :=
    List.pairwise_mergeSort (by simp; omega) (by simp; omega) keyed
  refine List.Perm.eq_of_pairwise (fun a b ha hb hab hba => ?_) hsorted
    (List.pairwise_map.mpr ((pairwise_sort T (· ≤ ·)).imp (by simp))) hperm
  -- pairs with the same time are the same
  obtain ⟨s, -, rfl⟩ := List.mem_map.mp (hperm.mem_iff.mp ha)
  obtain ⟨t, -, rfl⟩ := List.mem_map.mp hb
  have hst : s = t := le_antisymm (by simpa using hab) (by simpa using hba)
  rw [hst]

/-- The serial step files of the times `T`, listed in any order, come out by time. -/
lemma listSortedFiles_eq (inputDir : String) {listing : List FileName} {T : Finset ℕ}
    (hT : T.Nonempty) (h : listing.Perm (ensFiles T)) :
    listSortedFiles inputDir listing = .ok (ensFiles T) := by
  have hne : listing.isEmpty = false := by
    rw [List.isEmpty_eq_false_iff_exists_mem]
    obtain ⟨t, ht⟩ := hT
    exact ⟨_, h.mem_iff.mpr (List.mem_map.mpr ⟨t, (mem_sort _).mpr ht, rfl⟩)⟩
  have hok : ∀ f ∈ listing, (do return ((← extractTime f), f) : Except String _) =
      .ok (timeOf f, f) := by
    intro f hf
    obtain ⟨t, -, rfl⟩ := List.mem_map.mp (h.mem_iff.mp hf)
    rw [extractTime, extractTimeFromName_serialName, timeOf_serialName]
    rfl
  have hkeyed : (listing.map fun f => (timeOf f, f)).Perm
      (T.sort.map fun t => (t, serialName "icesee_enkf".toList t)) := by
    refine (h.map _).trans (List.Perm.of_eq ?_)
    rw [ensFiles, List.map_map]
    exact List.map_congr_left fun t _ => Prod.ext (timeOf_serialName t) rfl
  rw [listSortedFiles, if_neg (by simp [hne]), mapM_eq_ok hok]
  change Except.ok _ = _
  rw [mergeSort_keyed hkeyed, List.map_map]
  rfl

/-! ### The slots -/

/-- A set of times in which every time is below the number of times has no gap. -/
lemma eq_range_card_iff {T : Finset ℕ} : T = range #T ↔ ∀ t ∈ T, t < #T := by
  refine ⟨fun h t ht => mem_range.mp (h ▸ ht), fun h => ?_⟩
  exact eq_of_subset_of_card_le (fun t ht => mem_range.mpr (h t ht)) (by simp)

/-- Without a gap, every time is at its own position of the sorted list. -/
lemma sort_getElem? {T : Finset ℕ} (hT : T = range #T) {t : ℕ} (ht : t ∈ T) :
    T.sort[t]? = some t := by
  have hlt := eq_range_card_iff.mp hT t ht
  have hsort : T.sort = List.range #T := by
    conv_lhs => rw [hT]
    exact sort_range _
  rw [hsort]
  simp [hlt]

/-! ### The builders -/

/-- The file a builder writes. A value is absent where it is a NaN: the step files
hold numbers, so only fill values are. Slice `t` is entry `t` of `slices`. -/
structure StackFile (K : Type) where
  datasetName : String
  stackType : String
  shape : ℕ × ℕ × ℕ
  slices : List (ℕ → ℕ → Option K)
  ensembleMean : List (ℕ → Option K)

/-- `h5py.File(path, "r")`. -/
def openFile (dir : Directory K) (path : FileName) : Except String (H5File K) :=
  match dir.lookup path with
  | some f => .ok f
  | none => .error ("Unable to open file " ++ String.ofList path)

/-- The name of a dataset in its file. -/
def DatasetName.name : DatasetName → String
  | states => "states"
  | mean => "mean"

/-- `f[dset_name]`, for a file with one dataset. -/
def H5File.get (f : H5File K) (dset : DatasetName) : Except String (H5File K) :=
  if f.dset = dset then .ok f else .error ("KeyError: " ++ dset.name)

/-- `_infer_dataset_name`: the files have one dataset, the preferred one or the only
one. -/
def inferDatasetName (dir : Directory K) (path : FileName) : Except String DatasetName := do
  return (← openFile dir path).dset

/-- The head of both builders: the sorted files, the name of the dataset and the
shape of the first file. -/
def probe (dir : Directory K) (inputDir : String) (listing : List FileName)
    (dsetName : Option DatasetName) :
    Except String (List FileName × DatasetName × ℕ × ℕ) := do
  let files ← listSortedFiles inputDir listing
  let first := files.headD []
  let dset ← match dsetName with
    | some dset => pure dset
    | none => inferDatasetName dir first
  let f0 ← (← openFile dir first).get dset
  return (files, dset, f0.shape)

/-! ### The step files of a run -/

/-- The directory after a run with the file prefix `icesee_enkf` has written the step
files of `times`. Whatever else it holds, no other name is of the pattern. -/
structure StepFiles (K : Type) where
  serialFileCreation : Bool
  nd : ℕ
  nens : ℕ
  nens_pos : 0 < nens
  times : Finset ℕ
  nonempty : times.Nonempty
  dir : Directory K
  file : ℕ → H5File K
  lookup_file : ∀ t ∈ times,
    dir.lookup (stepName serialFileCreation "icesee_enkf".toList t) = some (file t)
  dset_file : ∀ t ∈ times, (file t).dset = .states
  shape_file : ∀ t ∈ times, (file t).shape = (nd, nens)
  time_of_isEnsFile : ∀ n ∈ dir.keys, isEnsFile n →
    ∃ t ∈ times, n = stepName serialFileCreation "icesee_enkf".toList t

namespace StepFiles

variable (s : StepFiles K)

/-- The order in which `glob` lists the files of the pattern is any. -/
def Globs (listing : List FileName) : Prop := listing.Perm (s.dir.keys.filter isEnsFile)

variable {s}

/-- After a run with parallel creation nothing is found: `icesee_enkf_0000.h5` is not
of the pattern. -/
lemma listing_eq_nil {listing : List FileName} (h : s.Globs listing)
    (hp : s.serialFileCreation = false) : listing = [] := by
  rw [← List.perm_nil]
  refine h.trans (List.Perm.of_eq (List.filter_eq_nil_iff.mpr fun n hn hens => ?_))
  obtain ⟨t, -, rfl⟩ := s.time_of_isEnsFile n hn hens
  rw [hp] at hens
  exact absurd hens (not_isEnsFile_parallelName t)

/-- After a run with serial creation the step files are found, all of them. -/
lemma listing_perm {listing : List FileName} (h : s.Globs listing)
    (hs : s.serialFileCreation = true) : listing.Perm (ensFiles s.times) := by
  refine h.trans ((List.perm_ext_iff_of_nodup (s.dir.nodupKeys.filter _) ?_).mpr fun n => ?_)
  · exact (List.nodup_map_iff fun a b => serialName_inj.mp).mpr (sort_nodup _ _)
  · rw [List.mem_filter, ensFiles, List.mem_map]
    refine ⟨fun ⟨hn, hens⟩ => ?_, fun ⟨t, ht, hn⟩ => ?_⟩
    · obtain ⟨t, ht, rfl⟩ := s.time_of_isEnsFile n hn hens
      rw [hs]
      exact ⟨t, (mem_sort _).mpr ht, rfl⟩
    · have hlook := s.lookup_file t ((mem_sort _).mp ht)
      rw [hs, stepName, if_pos rfl] at hlook
      subst hn
      exact ⟨AList.lookup_isSome.mp (Option.isSome_of_mem hlook), globMatch_serialName t⟩

/-- There is a first time. -/
lemma exists_sort_cons (s : StepFiles K) : ∃ t l, s.times.sort = t :: l := by
  refine List.exists_cons_of_ne_nil fun hnil => ?_
  obtain ⟨t, ht⟩ := s.nonempty
  have hmem := (mem_sort (· ≤ ·)).mpr ht
  rw [hnil] at hmem
  exact absurd hmem List.not_mem_nil

/-- Every step file can be opened. -/
lemma openFile_eq (hs : s.serialFileCreation = true) {t : ℕ} (ht : t ∈ s.times) :
    openFile s.dir (serialName "icesee_enkf".toList t) = .ok (s.file t) := by
  have hlook := s.lookup_file t ht
  rw [hs, stepName, if_pos rfl] at hlook
  rw [openFile, hlook]

/-- The dataset of a step file. -/
lemma get_states {t : ℕ} (ht : t ∈ s.times) : (s.file t).get .states = .ok (s.file t) :=
  if_pos (s.dset_file t ht)

/-- The builders look at the file of the first time. -/
lemma openFile_first (hs : s.serialFileCreation = true) :
    ∃ t ∈ s.times, openFile s.dir ((ensFiles s.times).headD []) = .ok (s.file t) := by
  obtain ⟨t, l, hsort⟩ := s.exists_sort_cons
  have ht : t ∈ s.times := (mem_sort _).mp (hsort ▸ List.mem_cons_self)
  have hfirst : (ensFiles s.times).headD [] = serialName "icesee_enkf".toList t := by
    rw [ensFiles, hsort]
    rfl
  exact ⟨t, ht, by rw [hfirst, openFile_eq hs ht]⟩

/-- The head of both builders on the step files of a run. -/
lemma probe_eq (inputDir : String) {listing : List FileName} {dsetName : Option DatasetName}
    (h : s.Globs listing) (hs : s.serialFileCreation = true) (hd : dsetName ≠ some .mean) :
    probe s.dir inputDir listing dsetName = .ok (ensFiles s.times, .states, s.nd, s.nens) := by
  obtain ⟨t, ht, hopen⟩ := openFile_first hs
  -- the first file says which dataset there is, and its shape
  have hread : (do return (ensFiles s.times, DatasetName.states,
      (← (s.file t).get .states).shape) : Except String _) =
      .ok (ensFiles s.times, .states, s.nd, s.nens) := by
    rw [get_states ht]
    exact congrArg _ (congrArg _ (congrArg _ (s.shape_file t ht)))
  rw [probe, listSortedFiles_eq inputDir s.nonempty (listing_perm h hs)]
  change (do
    let dset ← match dsetName with
      | some dset => pure dset
      | none => inferDatasetName s.dir ((ensFiles s.times).headD [])
    let f0 ← (← openFile s.dir ((ensFiles s.times).headD [])).get dset
    return (ensFiles s.times, dset, f0.shape) : Except String _) = _
  match dsetName, hd with
  | none, _ =>
      rw [inferDatasetName, hopen]
      change (do return (ensFiles s.times, (s.file t).dset,
        (← (s.file t).get (s.file t).dset).shape) : Except String _) = _
      rw [s.dset_file t ht]
      exact hread
  | some .states, _ =>
      rw [hopen]
      exact hread
  | some .mean, hd => exact absurd rfl hd

/-- No step file has a dataset `mean`. -/
lemma probe_mean (inputDir : String) {listing : List FileName}
    (h : s.Globs listing) (hs : s.serialFileCreation = true) :
    probe s.dir inputDir listing (some .mean) = .error "KeyError: mean" := by
  obtain ⟨t, ht, hopen⟩ := openFile_first hs
  have hget : (s.file t).get .mean = .error "KeyError: mean" :=
    if_neg (by rw [s.dset_file t ht]; nofun)
  rw [probe, listSortedFiles_eq inputDir s.nonempty (listing_perm h hs)]
  change (do
    let f0 ← (← openFile s.dir ((ensFiles s.times).headD [])).get .mean
    return (ensFiles s.times, DatasetName.mean, f0.shape) : Except String _) = _
  rw [hopen]
  change (do
    let f0 ← (s.file t).get .mean
    return (ensFiles s.times, DatasetName.mean, f0.shape) : Except String _) = _
  rw [hget]
  rfl

end StepFiles

/-! ### What is built -/

variable [Field K]

/-- `np.nanmean` along a row with `nens` entries. -/
def nanmean (nens : ℕ) (row : ℕ → Option K) : Option K :=
  let xs := (List.range nens).filterMap row
  if xs.isEmpty then none else some (xs.sum / xs.length)

/-- `fi[dset_name][...]`. -/
def H5File.values (f : H5File K) (i j : ℕ) : Option K := some (f.entry i j)

/-- A slice of the virtual dataset: the values of its source, the fill value where
the source cannot be read. -/
def virtualSource (dir : Directory K) (dset : DatasetName) (path : FileName) (i j : ℕ) :
    Option K :=
  match (do (← openFile dir path).get dset : Except String (H5File K)) with
  | .ok f => f.values i j
  | .error _ => none

/-- `build_vds`. -/
def buildVds (dir : Directory K) (inputDir : String) (listing : List FileName)
    (dsetName : Option DatasetName) : Except String (StackFile K) := do
  let (files, dset, nd, nens) ← probe dir inputDir listing dsetName
  let slices := files.map (virtualSource dir dset)
  return { datasetName := dset.name
           stackType := "VDS"
           shape := (nd, nens, files.length)
           slices
           ensembleMean := slices.map fun arr i => nanmean nens (arr i) }

/-- One turn of the loop of `consolidate_h5`: the array of a file. -/
def readSlice (dir : Directory K) (dset : DatasetName) (shape : ℕ × ℕ) (allowMissing : Bool)
    (fpath : FileName) : Except String (ℕ → ℕ → Option K) :=
  match (do (← openFile dir fpath).get dset : Except String (H5File K)) with
  | .ok f => if f.shape = shape then .ok f.values
      else .error ("Shape mismatch at " ++ String.ofList fpath)
  | .error e => if allowMissing then .ok fun _ _ => none
      else .error ("Failed reading " ++ String.ofList fpath ++ ": " ++ e)

/-- `consolidate_h5`. The dataset is called `ensemble` whatever was asked for. -/
def consolidateH5 (dir : Directory K) (inputDir : String) (listing : List FileName)
    (dsetName : Option DatasetName) (allowMissing : Bool) : Except String (StackFile K) := do
  let (files, dset, nd, nens) ← probe dir inputDir listing dsetName
  let slices ← files.mapM (readSlice dir dset (nd, nens) allowMissing)
  return { datasetName := "ensemble"
           stackType := "materialized"
           shape := (nd, nens, files.length)
           slices
           ensembleMean := slices.map fun arr i => nanmean nens (arr i) }

/-- The mean of a row of numbers. -/
lemma nanmean_some {nens : ℕ} (hpos : 0 < nens) (row : ℕ → K) :
    nanmean nens (fun j => some (row j)) = some ((∑ j ∈ range nens, row j) / nens) := by
  have hmap : (List.range nens).filterMap (fun j => some (row j)) = (List.range nens).map row :=
    congrFun (List.filterMap_eq_map (f := row)) _
  have hsum : ((List.range nens).map row).sum = ∑ j ∈ range nens, row j := rfl
  have hne : (List.range nens).map row ≠ [] := by simpa using hpos.ne'
  simp [nanmean, hmap, hsum, hpos.ne']

/-- The virtual dataset has the name of a dataset of the step files. -/
lemma datasetName_buildVds {dir : Directory K} {inputDir : String} {listing : List FileName}
    {dsetName : Option DatasetName} {file : StackFile K}
    (h : buildVds dir inputDir listing dsetName = .ok file) :
    ∃ dset : DatasetName, file.datasetName = dset.name := by
  obtain ⟨⟨files, dset, nd, nens⟩, -, hret⟩ := Keyed.bind_eq_ok.mp h
  obtain rfl := Except.ok.inj hret
  exact ⟨dset, rfl⟩

/-- The copy is called `ensemble`. -/
lemma datasetName_consolidateH5 {dir : Directory K} {inputDir : String}
    {listing : List FileName} {dsetName : Option DatasetName} {allowMissing : Bool}
    {file : StackFile K}
    (h : consolidateH5 dir inputDir listing dsetName allowMissing = .ok file) :
    file.datasetName = "ensemble" := by
  obtain ⟨⟨files, dset, nd, nens⟩, -, hslices⟩ := Keyed.bind_eq_ok.mp h
  obtain ⟨slices, -, hret⟩ := Keyed.bind_eq_ok.mp hslices
  obtain rfl := Except.ok.inj hret
  rfl

lemma DatasetName.name_ne_ensemble (dset : DatasetName) : dset.name ≠ "ensemble" := by
  cases dset <;> simp [name]

namespace StepFiles

variable (s : StepFiles K)

/-- A stack whose slice `t` is the matrix of time `t`, and
whose column `t` of the means is its member mean, for every time of the run. -/
structure Exposed (file : StackFile K) : Prop where
  slice : ∀ t ∈ s.times, ∃ arr, file.slices[t]? = some arr ∧
    ∀ i < s.nd, ∀ j < s.nens, arr i j = some ((s.file t).entry i j)
  mean : ∀ t ∈ s.times, ∃ col, file.ensembleMean[t]? = some col ∧
    ∀ i < s.nd, col i = some ((∑ j ∈ range s.nens, (s.file t).entry i j) / s.nens)

/-- Both builders find exactly the step files and put every time in its own slot. -/
def Stacked (inputDir : String) (listing : List FileName) (dsetName : Option DatasetName)
    (allowMissing : Bool) : Prop :=
  (∃ files, listSortedFiles inputDir listing = .ok files ∧ files.Nodup ∧
    ∀ n, n ∈ files ↔
      ∃ t ∈ s.times, n = stepName s.serialFileCreation "icesee_enkf".toList t) ∧
  ∃ vds h5, buildVds s.dir inputDir listing dsetName = .ok vds ∧
    consolidateH5 s.dir inputDir listing dsetName allowMissing = .ok h5 ∧
    s.Exposed vds ∧ s.Exposed h5

/-- Both builders put every time in its own slot, and the same data under the same
name. -/
def Finalised (inputDir : String) (listing : List FileName) (dsetName : Option DatasetName)
    (allowMissing : Bool) : Prop :=
  s.Stacked inputDir listing dsetName allowMissing ∧
  ∀ vds h5, buildVds s.dir inputDir listing dsetName = .ok vds →
    consolidateH5 s.dir inputDir listing dsetName allowMissing = .ok h5 →
    vds.datasetName = h5.datasetName ∧ vds.slices = h5.slices

variable {s}

/-! ### Finalisation -/

/-- What the two builders stack: the matrices by position, and their means. -/
def slices (s : StepFiles K) : List (ℕ → ℕ → Option K) :=
  s.times.sort.map fun t => (s.file t).values

/-- The virtual stack of the files of a run. -/
lemma buildVds_eq (inputDir : String) {listing : List FileName} {dsetName : Option DatasetName}
    (h : s.Globs listing) (hs : s.serialFileCreation = true) (hd : dsetName ≠ some .mean) :
    buildVds s.dir inputDir listing dsetName = .ok
      { datasetName := "states"
        stackType := "VDS"
        shape := (s.nd, s.nens, #s.times)
        slices := s.slices
        ensembleMean := s.slices.map fun arr i => nanmean s.nens (arr i) } := by
  have hviews : (ensFiles s.times).map (virtualSource s.dir .states) = s.slices := by
    rw [ensFiles, List.map_map]
    refine List.map_congr_left fun t ht => ?_
    funext i j
    have htimes := (mem_sort _).mp ht
    rw [Function.comp_apply, virtualSource, openFile_eq hs htimes]
    change (match (s.file t).get .states with
      | .ok f => f.values i j
      | .error _ => none) = _
    rw [get_states htimes]
  rw [buildVds, probe_eq inputDir h hs hd]
  change Except.ok _ = _
  rw [hviews, show (ensFiles s.times).length = #s.times by simp [ensFiles]]
  rfl

/-- The copy of the files of a run. -/
lemma consolidateH5_eq (inputDir : String) {listing : List FileName}
    {dsetName : Option DatasetName} (allowMissing : Bool)
    (h : s.Globs listing) (hs : s.serialFileCreation = true) (hd : dsetName ≠ some .mean) :
    consolidateH5 s.dir inputDir listing dsetName allowMissing = .ok
      { datasetName := "ensemble"
        stackType := "materialized"
        shape := (s.nd, s.nens, #s.times)
        slices := s.slices
        ensembleMean := s.slices.map fun arr i => nanmean s.nens (arr i) } := by
  have hread : ∀ t ∈ s.times, readSlice s.dir .states (s.nd, s.nens) allowMissing
      (serialName "icesee_enkf".toList t) = .ok (s.file t).values := by
    intro t ht
    rw [readSlice, openFile_eq hs ht]
    change (match (s.file t).get .states with
      | .ok f => if f.shape = (s.nd, s.nens) then Except.ok f.values else _
      | .error e => _) = _
    rw [get_states ht]
    exact if_pos (s.shape_file t ht)
  -- so the slices are those of the times, in order
  have hslices : (ensFiles s.times).mapM
      (readSlice s.dir .states (s.nd, s.nens) allowMissing) = .ok s.slices := by
    have hok : ∀ f ∈ ensFiles s.times, readSlice s.dir .states (s.nd, s.nens) allowMissing f =
        .ok (s.file (timeOf f)).values := by
      intro f hf
      obtain ⟨t, ht, rfl⟩ := List.mem_map.mp hf
      rw [timeOf_serialName]
      exact hread t ((mem_sort _).mp ht)
    rw [mapM_eq_ok hok, ensFiles, List.map_map]
    refine congrArg _ (List.map_congr_left fun t _ => ?_)
    rw [Function.comp_apply, timeOf_serialName]
  rw [consolidateH5, probe_eq inputDir h hs hd]
  change (do
    let slices ← (ensFiles s.times).mapM
      (readSlice s.dir .states (s.nd, s.nens) allowMissing)
    return _ : Except String (StackFile K)) = _
  rw [hslices]
  change Except.ok _ = _
  rw [show (ensFiles s.times).length = #s.times by simp [ensFiles]]

/-- **Slots.** The stack exposes the run exactly when the times have no gap. -/
lemma exposed_iff {file : StackFile K} (hslices : file.slices = s.slices)
    (hmean : file.ensembleMean = s.slices.map fun arr i => nanmean s.nens (arr i)) :
    s.Exposed file ↔ s.times = range #s.times := by
  refine ⟨fun h => eq_range_card_iff.mpr fun t ht => ?_, fun h => ⟨fun t ht => ?_, fun t ht => ?_⟩⟩
  · -- slice `t` is there only if `t` is one of the positions
    obtain ⟨arr, harr, -⟩ := h.slice t ht
    obtain ⟨hlt, -⟩ := List.getElem?_eq_some_iff.mp harr
    rw [hslices, slices, List.length_map, length_sort] at hlt
    exact hlt
  · refine ⟨(s.file t).values, ?_, fun i _ j _ => rfl⟩
    rw [hslices, slices, List.getElem?_map, sort_getElem? h ht]
    rfl
  · refine ⟨fun i => nanmean s.nens ((s.file t).values i), ?_, fun i _ => ?_⟩
    · rw [hmean, slices, List.getElem?_map, List.getElem?_map, sort_getElem? h ht]
      rfl
    · exact nanmean_some s.nens_pos _

/-- **Finalisation** never puts the same data under the same name: the virtual stack
has the name of the dataset of the step files, the copy is called `ensemble`. Apart
from the name, both builders find the step files and put every time in its own slot
exactly if the files were created serially, the dataset asked for is the one they
hold, and the times are `0, 1, …` without a gap. -/
theorem finalised (inputDir : String) {listing : List FileName}
    (dsetName : Option DatasetName) (allowMissing : Bool) (h : s.Globs listing) :
    ¬ s.Finalised inputDir listing dsetName allowMissing ∧
    (s.Stacked inputDir listing dsetName allowMissing ↔
      s.serialFileCreation = true ∧ dsetName ≠ some .mean ∧ s.times = range #s.times) := by
  refine ⟨?_, fun hst => ?_, ?_⟩
  · -- the name of the virtual stack is that of a dataset of the step files
    rintro ⟨⟨_, vds, h5, hv, hh, _, _⟩, hsame⟩
    obtain ⟨dset, hname⟩ := datasetName_buildVds hv
    refine dset.name_ne_ensemble ?_
    rw [← hname, (hsame vds h5 hv hh).1, datasetName_consolidateH5 hh]
  · obtain ⟨⟨files, hfiles, -⟩, vds, h5, hv, -, hvds, -⟩ := hst
    -- parallel names are not found at all
    have hs : s.serialFileCreation = true := by
      by_contra hp
      rw [listing_eq_nil h (Bool.eq_false_of_not_eq_true hp)] at hfiles
      exact absurd hfiles (by nofun)
    -- the step files have no dataset of means
    have hd : dsetName ≠ some .mean := by
      rintro rfl
      rw [buildVds, probe_mean inputDir h hs] at hv
      exact absurd hv (by nofun)
    rw [buildVds_eq inputDir h hs hd] at hv
    obtain rfl := Except.ok.inj hv
    exact ⟨hs, hd, (exposed_iff rfl rfl).mp hvds⟩
  · rintro ⟨hs, hd, hT⟩
    refine ⟨⟨ensFiles s.times, listSortedFiles_eq inputDir s.nonempty (listing_perm h hs),
      (List.nodup_map_iff fun a b => serialName_inj.mp).mpr (sort_nodup _ _), fun n => ?_⟩,
      _, _, buildVds_eq inputDir h hs hd, consolidateH5_eq inputDir allowMissing h hs hd,
      (exposed_iff rfl rfl).mpr hT, (exposed_iff rfl rfl).mpr hT⟩
    rw [hs, ensFiles, List.mem_map]
    simp only [mem_sort, stepName, if_true]
    exact exists_congr fun t => and_congr_right fun _ => eq_comm

/-- A run that has written one time, of one row and two members. -/
def oneTime (t : ℕ) : StepFiles ℚ where
  serialFileCreation := true
  nd := 1
  nens := 2
  nens_pos := Nat.two_pos
  times := {t}
  nonempty := singleton_nonempty t
  dir := (∅ : Directory ℚ).insert (serialName "icesee_enkf".toList t)
    ((H5File.blank .states 1 2).setRows 0 1 0 fun _ => 3)
  file _ := (H5File.blank .states 1 2).setRows 0 1 0 fun _ => 3
  lookup_file t' ht := by
    rw [mem_singleton.mp ht]
    exact AList.lookup_insert _
  dset_file _ _ := rfl
  shape_file _ _ := rfl
  time_of_isEnsFile n hn _ := ⟨t, by simp, List.mem_singleton.mp hn⟩

lemma globs_oneTime (t : ℕ) : (oneTime t).Globs [serialName "icesee_enkf".toList t] := by
  refine List.Perm.of_eq (List.filter_eq_self.mpr fun n hn => ?_).symm
  rw [List.mem_singleton.mp hn]
  exact globMatch_serialName t

/-- Time `0` alone is put in its slot, under two names. -/
theorem finalised_oneTime :
    ¬ (oneTime 0).Finalised "." [serialName "icesee_enkf".toList 0] (some .states) false ∧
    (oneTime 0).Stacked "." [serialName "icesee_enkf".toList 0] (some .states) false :=
  have h := (oneTime 0).finalised "." (some .states) false (globs_oneTime 0)
  ⟨h.1, h.2.mpr ⟨rfl, nofun, rfl⟩⟩

/-- Time `1` alone lands in slot `0`: there is no slice `1`. -/
theorem not_finalised_gap :
    ¬ (oneTime 1).Finalised "." [serialName "icesee_enkf".toList 1] (some .states) false := by
  rintro ⟨⟨-, vds, h5, hv, -, hvds, -⟩, -⟩
  have hd : some DatasetName.states ≠ some .mean := nofun
  have heq := buildVds_eq "." (globs_oneTime 1) rfl hd
  obtain rfl := Except.ok.inj (heq.symm.trans hv)
  have hrange : (oneTime 1).times = range 1 := (exposed_iff rfl rfl).mp hvds
  exact absurd hrange (by decide)

end StepFiles

end Icesee
