import Icesee.Analysis.RowUpdate
import Icesee.Lib.Collectives
import Icesee.Store.BedRelaxation

/-!
The two functions that write a step of the ensemble and its mean to the file.

`parallel_write_full_ensemble_from_root` has the whole ensemble on the root, and
`parallel_write_ensemble_scattered` gathers it from row chunks (`gatherChunks_eq`) and
prepares it there (`prepare`). Both write the slice and the mean and then, under
`DEnKF_flag`, add the mean of the rows to the slice once more (`StepFile.put`):
`stepWriters_iff` says when the slice is the ensemble all the same. `bedRelaxation_iff`
carries the relaxation of the bed to the file.
-/

namespace Icesee

open Tiling Collectives

variable {N : ℕ}

/-! ### The file -/

/-- The datasets `ensemble` and `ensemble_mean`, at the times up to `nt`. -/
structure StepFile (N : ℕ) where
  nd : ℕ
  nt : ℕ
  ensemble : ℕ → ℕ → Fin N → ℝ
  ensembleMean : ℕ → ℕ → ℝ

namespace StepFile

/-- A file that is created has zeros. -/
def create (N nd nt : ℕ) : StepFile N := ⟨nd, nt, fun _ _ => 0, fun _ _ => 0⟩

/-- The time step `t` as it was written. -/
def slice (file : StepFile N) (t : ℕ) : Recvbuf ℝ N := ⟨file.nd, file.ensemble t⟩

/-- The assignments to the slice and to the mean, and what `DEnKF_flag` adds. -/
noncomputable def put (file : StepFile N) (denkfFlag : Bool) (t : ℕ) (ens : ℕ → Fin N → ℝ)
    (mean : ℕ → ℝ) : StepFile N :=
  let file := { file with
    ensemble := Function.update file.ensemble t ens
    ensembleMean := Function.update file.ensembleMean t mean }
  if denkfFlag then
    { file with
      ensemble := Function.update file.ensemble t fun r e =>
        file.ensemble t r e + rowMean (file.ensemble t r) }
  else file

end StepFile

/-! ### The writers -/

/-- `parallel_write_full_ensemble_from_root`. At the first step the file is created, later it
has to be there, with the rows of the ensemble and a slice for the time. -/
noncomputable def parallelWriteFullEnsembleFromRoot (denkfFlag : Bool) (nt timestep : ℕ)
    (ensembleMean : ℕ → ℝ) (fullEnsemble : Recvbuf ℝ N) (file : Option (StepFile N)) :
    Option (StepFile N) :=
  if timestep = 0 then
    some ((StepFile.create N fullEnsemble.n nt).put denkfFlag 0 fullEnsemble.row ensembleMean)
  else do
    let f ← file
    if f.nd = fullEnsemble.n ∧ timestep ≤ f.nt then
      some (f.put denkfFlag timestep fullEnsemble.row ensembleMean)
    else none

/-- The row chunks of the ranks, gathered on the root. The buffer is not initialized, and
`behind` is what lies there. -/
def gatherChunks (behind : ℕ → ℝ) (chunks : List (List (Fin N → ℝ))) : Option (Recvbuf ℝ N) := do
  let localNd := chunks.map List.length
  let counts := localNd.map (· * N)
  let displs := (List.range localNd.length).map fun r => (counts.take r).sum
  let entries ← gatherv ((List.range (localNd.sum * N)).map behind) counts displs localNd.length
    fun rank => chunks[rank]?.map fun rows => rows.flatMap List.ofFn
  return ⟨localNd.sum, fun r e => entries.getD (r * N + e) 0⟩

/-- What `parallel_write_ensemble_scattered` reads from `model_kwargs` and `params`. -/
structure ScatteredArgs (N : ℕ) extends RelaxationArgs N where
  index : RootIndex
  nt : ℕ
  modelName : String := ""
  denkfFlag : Bool := false
  inversionFlag : Bool := false

namespace ScatteredArgs

variable (args : ScatteredArgs N)

/-- What rank 0 makes of the ensemble before it is written. -/
noncomputable def prepare (bedPrior recvbuf : Recvbuf ℝ N) : Option (Recvbuf ℝ N) :=
  let recvbuf := args.relaxBeds args.index bedPrior recvbuf
  if args.modelName.toLower = "issm" then (issmFix args.index recvbuf).toOption else some recvbuf

/-- `parallel_write_ensemble_scattered`, with the inversion as a function of what has been
prepared. -/
noncomputable def parallelWriteEnsembleScattered (behind : ℕ → ℝ) (ensembleMean : ℕ → ℝ)
    (chunks : List (List (Fin N → ℝ))) (inversion : Recvbuf ℝ N → Option (Recvbuf ℝ N))
    (file : Option (StepFile N)) : Option (StepFile N) := do
  let recvbuf ← gatherChunks behind chunks
  if args.timestep = 0 then
    some ((StepFile.create N recvbuf.n args.nt).put args.denkfFlag 0 recvbuf.row ensembleMean)
  else do
    let f ← file
    let recvbuf ← args.prepare (f.slice (args.timestep - 1)) recvbuf
    let ens ← if args.inversionFlag then inversion recvbuf else some recvbuf
    if f.nd = ens.n ∧ args.timestep ≤ f.nt then
      some (f.put args.denkfFlag args.timestep ens.row fun r => rowMean (ens.row r))
    else none

end ScatteredArgs

/-! ### Gathering -/

/-- The entries of rows one after the other. -/
lemma getD_flatMap_ofFn (rows : List (Fin N → ℝ)) (r : ℕ) (e : Fin N) :
    (rows.flatMap List.ofFn).getD (r * N + e) 0 = rows.getD r 0 e := by
  induction rows generalizing r with
  | nil => rfl
  | cons row rows ih =>
      rw [List.flatMap_cons]
      cases r with
      | zero =>
          rw [Nat.zero_mul, Nat.zero_add, List.getD_append _ _ _ _ (by simp),
            List.getD_eq_getElem _ _ (by simp), List.getElem_ofFn, List.getD_cons_zero]
      | succ r =>
          rw [List.getD_append_right _ _ _ _ (by simp [Nat.succ_mul]; omega), List.length_ofFn,
            List.getD_cons_succ, ← ih]
          congr 1
          rw [Nat.succ_mul]
          omega

/-- **The chunks** are gathered in rank order. -/
lemma gatherChunks_eq (behind : ℕ → ℝ) (chunks : List (List (Fin N → ℝ))) :
    gatherChunks behind chunks =
      some ⟨(chunks.map List.length).sum, fun r => chunks.flatten.getD r 0⟩ := by
  set localNd := chunks.map List.length with hlocal
  have hlen : localNd.length = chunks.length := List.length_map _
  -- what every rank sends is its chunk, entry by entry
  have hpart : ∀ rank < localNd.length, (chunks[rank]?.map fun rows => rows.flatMap List.ofFn) =
      some ((chunks.getD rank []).flatMap List.ofFn) := by
    intro rank hr
    rw [hlen] at hr
    rw [List.getElem?_eq_getElem hr, List.getD_eq_getElem _ _ hr]
    rfl
  have hentries : ∀ rows : List (Fin N → ℝ),
      (rows.flatMap List.ofFn).length = rows.length * N := by
    intro rows
    simp [List.length_flatMap]
  have hsize : ∀ rank < localNd.length, ((chunks.getD rank []).flatMap List.ofFn).length =
      ((Cuts.ofSizes localNd).scale N).size rank := by
    intro rank hr
    rw [hentries, Cuts.size_scale, Cuts.size_ofSizes, hlocal]
    rw [hlen] at hr
    rw [List.getD_eq_getElem _ _ hr, List.getD_eq_getElem _ _ (by simpa using hr),
      List.getElem_map]
  -- the chunks behind each other are all rows
  have hflat : (List.range localNd.length).flatMap (fun rank =>
      (chunks.getD rank []).flatMap List.ofFn) = chunks.flatten.flatMap List.ofFn := by
    have hrange : (List.range chunks.length).map (fun rank => chunks.getD rank []) = chunks :=
      List.ext_getElem (by simp) fun rank _ hr => by
        rw [List.getElem_map, List.getElem_range, List.getD_eq_getElem _ _ hr]
    calc _ = ((List.range localNd.length).map fun rank => chunks.getD rank []).flatMap
          fun rows => rows.flatMap List.ofFn := (List.flatMap_map _ _ _).symm
      _ = (chunks.flatMap id).flatMap List.ofFn := by rw [hlen, hrange, List.flatMap_assoc]; rfl
      _ = chunks.flatten.flatMap List.ofFn := by rw [List.flatMap_id]
  rw [gatherChunks, ← hlocal, (tile_ofSizes localNd N).gatherv_eq (by simp) hpart hsize, hflat]
  simp only [getD_flatMap_ofFn, Option.pure_def, Option.bind_eq_bind, Option.bind_some]

/-! ### One write -/

namespace StepFile

variable (file : StepFile N) (denkfFlag : Bool) (t : ℕ) (ens : ℕ → Fin N → ℝ) (mean : ℕ → ℝ)

@[simp] lemma put_nd : (file.put denkfFlag t ens mean).nd = file.nd := by
  cases denkfFlag <;> rfl

@[simp] lemma put_nt : (file.put denkfFlag t ens mean).nt = file.nt := by
  cases denkfFlag <;> rfl

lemma put_ensembleMean : (file.put denkfFlag t ens mean).ensembleMean =
    Function.update file.ensembleMean t mean := by
  cases denkfFlag <;> rfl

/-- The other slices stay. -/
lemma put_ensemble_of_ne {s : ℕ} (hs : s ≠ t) :
    (file.put denkfFlag t ens mean).ensemble s = file.ensemble s := by
  cases denkfFlag <;> simp [put, Function.update_of_ne hs]

/-- The slice has the ensemble and, under the flag, the mean of its row on top. -/
lemma put_ensemble_self (r : ℕ) (e : Fin N) : (file.put denkfFlag t ens mean).ensemble t r e =
    ens r e + if denkfFlag then rowMean (ens r) else 0 := by
  cases denkfFlag <;> simp [put]

end StepFile

/-- What a write of the ensemble `ens`, given the means `mean`, should leave. -/
structure FaithfulStep (t nd : ℕ) (ens : ℕ → Fin N → ℝ) (mean : ℕ → ℝ) (old : Option (StepFile N))
    (file : StepFile N) : Prop where
  slice : ∀ r < nd, file.ensemble t r = ens r
  mean : (∀ r < nd, mean r = rowMean (ens r)) →
    ∀ r < nd, rowMean (file.ensemble t r) = file.ensembleMean t r
  others : t ≠ 0 → ∀ f, old = some f → ∀ s, s ≠ t →
    file.ensemble s = f.ensemble s ∧ file.ensembleMean s = f.ensembleMean s

/-- There is a file to write to, after the first step. -/
def FileFits (t nd : ℕ) (file : Option (StepFile N)) : Prop :=
  t = 0 ∨ ∃ f, file = some f ∧ f.nd = nd ∧ t ≤ f.nt

/-- Nothing is added to the slice, or only zeros. -/
def NothingAdded (denkfFlag : Bool) (nd : ℕ) (ens : ℕ → Fin N → ℝ) : Prop :=
  denkfFlag = false ∨ ∀ r < nd, rowMean (ens r) = 0

/-- The assignments are faithful if nothing is added to the slice. -/
lemma faithfulStep_put_iff {N : ℕ+} {t nd : ℕ} {ens : ℕ → Fin N → ℝ} {mean mean' : ℕ → ℝ}
    {old : Option (StepFile N)} {f : StepFile N} (denkfFlag : Bool)
    (hold : t ≠ 0 → old = some f)
    (hmean : (∀ r < nd, mean r = rowMean (ens r)) → ∀ r < nd, mean' r = rowMean (ens r)) :
    FaithfulStep t nd ens mean old (f.put denkfFlag t ens mean') ↔
      NothingAdded denkfFlag nd ens := by
  constructor
  · intro h
    cases denkfFlag with
    | false => exact .inl rfl
    | true =>
        -- the entry of the first member already shows what was added
        refine .inr fun r hr => ?_
        have hentry := congrFun (h.slice r hr) ⟨0, N.pos⟩
        rw [StepFile.put_ensemble_self, if_pos rfl] at hentry
        exact add_eq_left.mp hentry
  · intro h
    have hslice : ∀ r < nd, (f.put denkfFlag t ens mean').ensemble t r = ens r := by
      intro r hr
      funext e
      rw [StepFile.put_ensemble_self]
      rcases h with rfl | hzero
      · exact add_zero _
      · rw [hzero r hr, ite_self, add_zero]
    refine ⟨hslice, fun htrue r hr => ?_, fun ht g hg s hs => ?_⟩
    · rw [hslice r hr, StepFile.put_ensembleMean, Function.update_self, hmean htrue r hr]
    · obtain rfl := Option.some.inj ((hold ht).symm.trans hg)
      rw [StepFile.put_ensembleMean, Function.update_of_ne hs]
      exact ⟨StepFile.put_ensemble_of_ne _ _ _ _ _ hs, rfl⟩

/-- The arguments without bed, ISSM or inversion processing. -/
structure PlainArgs (N : ℕ) extends ScatteredArgs N where
  no_bed : ∀ vec ∈ index.vecInputs.names, vec.toLower ∉ bedNames
  not_issm : modelName.toLower ≠ "issm"
  no_inversion : inversionFlag = false

/-- Without a bed there is nothing to relax. -/
lemma ScatteredArgs.prepare_of_no_bed (args : ScatteredArgs N)
    (hbed : ∀ vec ∈ args.index.vecInputs.names, vec.toLower ∉ bedNames)
    (hissm : args.modelName.toLower ≠ "issm") (bedPrior recvbuf : Recvbuf ℝ N) :
    args.prepare bedPrior recvbuf = some recvbuf := by
  have hrelax : args.relaxBeds args.index bedPrior recvbuf = recvbuf := by
    refine (List.foldl_ext _ (fun A _ => A) _ fun A var hvar => ?_).trans (List.foldl_fixed _)
    exact if_neg (hbed var.1 (List.fst_mem_of_mem_zipIdx hvar))
  rw [prepare, hrelax]
  exact if_neg hissm

lemma PlainArgs.prepare_eq (args : PlainArgs N) (bedPrior recvbuf : Recvbuf ℝ N) :
    args.prepare bedPrior recvbuf = some recvbuf :=
  args.prepare_of_no_bed args.no_bed args.not_issm bedPrior recvbuf

variable {N : ℕ+}

/-- A write that needs the file. -/
lemma faithful_write_iff {t nd : ℕ} {ens : ℕ → Fin N → ℝ} {mean mean' : ℕ → ℝ}
    {file : Option (StepFile N)} (denkfFlag : Bool) (ht : t ≠ 0)
    (hmean : (∀ r < nd, mean r = rowMean (ens r)) → ∀ r < nd, mean' r = rowMean (ens r)) :
    (∃ file', (file.bind fun f =>
        if f.nd = nd ∧ t ≤ f.nt then some (f.put denkfFlag t ens mean') else none) = some file' ∧
        FaithfulStep t nd ens mean file file') ↔
      FileFits t nd file ∧ NothingAdded denkfFlag nd ens := by
  constructor
  · rintro ⟨file', hwrite, hfaithful⟩
    obtain ⟨f, hf, hwrite⟩ := Option.bind_eq_some_iff.mp hwrite
    split_ifs at hwrite with hfits
    obtain rfl := Option.some.inj hwrite
    exact ⟨.inr ⟨f, hf, hfits⟩, (faithfulStep_put_iff denkfFlag (fun _ => hf) hmean).mp hfaithful⟩
  · rintro ⟨hfits, hadded⟩
    obtain ⟨f, hf, hfits⟩ := hfits.resolve_left ht
    refine ⟨f.put denkfFlag t ens mean', ?_,
      (faithfulStep_put_iff denkfFlag (fun _ => hf) hmean).mpr hadded⟩
    rw [hf, Option.bind_some, if_pos hfits]

/-- A write that creates the file. -/
lemma faithful_create_iff {nd nt : ℕ} {ens : ℕ → Fin N → ℝ} {mean : ℕ → ℝ}
    {file : Option (StepFile N)} (denkfFlag : Bool) :
    (∃ file', some ((StepFile.create N nd nt).put denkfFlag 0 ens mean) = some file' ∧
        FaithfulStep 0 nd ens mean file file') ↔
      FileFits 0 nd file ∧ NothingAdded denkfFlag nd ens := by
  rw [and_iff_right (.inl rfl)]
  simp only [Option.some_inj, exists_eq_left']
  exact faithfulStep_put_iff denkfFlag (fun h => absurd rfl h) id

/-- **The step writers.** What they write is faithful exactly if there is a file for it and
nothing is added to the slice. -/
theorem stepWriters_iff :
    (∀ (denkfFlag : Bool) (nt t : ℕ) (mean : ℕ → ℝ) (full : Recvbuf ℝ N)
      (file : Option (StepFile N)),
      (∃ file', parallelWriteFullEnsembleFromRoot denkfFlag nt t mean full file = some file' ∧
        FaithfulStep t full.n full.row mean file file') ↔
      FileFits t full.n file ∧ NothingAdded denkfFlag full.n full.row) ∧
    ∀ (args : PlainArgs N) (behind mean : ℕ → ℝ) (chunks : List (List (Fin N → ℝ)))
      (inversion : Recvbuf ℝ N → Option (Recvbuf ℝ N)) (file : Option (StepFile N)),
      (∃ file', args.parallelWriteEnsembleScattered behind mean chunks inversion file =
          some file' ∧
        FaithfulStep args.timestep (chunks.map List.length).sum (fun r => chunks.flatten.getD r 0)
          mean file file') ↔
      FileFits args.timestep (chunks.map List.length).sum file ∧
        NothingAdded args.denkfFlag (chunks.map List.length).sum
          (fun r => chunks.flatten.getD r 0) := by
  refine ⟨fun denkfFlag nt t mean full file => ?_, fun args behind mean chunks inversion file => ?_⟩
  · rw [parallelWriteFullEnsembleFromRoot]
    rcases eq_or_ne t 0 with rfl | ht
    · rw [if_pos rfl]
      exact faithful_create_iff denkfFlag
    · rw [if_neg ht]
      exact faithful_write_iff denkfFlag ht id
  · rw [ScatteredArgs.parallelWriteEnsembleScattered, gatherChunks_eq]
    simp only [args.prepare_eq, args.no_inversion, Option.bind_eq_bind, Option.bind_some]
    rcases eq_or_ne args.timestep 0 with ht | ht
    · rw [if_pos ht, ht]
      exact faithful_create_iff args.denkfFlag
    · rw [if_neg ht]
      exact faithful_write_iff args.denkfFlag ht fun _ _ _ => rfl

/-- With the flag on, an ensemble of ones is written as twos. -/
theorem stepWriters_ones : ¬∃ file', parallelWriteFullEnsembleFromRoot true 1 0 (fun _ => 1)
      (⟨1, fun _ _ => 1⟩ : Recvbuf ℝ (1 : ℕ+)) none = some file' ∧
    FaithfulStep 0 1 (fun _ (_ : Fin (1 : ℕ+)) => (1 : ℝ)) (fun _ => 1) none file' := by
  rw [parallelWriteFullEnsembleFromRoot, if_pos rfl, faithful_create_iff]
  rintro ⟨-, hflag | hzero⟩
  · cases hflag
  · have hone : rowMean (fun _ : Fin 1 => (1 : ℝ)) = 0 := hzero 0 Nat.zero_lt_one
    simp [rowMean] at hone

/-! ### A run of writes -/

/-- The steps `0` to `k` by the root writer, under one flag. -/
noncomputable def writeRun (denkfFlag : Bool) (nt : ℕ) (ens : ℕ → Recvbuf ℝ N) (mean : ℕ → ℕ → ℝ) :
    ℕ → Option (StepFile N)
  | 0 => parallelWriteFullEnsembleFromRoot denkfFlag nt 0 (mean 0) (ens 0) none
  | k + 1 => parallelWriteFullEnsembleFromRoot denkfFlag nt (k + 1) (mean (k + 1)) (ens (k + 1))
      (writeRun denkfFlag nt ens mean k)

/-- **After a run** every slice is there, each with the mean of its row on top under the flag,
and every mean is the one that was passed. -/
theorem writeRun_eq (denkfFlag : Bool) {nd nt : ℕ} {ens : ℕ → Recvbuf ℝ N} (mean : ℕ → ℕ → ℝ)
    (hnd : ∀ t, (ens t).n = nd) {k : ℕ} (hk : k ≤ nt) :
    ∃ file, writeRun denkfFlag nt ens mean k = some file ∧ file.nd = nd ∧ file.nt = nt ∧
      ∀ t ≤ k, file.ensembleMean t = mean t ∧ ∀ r e, file.ensemble t r e =
        (ens t).row r e + if denkfFlag then rowMean ((ens t).row r) else 0 := by
  -- step `0` makes the file, the later steps write into it
  induction k with
  | zero =>
      refine ⟨(StepFile.create N (ens 0).n nt).put denkfFlag 0 (ens 0).row (mean 0), ?_, ?_,
        StepFile.put_nt _ _ _ _ _, fun t ht => ?_⟩
      · rw [writeRun, parallelWriteFullEnsembleFromRoot, if_pos rfl]
      · exact (StepFile.put_nd _ _ _ _ _).trans (hnd 0)
      · obtain rfl := Nat.le_zero.mp ht
        refine ⟨?_, fun r e => StepFile.put_ensemble_self _ _ _ _ _ r e⟩
        rw [StepFile.put_ensembleMean, Function.update_self]
  | succ k ih =>
      obtain ⟨f, hf, hfnd, hfnt, hsteps⟩ := ih (by omega)
      refine ⟨f.put denkfFlag (k + 1) (ens (k + 1)).row (mean (k + 1)), ?_,
        (StepFile.put_nd _ _ _ _ _).trans hfnd, (StepFile.put_nt _ _ _ _ _).trans hfnt,
        fun t ht => ?_⟩
      · rw [writeRun, parallelWriteFullEnsembleFromRoot, if_neg (Nat.succ_ne_zero k), hf]
        exact if_pos ⟨hfnd.trans (hnd (k + 1)).symm, hk.trans_eq hfnt.symm⟩
      · rw [StepFile.put_ensembleMean]
        rcases eq_or_ne t (k + 1) with rfl | hne
        · refine ⟨Function.update_self _ _ _, fun r e => StepFile.put_ensemble_self _ _ _ _ _ r e⟩
        · rw [Function.update_of_ne hne, StepFile.put_ensemble_of_ne _ _ _ _ _ hne]
          exact hsteps t (by omega)

/-! ### The bed in the file -/

/-- No bed is named as a thickness or a surface. -/
lemma bedNames_notMem : ∀ key ∈ bedNames, key ∉ thicknessNames ∧ key ∉ surfaceNames := by decide

/-- The fix leaves the beds as they are. -/
lemma issmFix_bed {ix : RootIndex} {A fixed : Recvbuf ℝ N} (h : issmFix ix A = .ok fixed) {i : ℕ}
    (hi : RelaxationArgs.IsBed ix i) {j : ℕ} (hj : j < ix.nodes) :
    fixed.row (ix.start i + j) = A.row (ix.start i + j) := by
  have hbed : ix.bedVar ≠ none := RootIndex.find_ne_none hi.1 hi.2
  by_cases hall : ix.thicknessVar ≠ none ∧ ix.surfaceVar ≠ none
  · obtain ⟨t, ht⟩ := Option.ne_none_iff_exists'.mp hall.1
    obtain ⟨s, hs⟩ := Option.ne_none_iff_exists'.mp hall.2
    obtain ⟨b, hb⟩ := Option.ne_none_iff_exists'.mp hbed
    obtain ⟨_, hfixed, -, -, hothers⟩ := issmFix_rows ht hs hb A
    obtain rfl := Except.ok.inj (h.symm.trans hfixed)
    refine hothers i hi.1 ?_ ?_ j (by rwa [ix.mesh i (List.mem_append_right _ hi.2)])
    · rintro rfl
      exact absurd (RootIndex.find_eq_some ht).2 (bedNames_notMem _ hi.2).1
    · rintro rfl
      exact absurd (RootIndex.find_eq_some hs).2 (bedNames_notMem _ hi.2).2
  · have hmissing : ix.thicknessVar = none ∨ ix.surfaceVar = none ∨ ix.bedVar = none := by
      rw [not_and_or, not_not, not_not] at hall
      exact hall.imp_right .inl
    rw [issmFix_error (pos_of_issmFix h hmissing) hmissing (.inr (.inr hbed))] at h
    cases h

namespace ScatteredArgs

variable {args : ScatteredArgs N}

/-- The prepared ensemble has the relaxed beds. -/
lemma prepare_bed {bedPrior recvbuf A : Recvbuf ℝ N} (h : args.prepare bedPrior recvbuf = some A)
    {i : ℕ} (hi : RelaxationArgs.IsBed args.index i) {j : ℕ} (hj : j < args.index.nodes) :
    A.row (args.index.start i + j) =
      (args.relaxBeds args.index bedPrior recvbuf).row (args.index.start i + j) := by
  rw [prepare] at h
  split_ifs at h
  · have hfix : issmFix args.index (args.relaxBeds args.index bedPrior recvbuf) = .ok A := by
      cases hcase : issmFix args.index (args.relaxBeds args.index bedPrior recvbuf) with
      | error e => rw [hcase] at h; cases h
      | ok B => rw [hcase] at h; exact congrArg Except.ok (Option.some.inj h)
    exact issmFix_bed hfix hi hj
  · rw [← Option.some.inj h]

/-- Without fix, flag and inversion, the relaxed ensemble is written. -/
lemma write_relaxed {N : ℕ} {args : ScatteredArgs N} {f : StepFile N} (behind mean : ℕ → ℝ)
    (chunks : List (List (Fin N → ℝ))) (inversion : Recvbuf ℝ N → Option (Recvbuf ℝ N))
    (ht : args.timestep ≠ 0)
    (hmodel : args.modelName.toLower ≠ "issm") (hflag : args.denkfFlag = false)
    (hinv : args.inversionFlag = false) (hnd : f.nd = (chunks.map List.length).sum)
    (hnt : args.timestep ≤ f.nt) : ∃ file,
    args.parallelWriteEnsembleScattered behind mean chunks inversion (some f) = some file ∧
      file.slice args.timestep = args.relaxBeds args.index (f.slice (args.timestep - 1))
        ⟨(chunks.map List.length).sum, fun r => chunks.flatten.getD r 0⟩ := by
  have hprep : ∀ prior recvbuf : Recvbuf ℝ N,
      args.prepare prior recvbuf = some (args.relaxBeds args.index prior recvbuf) :=
    fun _ _ => if_neg hmodel
  rw [parallelWriteEnsembleScattered, gatherChunks_eq]
  simp only [Option.bind_eq_bind, Option.bind_some, if_neg ht, hprep, hinv, hflag,
    Bool.false_eq_true, if_false]
  generalize hA : args.relaxBeds args.index (f.slice (args.timestep - 1))
    (⟨(chunks.map List.length).sum, fun r => chunks.flatten.getD r 0⟩ : Recvbuf ℝ N) = A
  have hn : f.nd = A.n := by rw [← hA, RelaxationArgs.relaxBeds_n, hnd]
  refine ⟨f.put false args.timestep A.row fun r => rowMean (A.row r), if_pos ⟨hn, hnt⟩, ?_⟩
  rw [StepFile.slice, StepFile.put_nd, hn]
  congr 1
  funext r e
  rw [StepFile.put_ensemble_self]
  exact add_zero _

end ScatteredArgs

/-- A call of the scattered writer at a snapshot, for a bed of `vec_inputs`. -/
structure BedSnapshot (N : ℕ) extends ScatteredArgs N where
  bed : ℕ
  isBed : RelaxationArgs.IsBed index bed
  doBedSnap : toRelaxationArgs.DoBedSnap
  timestep_ne : timestep ≠ 0
  no_denkf : denkfFlag = false
  no_inversion : inversionFlag = false

/-- **The bed relaxation.** The bed that is written at a snapshot is between the bed before and
the analysis exactly if on every node these agree, or rank `0` has the node and the factor is
not negative. -/
theorem bedRelaxation_iff (args : BedSnapshot N) (behind mean : ℕ → ℝ)
    (chunks : List (List (Fin N → ℝ))) (inversion : Recvbuf ℝ N → Option (Recvbuf ℝ N))
    (f file : StepFile N) (hwrite : args.parallelWriteEnsembleScattered behind mean chunks inversion
      (some f) = some file) :
    RelaxationArgs.Between args.index (f.slice (args.timestep - 1))
        ⟨(chunks.map List.length).sum, fun r => chunks.flatten.getD r 0⟩
        (file.slice args.timestep) args.bed ↔
      ∀ j < args.index.nodes, (j < args.index.count ∧ args.Nonneg args.bed) ∨ ∀ e,
        chunks.flatten.getD (args.index.start args.bed + j) 0 e =
          f.ensemble (args.timestep - 1) (args.index.start args.bed + j) e := by
  rw [ScatteredArgs.parallelWriteEnsembleScattered, gatherChunks_eq] at hwrite
  simp only [Option.bind_eq_bind, Option.bind_some, if_neg args.timestep_ne, args.no_inversion,
    args.no_denkf] at hwrite
  obtain ⟨A, hprep, hput⟩ := Option.bind_eq_some_iff.mp hwrite
  -- nothing is added behind the preparation
  have hrow : ∀ r, (file.slice args.timestep).row r = A.row r := by
    intro r
    simp only [Bool.false_eq_true, if_false] at hput
    split_ifs at hput
    obtain rfl := Option.some.inj hput
    funext e
    change (f.put false args.timestep A.row fun r => rowMean (A.row r)).ensemble args.timestep r e =
      A.row r e
    rw [StepFile.put_ensemble_self]
    exact add_zero _
  rw [RelaxationArgs.between_congr fun j hj => (hrow _).trans
    (ScatteredArgs.prepare_bed hprep args.isBed hj),
    RelaxationArgs.between_iff args.doBedSnap _ _ args.isBed]
  rfl

/-! ### A bed of one node -/

/-- The bed `1` at the snapshot of the first step, after a bed `0`; `dt` is `1`, and there is no
model error. -/
noncomputable def oneBed {N : ℕ} (X5 : Option (Matrix (Fin N) (Fin N) ℝ)) : BedSnapshot N where
  timestep := 1
  dt := 1
  sigQ := []
  rho := 0
  X5 := X5
  bedObsSnapshot := [1]
  index := oneNode ⟨["bed"], by decide⟩
  nt := 1
  bed := 0
  isBed := by decide +kernel
  doBedSnap := ⟨1, List.mem_singleton_self _, by norm_num⟩
  timestep_ne := Nat.one_ne_zero
  no_denkf := rfl
  no_inversion := rfl

/-- The writer goes through, and writes the relaxed bed. -/
lemma write_oneBed {N : ℕ} (X5 : Option (Matrix (Fin N) (Fin N) ℝ)) : ∃ file,
    (oneBed X5).parallelWriteEnsembleScattered (fun _ => 0) (fun _ => 0) [[fun _ => 1]]
        (fun _ => none) (some (StepFile.create N 1 1)) = some file ∧
      file.slice 1 = (oneBed X5).relaxBeds (oneBed X5).index ((StepFile.create N 1 1).slice 0)
        ⟨1, fun r => [fun _ => 1].getD r 0⟩ :=
  ScatteredArgs.write_relaxed _ _ _ _ Nat.one_ne_zero
    (show "".toLower ≠ "issm" by decide +kernel) rfl rfl rfl le_rfl

lemma uncapped_oneBed {N : ℕ} (X5 : Option (Matrix (Fin N) (Fin N) ℝ)) :
    (oneBed X5).uncapped 0 = 1 + (oneBed X5).betaT := by
  have hdt : (oneBed X5).dt = 1 := rfl
  have hrho : (oneBed X5).rho = 0 := rfl
  rw [RelaxationArgs.uncapped, RelaxationArgs.noiseTerm, hdt, hrho, mul_one, mul_zero, add_zero]

/-- Without an `X5` the bed stays between. -/
theorem bedRelaxation_iff_plain : ∃ file : StepFile 1, RelaxationArgs.Between
    (oneBed (N := 1) none).index ((StepFile.create 1 1 1).slice 0)
    ⟨1, fun r => [fun _ => 1].getD r 0⟩ (file.slice 1) 0 := by
  obtain ⟨file, hwrite, -⟩ := write_oneBed (N := 1) none
  refine ⟨file, (bedRelaxation_iff (N := 1) (oneBed none) _ _ _ _ _ _ hwrite).mpr fun j hj =>
    .inl ⟨hj, ?_⟩⟩
  have hbeta : (oneBed (N := 1) none).betaT = (15 : ℕ) / (10000 : ℕ) := rfl
  change (oneBed (N := 1) none).Nonneg 0
  rw [RelaxationArgs.Nonneg, uncapped_oneBed, hbeta, if_pos (by norm_num)]
  norm_num

/-- A matrix with unit column sums and with `-250250` as the product of its entries. -/
noncomputable def negativeX5 : Matrix (Fin 2) (Fin 2) ℝ :=
  Matrix.of fun i j =>
    if (j : ℕ) = 0 then if (i : ℕ) = 0 then (1001 : ℕ) else -(1000 : ℕ) else 1 / (2 : ℕ)

lemma betaT_negativeX5 : (oneBed (some negativeX5)).betaT = (15 : ℕ) / (10000 : ℕ) * -250250 := by
  rw [RelaxationArgs.betaT_some _ rfl, Fin.prod_univ_two, Fin.prod_univ_two, Fin.prod_univ_two]
  norm_num [oneBed, negativeX5]

/-- With it the bed moves away from the analysis, by more than hundred times the distance. -/
theorem bedRelaxation_negative : (∀ j, ∑ i, negativeX5 i j = 1) ∧
    ∃ file : StepFile 2, (oneBed (some negativeX5)).parallelWriteEnsembleScattered
        (fun _ => 0) (fun _ => 0) [[fun _ => 1]] (fun _ => none)
        (some (StepFile.create 2 1 1)) = some file ∧
      ¬RelaxationArgs.Between (oneBed (some negativeX5)).index
        ((StepFile.create 2 1 1).slice 0) ⟨1, fun r => [fun _ => 1].getD r 0⟩
        (file.slice 1) (oneBed (some negativeX5)).bed := by
  obtain ⟨file, hwrite, hslice⟩ := write_oneBed (N := 2) (some negativeX5)
  refine ⟨fun j => ?_, file, hwrite, ?_⟩
  · rw [Fin.sum_univ_two]
    change (if (j : ℕ) = 0 then (1001 : ℝ) else 1 / 2) +
      (if (j : ℕ) = 0 then (-1000 : ℝ) else 1 / 2) = 1
    split_ifs <;> norm_num
  · rw [hslice, RelaxationArgs.between_iff (oneBed _).doBedSnap _ _ (oneBed _).isBed]
    intro h
    rcases h 0 Nat.zero_lt_one with ⟨-, hneg⟩ | hsame
    · change (oneBed (some negativeX5)).Nonneg 0 at hneg
      rw [RelaxationArgs.Nonneg, uncapped_oneBed, betaT_negativeX5, if_pos (by norm_num)] at hneg
      norm_num at hneg
    · have hone : (1 : ℝ) = 0 := hsame ⟨0, by decide⟩
      exact one_ne_zero hone

end Icesee
