import Icesee.Lib.Tiling
import Icesee.Store.Files

/-!
`EnKF_fully_parallel_IO`: the batched store of the full-parallel run.

The ranks of a communicator call the handler in lockstep (`_create_batch_*` is
collective and ends in a barrier), so one `Handler` stands for all of them: the
directory, the open datasets and `current_batch_start`.

* `partition1d` cuts the rows among the ranks; `partitionCuts` is the tiling.
* `ensureBatch` switches to the batch of a time, by `createBatchSerial` or
  `createBatchParallel`, which open every file of the batch with mode `'w'`.
* `readRows` and `writeRows` are one rank's window of a column; `readColumn` and
  `writeColumn` are all ranks together.

Everything later is derived from four facts: `ensureBatch_isOpen` and
`cell_ensureBatch` (what a switch does), `writeColumn_spec` and `readColumn_spec`.
-/

namespace Icesee

variable {β : Type}

/-! ### Row windows -/

/-- `partition_1d(n, size, rank)`: the half-open window of a rank. -/
def partition1d (n size rank : ℕ) : ℕ × ℕ :=
  let q := n / size
  let r := n % size
  let start := rank * q + min rank r
  (start, start + q + if rank < r then 1 else 0)

lemma partition1d_snd (n size rank : ℕ) :
    (partition1d n size rank).2 = (partition1d n size (rank + 1)).1 := by
  simp only [partition1d, Nat.succ_mul]
  generalize rank * (n / size) = a
  split <;> omega

/-- The first `n % size` windows have one row more than the others. -/
lemma partition1d_length (n size rank : ℕ) :
    (partition1d n size rank).2 - (partition1d n size rank).1 =
      n / size + if rank < n % size then 1 else 0 := by
  simp only [partition1d]
  rw [Nat.add_assoc, Nat.add_sub_cancel_left]

/-- The windows of `partition_1d` tile the rows. -/
def partitionCuts (n size : ℕ) (hs : 0 < size) : Tiling.Cuts n size where
  cut rank := (partition1d n size rank).1
  cut_zero := by simp [partition1d]
  cut_last := by
    have hr : n % size < size := Nat.mod_lt n hs
    simp only [partition1d, Nat.min_eq_right hr.le]
    exact Nat.div_add_mod n size
  mono rank _ := by
    rw [← partition1d_snd, partition1d, Nat.add_assoc]
    exact Nat.le_add_right _ _

lemma size_partitionCuts {n size : ℕ} (hs : 0 < size) (rank : ℕ) :
    (partitionCuts n size hs).size rank = n / size + if rank < n % size then 1 else 0 := by
  rw [← partition1d_length n size rank, partition1d_snd]
  rfl

/-! ### Configuration and state -/

/-- The arguments of `EnKF_fully_parallel_IO.__init__`, and the sizes of the two
communicators it is given. -/
structure IOConfig where
  filePrefix : FileName
  nd : ℕ
  nens : ℕ
  nt : ℕ
  batchSize : ℕ
  worldSize : ℕ
  subcommSize : ℕ
  serialFileCreation : Bool
  nd_pos : 0 < nd
  nens_pos : 0 < nens
  nt_pos : 0 < nt
  batchSize_pos : 0 < batchSize
  worldSize_pos : 0 < worldSize
  subcommSize_pos : 0 < subcommSize

/-- One row and one member on one rank, over `nt` times with a batch each. -/
def IOConfig.single (nt : ℕ) (h : 0 < nt) : IOConfig where
  filePrefix := "icesee_enkf".toList
  nd := 1
  nens := 1
  nt := nt
  batchSize := 1
  worldSize := 1
  subcommSize := 1
  serialFileCreation := true
  nd_pos := Nat.one_pos
  nens_pos := Nat.one_pos
  nt_pos := h
  batchSize_pos := Nat.one_pos
  worldSize_pos := Nat.one_pos
  subcommSize_pos := Nat.one_pos

/-- What lives on after a call: the directory, the names behind `self.datasets`
and `self.current_batch_start`. -/
structure Handler (β : Type) where
  dir : Directory β
  datasets : List FileName
  currentBatchStart : ℤ

/-- The two row partitions of the handler: `nd_start`/`nd_end` over `self.comm`, and
`nd_start_world`/`nd_end_world` over the world. -/
inductive Rows where
  | comm
  | world
  deriving DecidableEq, Repr

namespace IOConfig

variable (cfg : IOConfig)

/-- `self.size`. -/
def commSize : ℕ := if cfg.worldSize ≤ cfg.nens then cfg.subcommSize else cfg.worldSize

/-- The number of ranks that share the rows. -/
def ranks : Rows → ℕ
  | .comm => cfg.commSize
  | .world => cfg.worldSize

lemma ranks_pos (rows : Rows) : 0 < cfg.ranks rows := by
  cases rows
  · simp only [ranks, commSize]
    split
    · exact cfg.subcommSize_pos
    · exact cfg.worldSize_pos
  · exact cfg.worldSize_pos

/-- The row windows of the ranks. -/
def cuts (rows : Rows) : Tiling.Cuts cfg.nd (cfg.ranks rows) :=
  partitionCuts cfg.nd (cfg.ranks rows) (cfg.ranks_pos rows)

/-- The file of time `t`. -/
def stepFile (t : ℕ) : FileName := stepName cfg.serialFileCreation cfg.filePrefix t

/-- The first time of the batch of `t`. -/
def batchStart (t : ℕ) : ℕ := t / cfg.batchSize * cfg.batchSize

/-- The slice that step `k` writes: `k + 1 if k < nt - 1 else k`. -/
def targetSlice (k : ℕ) : ℕ := if k < cfg.nt - 1 then k + 1 else k

lemma targetSlice_lt {k : ℕ} (hk : k < cfg.nt) : cfg.targetSlice k < cfg.nt := by
  rw [targetSlice]
  split <;> omega

@[simp] lemma stepFile_inj {s t : ℕ} : cfg.stepFile s = cfg.stepFile t ↔ s = t := stepName_inj

lemma batchStart_le (t : ℕ) : cfg.batchStart t ≤ t := Nat.div_mul_le_self t _

lemma lt_batchStart_add (t : ℕ) : t < cfg.batchStart t + cfg.batchSize :=
  Nat.lt_div_mul_add cfg.batchSize_pos

/-- The batch of a time is determined by where it starts. -/
lemma batchStart_eq_iff {s t : ℕ} :
    cfg.batchStart s = cfg.batchStart t ↔ s / cfg.batchSize = t / cfg.batchSize :=
  Nat.mul_left_inj cfg.batchSize_pos.ne'

end IOConfig

/-! ### Batches -/

namespace Handler

variable (cfg : IOConfig)

/-- `self.datasets[i]`, where Python counts a negative index from the end. -/
def dataset (h : Handler β) (i : ℤ) : Option FileName :=
  if 0 ≤ i then h.datasets[i.toNat]?
  else if -i ≤ h.datasets.length then h.datasets[(h.datasets.length + i).toNat]? else none

/-- The loop of both `_create_batch_*`: every file is opened with mode `'w'`. -/
def createFiles (name : ℕ → FileName) (tStart nfiles : ℕ) (h : Handler β) : Handler β :=
  { dir := (List.range' tStart nfiles).foldl
      (fun d t => d.insert (name t) (.blank .states cfg.nd cfg.nens)) h.dir
    datasets := (List.range' tStart nfiles).map name
    currentBatchStart := tStart }

/-- `_create_batch_serial`, which returns early when there is no file to create. -/
def createBatchSerial (tStart : ℕ) (h : Handler β) : Handler β :=
  let remaining := cfg.nt - tStart
  if remaining = 0 then { h with datasets := [], currentBatchStart := tStart }
  else createFiles cfg (serialName cfg.filePrefix) tStart (min cfg.batchSize remaining) h

/-- `_create_batch_parallel`. -/
def createBatchParallel (tStart : ℕ) (h : Handler β) : Handler β :=
  createFiles cfg (parallelName cfg.filePrefix) tStart (min cfg.batchSize (cfg.nt - tStart)) h

/-- The branch on `self.serial_file_creation`. -/
def createBatch (tStart : ℕ) (h : Handler β) : Handler β :=
  if cfg.serialFileCreation then createBatchSerial cfg tStart h
  else createBatchParallel cfg tStart h

/-- `_ensure_batch`. -/
def ensureBatch (t : ℕ) (h : Handler β) : Handler β :=
  if (cfg.batchStart t : ℤ) ≠ h.currentBatchStart then createBatch cfg (cfg.batchStart t) h else h

/-- `EnKF_fully_parallel_IO.__init__` on a directory, up to the creation of the initial
batch: remove `{prefix}_*.h5`. -/
def removeOld (dir : Directory β) : Handler β where
  dir := dir.removeGlob (cfg.filePrefix ++ "_".toList) ".h5".toList
  datasets := []
  currentBatchStart := -1

/-- `EnKF_fully_parallel_IO.__init__` on a directory. -/
def init (dir : Directory β) : Handler β := createBatch cfg 0 (removeOld cfg dir)

/-! ### Reads and writes -/

/-- One rank's part of `read_forecast` and `read_analysis`: the window `[lo, hi)` of
column `j` at time `t`. `none` is an `IndexError`. -/
def readRows [Zero β] (lo t j : ℕ) (h : Handler β) : Option (Handler β × (ℕ → β)) := do
  let h := ensureBatch cfg t h
  let name ← h.dataset (t - h.currentBatchStart)
  let f ← h.dir.lookup name
  if j < f.shape.2 then some (h, fun i => f.entry (lo + i) j) else none

/-- One rank's part of `write_forecast` and `write_analysis`. -/
def writeRows (lo hi t : ℕ) (data : ℕ → β) (j : ℕ) (h : Handler β) : Option (Handler β) := do
  let h := ensureBatch cfg t h
  let name ← h.dataset (t - h.currentBatchStart)
  let f ← h.dir.lookup name
  if j < f.shape.2 then some { h with dir := h.dir.insert name (f.setRows lo hi j data) } else none

/-- All ranks read their windows of column `j`; the column is put together from them. -/
def readColumn [Zero β] (rows : Rows) (t j : ℕ) (h : Handler β) :
    Option (Handler β × (ℕ → β)) :=
  (List.range (cfg.ranks rows)).foldlM
    (fun s rank => do
      let lo := (partition1d cfg.nd (cfg.ranks rows) rank).1
      let hi := (partition1d cfg.nd (cfg.ranks rows) rank).2
      let (h, part) ← readRows cfg lo t j s.1
      return (h, fun i => if lo ≤ i ∧ i < hi then part (i - lo) else s.2 i))
    (h, fun _ => 0)

/-- All ranks write their windows of the column `col`. -/
def writeColumn (rows : Rows) (t : ℕ) (col : ℕ → β) (j : ℕ) (h : Handler β) :
    Option (Handler β) :=
  (List.range (cfg.ranks rows)).foldlM
    (fun h rank =>
      let lo := (partition1d cfg.nd (cfg.ranks rows) rank).1
      let hi := (partition1d cfg.nd (cfg.ranks rows) rank).2
      writeRows cfg lo hi t (fun i => col (lo + i)) j h) h

/-- `read_forecast`. -/
def readForecast [Zero β] (t j : ℕ) (h : Handler β) := readColumn cfg .comm t j h

/-- `write_forecast`. -/
def writeForecast (t : ℕ) (col : ℕ → β) (j : ℕ) (h : Handler β) :=
  writeColumn cfg .comm t col j h

/-- `read_analysis`. -/
def readAnalysis [Zero β] (t j : ℕ) (h : Handler β) := readColumn cfg .world t j h

/-- `write_analysis`. -/
def writeAnalysis (t : ℕ) (col : ℕ → β) (j : ℕ) (h : Handler β) :=
  writeColumn cfg .world t col j h

end Handler

end Icesee
