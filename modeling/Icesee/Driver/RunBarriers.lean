import Icesee.Driver.CollectiveEnd
import Icesee.Store.BatchSwitches
import Mathlib.Algebra.Order.BigOperators.Group.List

/-!
The barriers of a whole full-parallel run.

A rank that switches batches in the serial file creation mode waits for all ranks, so over
the time loop the ranks have to switch equally often. The calls of a rank are logged here
from the start of the time loop on (`run`), with the switches where its reads and writes ask
for them, and `run_ends_iff` says for which runs all ranks come to the end: if the members
do not divide evenly among the ranks, the steps that cross from one batch to the next one
must not occur.

The run is one under `force_fresh_start`: the time loop begins at step `0`, and no step is
skipped because its file exists.

Each rank is alone in its subcommunicator, as the run has at least as many members as ranks.
-/

namespace Icesee

open CollectiveEnd Deal Mpi Spmd

/-- The collectives of the run that are the same on all ranks: those of the forecast mean
and of the analysis in a step, and those after the time loop; and what the model calls for a
member on the subcommunicator of the rank. -/
structure RunCollectives where
  forecastMean : ℕ → List Collective
  analysis : ℕ → List Collective
  afterLoop : List Collective
  forecastStepSingle : ℕ → ℕ → List Collective

/-- What all ranks call in a step besides the forecasts. -/
def RunCollectives.step (coll : RunCollectives) (k : ℕ) : List Call :=
  (coll.forecastMean k ++ .barrier :: coll.analysis k).map (Call.mk .world)

/-- The `current_batch_start` of a rank, and its calls so far. -/
structure RankRun where
  currentBatchStart : ℤ
  calls : List Call
  deriving DecidableEq

namespace RankRun

/-- Calls on the world. -/
def onWorld (ks : List Collective) (s : RankRun) : RankRun :=
  { s with calls := s.calls ++ ks.map (Call.mk .world) }

/-- Calls of a rank on its subcommunicator. -/
def onSubcomm (rank : ℕ) (ks : List Collective) (s : RankRun) : RankRun :=
  { s with calls := s.calls ++ ks.map (Call.mk (.sub rank)) }

end RankRun

namespace IOConfig

variable (cfg : IOConfig) (rank : ℕ)

/-- `nfiles`, of a batch. -/
def nfiles (tStart : ℕ) : ℕ := min cfg.batchSize (cfg.nt - tStart)

/-- `_close_batch`: the files of the batch are closed on the subcommunicator. -/
def closeBatchCalls (s : RankRun) : RankRun :=
  s.onSubcomm rank (List.replicate (cfg.nfiles s.currentBatchStart.toNat) (.other "close"))

/-- `_create_batch_serial`: all ranks wait for the root, which creates the files. -/
def createBatchSerialCalls (tStart : ℕ) (s : RankRun) : RankRun :=
  let s := { cfg.closeBatchCalls rank s with currentBatchStart := tStart }
  if cfg.nt - tStart = 0 then s
  else (s.onWorld [.barrier]).onSubcomm rank (List.replicate (cfg.nfiles tStart) (.other "File"))

/-- `_create_batch_parallel`. -/
def createBatchParallelCalls (tStart : ℕ) (s : RankRun) : RankRun :=
  let s := { cfg.closeBatchCalls rank s with currentBatchStart := tStart }
  s.onSubcomm rank (List.replicate (cfg.nfiles tStart) (.other "File"))

/-- `_ensure_batch`. -/
def ensureBatchCalls (t : ℕ) (s : RankRun) : RankRun :=
  if (cfg.batchStart t : ℤ) ≠ s.currentBatchStart then
    if cfg.serialFileCreation then cfg.createBatchSerialCalls rank (cfg.batchStart t) s
    else cfg.createBatchParallelCalls rank (cfg.batchStart t) s
  else s

variable (coll : RunCollectives) (h : cfg.worldSize ≤ cfg.nens)

/-- One member: the barrier of the subcommunicator, `read_forecast(k, ens)`, the model, and
`write_forecast` of the target slice. -/
def memberCalls (k ens : ℕ) (s : RankRun) : RankRun :=
  cfg.ensureBatchCalls rank (cfg.targetSlice k)
    ((cfg.ensureBatchCalls rank k (s.onSubcomm rank [.barrier])).onSubcomm rank
      (coll.forecastStepSingle k ens))

/-- The round loop of the forecast step. -/
def forecastCalls (k : ℕ) (s : RankRun) : RankRun :=
  let d := (cfg.defaultWorld h).distribution rank
  (List.range d.rounds).foldl
    (fun s round =>
      let ensembleId := d.color + round * d.subcommSizeMin.getD 1
      if ensembleId < cfg.nens then cfg.memberCalls rank coll k ensembleId s else s) s

/-- A step of the time loop: the forecast with its mean, the barrier, and the analysis. -/
def stepCalls (k : ℕ) (s : RankRun) : RankRun :=
  (((cfg.forecastCalls rank coll h k s).onWorld (coll.forecastMean k)).onWorld
    [.barrier]).onWorld (coll.analysis k)

/-- The first steps of the time loop; the constructor has created the first batch. -/
def timeLoopCalls (steps : ℕ) : RankRun :=
  (List.range steps).foldl (fun s k => cfg.stepCalls rank coll h k s) ⟨0, []⟩

/-- The calls of a rank from the start of the time loop to the end of the driver. -/
def runCalls : List Call :=
  ((cfg.timeLoopCalls rank coll h cfg.nt).onWorld coll.afterLoop).calls

/-- The programs of the ranks. -/
def run : Spmd.State (Fin cfg.worldSize) Call Datum Unit := fun rank =>
  line .none () (cfg.runCalls rank coll h)

variable {cfg rank coll}

/-! ### The calls on the world -/

/-- The calls on the world. -/
def worldCalls (s : RankRun) : List Call := s.calls.filter onWorld

@[simp] lemma worldCalls_onWorld (ks : List Collective) (s : RankRun) :
    worldCalls (s.onWorld ks) = worldCalls s ++ ks.map (Call.mk .world) := by
  rw [worldCalls, RankRun.onWorld, List.filter_append, worldCalls]
  refine congrArg _ (List.filter_eq_self.mpr fun op hop => ?_)
  obtain ⟨k, -, rfl⟩ := List.mem_map.mp hop
  simp [onWorld]

@[simp] lemma worldCalls_onSubcomm (ks : List Collective) (s : RankRun) :
    worldCalls (s.onSubcomm rank ks) = worldCalls s := by
  rw [worldCalls, RankRun.onSubcomm, List.filter_append, worldCalls]
  refine (congrArg _ (List.filter_eq_nil_iff.mpr fun op hop => ?_)).trans (List.append_nil _)
  obtain ⟨k, -, rfl⟩ := List.mem_map.mp hop
  simp [onWorld]

/-- The log of the calls and the log of the batches agree: from some calls on, every batch
that is created is one barrier of the world. -/
def Agrees (pre : List Call) (s : RankRun) (b : RankBatch) : Prop :=
  s.currentBatchStart = b.currentBatchStart ∧
    worldCalls s = pre ++ List.replicate b.calls.length barrier

lemma Agrees.onSubcomm {pre : List Call} {s : RankRun} {b : RankBatch} (hs : Agrees pre s b)
    (ks : List Collective) : Agrees pre (s.onSubcomm rank ks) b :=
  ⟨hs.1, by rw [worldCalls_onSubcomm, hs.2]⟩

/-- A read or a write of a time of the run. -/
lemma Agrees.ensureBatch {pre : List Call} {s : RankRun} {b : RankBatch} (hs : Agrees pre s b)
    {t : ℕ} (ht : t < cfg.nt) :
    Agrees pre (cfg.ensureBatchCalls rank t s) (cfg.ensureBatchCall t b) := by
  obtain ⟨hstart, hcalls⟩ := hs
  have hfiles : ¬ cfg.nt - cfg.batchStart t = 0 := by
    have hle := cfg.batchStart_le t
    omega
  rw [ensureBatchCalls, ensureBatchCall, hstart]
  split_ifs with hne hserial
  · constructor
    · simp [createBatchSerialCalls, hfiles, RankRun.onWorld, RankRun.onSubcomm]
    · rw [createBatchSerialCalls, if_neg hfiles, worldCalls_onSubcomm, worldCalls_onWorld,
        List.length_append, List.length_singleton, List.replicate_succ', ← List.append_assoc,
        ← hcalls]
      exact congrArg (· ++ [barrier]) (worldCalls_onSubcomm _ s)
  · constructor
    · simp [createBatchParallelCalls, RankRun.onSubcomm]
    · rw [createBatchParallelCalls, worldCalls_onSubcomm, ← hcalls]
      exact worldCalls_onSubcomm _ s
  · exact ⟨hstart, hcalls⟩

/-- **The round loop**: the log of the batches tells the barriers. -/
lemma agrees_forecastCalls (rank : ℕ) (coll : RunCollectives) {k : ℕ} (hk : k < cfg.nt)
    {s : RankRun} : Agrees (worldCalls s) (cfg.forecastCalls rank coll h k s)
      (cfg.batchSwitches h k rank ⟨s.currentBatchStart, []⟩) := by
  refine List.foldl_rel (r := Agrees (worldCalls s)) ⟨rfl, by simp⟩ fun round _ s b hs => ?_
  dsimp only
  split_ifs
  · exact (((hs.onSubcomm _).ensureBatch hk).onSubcomm _).ensureBatch (cfg.targetSlice_lt hk)
  · exact hs

/-! ### How often a rank switches -/

/-- The batch that is open after `n` steps. -/
def openBatch (cfg : IOConfig) : ℕ → ℤ
  | 0 => 0
  | n + 1 => cfg.batchStart (cfg.targetSlice n)

/-- How often the rank switches in a step. -/
def switchCount (cfg : IOConfig) (h : cfg.worldSize ≤ cfg.nens) (rank k : ℕ) : ℕ :=
  (cfg.batchSwitches h k rank ⟨cfg.openBatch k, []⟩).calls.length

/-- Every rank ends the step in the batch of the target slice. -/
lemma start_batchSwitches (hrank : rank < cfg.worldSize) (k : ℕ) (s : RankBatch) :
    (cfg.batchSwitches h k rank s).currentBatchStart = cfg.batchStart (cfg.targetSlice k) := by
  obtain ⟨n, hn⟩ := Nat.exists_eq_succ_of_ne_zero (length_hand_pos hrank h).ne'
  rw [batchSwitches_eq h k hrank, hn, Function.iterate_succ_apply', memberSwitches,
    ensureBatchCall_start]

/-- **The time loop** on a rank: its batch, and its calls on the world. -/
lemma timeLoopCalls_spec (hrank : rank < cfg.worldSize) {n : ℕ} (hn : n ≤ cfg.nt) :
    (cfg.timeLoopCalls rank coll h n).currentBatchStart = cfg.openBatch n ∧
    worldCalls (cfg.timeLoopCalls rank coll h n) = (List.range n).flatMap fun k =>
      List.replicate (cfg.switchCount h rank k) barrier ++ coll.step k := by
  induction n with
  | zero => exact ⟨rfl, rfl⟩
  | succ n ih =>
      obtain ⟨hstart, hcalls⟩ := ih (by omega)
      have hstep : cfg.timeLoopCalls rank coll h (n + 1) =
          cfg.stepCalls rank coll h n (cfg.timeLoopCalls rank coll h n) := by
        rw [timeLoopCalls, List.range_succ, List.foldl_append]
        rfl
      obtain ⟨hstart', hcalls'⟩ := agrees_forecastCalls h rank coll (show n < cfg.nt from hn)
        (s := cfg.timeLoopCalls rank coll h n)
      rw [hstart] at hstart' hcalls'
      constructor
      · rw [hstep]
        exact hstart'.trans (start_batchSwitches h hrank _ _)
      · rw [hstep, stepCalls, worldCalls_onWorld, worldCalls_onWorld, worldCalls_onWorld, hcalls',
          hcalls, List.range_succ, List.flatMap_append]
        simp [RunCollectives.step, switchCount, barrier]

lemma worldCalls_runCalls (hrank : rank < cfg.worldSize) :
    (cfg.runCalls rank coll h).filter onWorld =
      ((List.range cfg.nt).flatMap fun k =>
        List.replicate (cfg.switchCount h rank k) barrier ++ coll.step k) ++
      coll.afterLoop.map (Call.mk .world) := by
  rw [← (timeLoopCalls_spec h hrank le_rfl).2, ← worldCalls_onWorld]
  rfl

/-- Rank `0` has the most members. -/
lemma length_hand_le (n p m r : ℕ) : (hand n p m r).length ≤ (hand n p m 0).length := by
  induction m with
  | zero => exact le_rfl
  | succ m ih =>
      rw [hand_succ, hand_succ, List.length_append, List.length_append]
      refine Nat.add_le_add ih ?_
      split_ifs <;> simp_all
      omega

/-- With more members a rank does not switch less often. -/
lemma length_calls_mono (k : ℕ) (s : RankBatch) :
    Monotone fun n => ((cfg.memberSwitches k)^[n] s).calls.length := by
  refine monotone_nat_of_le_succ fun n => ?_
  rw [Function.iterate_succ_apply']
  exact (length_calls_le k _).trans (length_calls_le _ _)

/-- With more members a rank switches more often, in a step across two batches. -/
lemma length_calls_strictMono (hserial : cfg.serialFileCreation) {k : ℕ}
    (hk : cfg.batchStart k ≠ cfg.batchStart (cfg.targetSlice k)) (s : RankBatch) :
    StrictMono fun n => ((cfg.memberSwitches k)^[n] s).calls.length := by
  refine strictMono_nat_of_lt_succ fun n => ?_
  rw [Function.iterate_succ_apply']
  exact length_calls_memberSwitches hserial hk _

/-- Within one batch the first member is the only one that counts. -/
lemma iterate_memberSwitches {k : ℕ}
    (hk : cfg.batchStart k = cfg.batchStart (cfg.targetSlice k)) (s : RankBatch) {n : ℕ}
    (hn : 0 < n) : (cfg.memberSwitches k)^[n] s = cfg.memberSwitches k s := by
  induction n, hn using Nat.le_induction with
  | base => rfl
  | succ n _ ih => rw [Function.iterate_succ_apply', ih, memberSwitches_memberSwitches hk]

/-- In the parallel mode no batch is logged. -/
lemma length_calls_of_parallel (hserial : ¬ cfg.serialFileCreation) (k n : ℕ) (start : ℤ) :
    ((cfg.memberSwitches k)^[n] ⟨start, []⟩).calls = [] := by
  have hensure : ∀ t (s : RankBatch), (cfg.ensureBatchCall t s).calls = s.calls := by
    intro t s
    rw [ensureBatchCall]
    split_ifs <;> rfl
  induction n with
  | zero => rfl
  | succ n ih => rw [Function.iterate_succ_apply', memberSwitches, hensure, hensure, ih]

/-- In every step the ranks switch equally often. -/
def SwitchTogether (cfg : IOConfig) (h : cfg.worldSize ≤ cfg.nens) : Prop :=
  ∀ rank < cfg.worldSize, ∀ k < cfg.nt, cfg.switchCount h rank k = cfg.switchCount h 0 k

lemma switchCount_le (hrank : rank < cfg.worldSize) (k : ℕ) :
    cfg.switchCount h rank k ≤ cfg.switchCount h 0 k := by
  rw [switchCount, switchCount, batchSwitches_eq h _ hrank,
    batchSwitches_eq h _ cfg.worldSize_pos]
  exact length_calls_mono _ _ (length_hand_le _ _ _ _)

/-- Whether the ranks switch equally often: the parallel mode has no barriers, equal shares
have equally many, and in the first batch there is nothing to switch. -/
lemma switchTogether_iff : cfg.SwitchTogether h ↔
    ¬ cfg.serialFileCreation ∨ cfg.worldSize ∣ cfg.nens ∨ cfg.nt ≤ cfg.batchSize := by
  have hpos := cfg.batchSize_pos
  constructor
  · intro htogether
    by_contra hcond
    simp only [not_or, not_not, not_le] at hcond
    obtain ⟨hserial, hdvd, hnt⟩ := hcond
    -- the last step of the first batch writes into the second one
    have htarget : cfg.targetSlice (cfg.batchSize - 1) = cfg.batchSize := by
      rw [targetSlice, if_pos (by omega)]
      omega
    have hcross : cfg.batchStart (cfg.batchSize - 1) ≠
        cfg.batchStart (cfg.targetSlice (cfg.batchSize - 1)) := by
      rw [htarget, ne_eq, batchStart_eq_iff, Nat.div_eq_of_lt (by omega), Nat.div_self hpos]
      exact Nat.zero_ne_one
    refine hdvd ((length_hand_eq_iff cfg.worldSize_pos).mp fun r hr => ?_)
    -- there the switches tell the members apart
    have hcount := htogether r hr (cfg.batchSize - 1) (by omega)
    rw [switchCount, switchCount, batchSwitches_eq h _ hr, batchSwitches_eq h _ cfg.worldSize_pos]
      at hcount
    exact (length_calls_strictMono hserial hcross _).injective hcount
  · intro hcond rank hrank k hk
    rw [switchCount, switchCount, batchSwitches_eq h _ hrank,
      batchSwitches_eq h _ cfg.worldSize_pos]
    rcases hcond with hserial | hdvd | hnt
    · -- no barrier is logged
      rw [length_calls_of_parallel hserial, length_calls_of_parallel hserial]
    · -- the shares are equal
      rw [(length_hand_eq_iff cfg.worldSize_pos).mpr hdvd rank hrank]
    · -- the step stays in the first batch, and the first member is the only one that counts
      have htarget := cfg.targetSlice_lt hk
      have hsame : cfg.batchStart k = cfg.batchStart (cfg.targetSlice k) := by
        rw [batchStart_eq_iff, Nat.div_eq_of_lt (hk.trans_le hnt),
          Nat.div_eq_of_lt (htarget.trans_le hnt)]
      rw [iterate_memberSwitches hsame _ (length_hand_pos hrank h),
        iterate_memberSwitches hsame _ (length_hand_pos cfg.worldSize_pos h)]

/-! ### All ranks -/

/-- The ranks make the same calls on the world exactly if they switch together. -/
lemma worldCalls_eq_iff (coll : RunCollectives) :
    (∀ r < cfg.worldSize, ∀ q < cfg.worldSize,
      (cfg.runCalls r coll h).filter onWorld = (cfg.runCalls q coll h).filter onWorld) ↔
    cfg.SwitchTogether h := by
  constructor
  · intro heq rank hrank k hk
    by_contra hne
    -- one step with fewer barriers than rank `0` has is missing in the sum
    have hlt := lt_of_le_of_ne (switchCount_le h hrank k) hne
    have hlen := congrArg List.length (heq rank hrank 0 cfg.worldSize_pos)
    rw [worldCalls_runCalls h hrank, worldCalls_runCalls h cfg.worldSize_pos] at hlen
    simp only [List.length_append, List.length_flatMap, List.length_replicate,
      Nat.add_right_cancel_iff] at hlen
    refine absurd hlen (List.sum_lt_sum _ _ (fun j _ => ?_) ⟨k, List.mem_range.mpr hk, ?_⟩).ne
    · exact Nat.add_le_add_right (switchCount_le h hrank j) _
    · exact Nat.add_lt_add_right hlt _
  · intro htogether r hr q hq
    have hsame : ∀ rank < cfg.worldSize, (cfg.runCalls rank coll h).filter onWorld =
        (cfg.runCalls 0 coll h).filter onWorld := by
      intro rank hrank
      rw [worldCalls_runCalls h hrank, worldCalls_runCalls h cfg.worldSize_pos]
      refine congrArg (· ++ _) (List.flatMap_congr fun k hk => ?_)
      rw [htogether rank hrank k (List.mem_range.mp hk)]
    rw [hsame r hr, hsame q hq]

/-- A rank calls on the world and on its own subcommunicator. -/
lemma comm_of_mem_runCalls {op : Call} (hop : op ∈ cfg.runCalls rank coll h) :
    op.comm = .world ∨ op.comm = .sub rank := by
  set P : RankRun → Prop := fun s => ∀ op ∈ s.calls, op.comm = .world ∨ op.comm = .sub rank
  -- every function of the log keeps `P`
  have hworld : ∀ ks s, P s → P (s.onWorld ks) := by
    intro ks s hs op hop
    rcases List.mem_append.mp hop with hmem | hmem
    · exact hs op hmem
    · obtain ⟨k, -, rfl⟩ := List.mem_map.mp hmem
      exact .inl rfl
  have hsub : ∀ ks s, P s → P (s.onSubcomm rank ks) := by
    intro ks s hs op hop
    rcases List.mem_append.mp hop with hmem | hmem
    · exact hs op hmem
    · obtain ⟨k, -, rfl⟩ := List.mem_map.mp hmem
      exact .inr rfl
  have hensure : ∀ t s, P s → P (cfg.ensureBatchCalls rank t s) := by
    intro t s hs
    have hclose : P (cfg.closeBatchCalls rank s) := hsub _ _ hs
    rw [ensureBatchCalls, createBatchSerialCalls, createBatchParallelCalls]
    split_ifs
    · exact hclose
    · exact hsub _ _ (hworld _ _ hclose)
    · exact hsub _ _ hclose
    · exact hs
  have hforecast : ∀ k s, P s → P (cfg.forecastCalls rank coll h k s) := by
    intro k s hs
    refine List.foldlRecOn _ _ hs fun s hs round _ => ?_
    dsimp only
    split_ifs
    · exact hensure _ _ (hsub _ _ (hensure _ _ (hsub _ _ hs)))
    · exact hs
  have hloop : P (cfg.timeLoopCalls rank coll h cfg.nt) :=
    List.foldlRecOn _ _ (by simp [P]) fun s hs k _ =>
      hworld _ _ (hworld _ _ (hworld _ _ (hforecast k s hs)))
  exact hworld _ _ hloop op hop

lemma group_eachAlone_sub {p : ℕ} {rank : Fin p} {op : Call} (hop : op.comm = .sub rank) :
    (eachAlone p).group op = [rank] := by
  simp only [eachAlone, hop, Fin.val_inj]
  refine List.perm_singleton.mp ((List.perm_ext_iff_of_nodup
    ((List.nodup_finRange p).filter _) (by simp)).mpr fun r => ?_)
  simp

/-- **Whole runs**: every run of the ranks through the time loop and to the end of the driver
can be continued until all ranks have come to the end exactly if the files are created in
the parallel mode, the ranks divide the members, or all steps are in one batch. Otherwise
some rank waits for ever. -/
theorem run_ends_iff (cfg : IOConfig) (coll : RunCollectives) (h : cfg.worldSize ≤ cfg.nens) :
    Machine.AlwaysEnds (fire (eachAlone cfg.worldSize).toComms) Done (cfg.run coll h) ↔
    ¬ cfg.serialFileCreation ∨ cfg.worldSize ∣ cfg.nens ∨ cfg.nt ≤ cfg.batchSize := by
  have : Nonempty (Fin cfg.worldSize) := ⟨⟨0, cfg.worldSize_pos⟩⟩
  have hmeets : ∀ op, onWorld op → ∀ rank : Fin cfg.worldSize,
      rank ∈ (eachAlone cfg.worldSize).group op := by
    intro op hop rank
    exact Ending.mem_group (by simpa [onWorld] using hop) rank
  have halone : ∀ rank : Fin cfg.worldSize, ∀ op ∈ cfg.runCalls rank coll h,
      ¬ onWorld op → (eachAlone cfg.worldSize).group op = [rank] := by
    intro rank op hop hworld
    exact group_eachAlone_sub
      ((comm_of_mem_runCalls h hop).resolve_left (by simpa [onWorld] using hworld))
  rw [← finishes_iff, ← switchTogether_iff h, ← worldCalls_eq_iff h coll]
  -- on the world all ranks meet, and on its subcommunicator a rank is alone
  refine (finishes_lines_iff onWorld hmeets halone).trans ?_
  exact ⟨fun heq r hr q hq => heq ⟨r, hr⟩ ⟨q, hq⟩, fun heq r q => heq r r.2 q q.2⟩

/-- A barrier in every step, two after the time loop, and nothing else. -/
def onlyBarriers : RunCollectives where
  forecastMean _ := []
  analysis _ := []
  afterLoop := [.barrier, .barrier]
  forecastStepSingle _ _ := []

/-- Four members on two ranks come to the end. -/
theorem run_ends_four_two :
    Machine.AlwaysEnds (fire (eachAlone 2).toComms) Done
      ((twoBatches 4 2 (Nat.succ_pos 3) Nat.two_pos).run onlyBarriers (Nat.le_add_left 2 2)) :=
  (run_ends_iff (twoBatches 4 2 (Nat.succ_pos 3) Nat.two_pos) onlyBarriers
    (Nat.le_add_left 2 2)).mpr (.inr (.inl ⟨2, rfl⟩))

end IOConfig

end Icesee
