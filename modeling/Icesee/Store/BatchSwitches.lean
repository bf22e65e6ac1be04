import Icesee.Mpi.Distribution
import Icesee.Store.Handler

/-!
Which batches the ranks create in one forecast step of the full-parallel run.

`_ensure_batch` compares with the rank's own `current_batch_start`, so a rank switches
batches where its own reads and writes ask for it, and `_create_batch_serial` waits for
all ranks. `batchSwitches` runs the round loop of
`parallel_forecast_step_default_full_parallel_run` on one rank and logs the batches that
it creates. `batchesConsistent_iff` says for which steps and worlds all ranks have the
same log.
-/

namespace Icesee

open Deal

/-- The `current_batch_start` of a rank and the `t_start` of its calls of
`_create_batch_serial`. -/
structure RankBatch where
  currentBatchStart : ℤ
  calls : List ℕ
  deriving DecidableEq, Repr

namespace IOConfig

variable (cfg : IOConfig)

/-- The default run of the configuration. -/
def defaultWorld (h : cfg.worldSize ≤ cfg.nens) : World :=
  ⟨cfg.nens, cfg.worldSize, cfg.worldSize_pos, h⟩

/-- `_ensure_batch` on one rank; only `_create_batch_serial` is logged. -/
def ensureBatchCall (t : ℕ) (s : RankBatch) : RankBatch :=
  if (cfg.batchStart t : ℤ) ≠ s.currentBatchStart then
    { currentBatchStart := cfg.batchStart t
      calls := if cfg.serialFileCreation then s.calls ++ [cfg.batchStart t] else s.calls }
  else s

/-- One member: `read_forecast(k, ens)`, then `write_forecast` of the target slice. -/
def memberSwitches (k : ℕ) (s : RankBatch) : RankBatch :=
  cfg.ensureBatchCall (cfg.targetSlice k) (cfg.ensureBatchCall k s)

variable (h : cfg.worldSize ≤ cfg.nens)

/-- The round loop of the forecast step on a rank. -/
def batchSwitches (k rank : ℕ) (s : RankBatch) : RankBatch :=
  let d := (cfg.defaultWorld h).distribution rank
  (List.range d.rounds).foldl
    (fun s round =>
      let ensembleId := d.color + round * d.subcommSizeMin.getD 1
      if ensembleId < cfg.nens then cfg.memberSwitches k s else s) s

/-- The barriers of the world that the calls wait at; a batch without files has none. -/
def barriers (s : RankBatch) : ℕ := s.calls.countP (· < cfg.nt)

/-- All ranks, which start with the same batch open, create the same batches in the same
order, and so wait at equally many barriers. -/
structure BatchesConsistent (k : ℕ) (start : ℤ) : Prop where
  calls : ∀ r < cfg.worldSize, ∀ s < cfg.worldSize,
    (cfg.batchSwitches h k r ⟨start, []⟩).calls = (cfg.batchSwitches h k s ⟨start, []⟩).calls
  barriers : ∀ r < cfg.worldSize, ∀ s < cfg.worldSize,
    cfg.barriers (cfg.batchSwitches h k r ⟨start, []⟩) =
      cfg.barriers (cfg.batchSwitches h k s ⟨start, []⟩)

variable {cfg}

/-- The handler of the store switches where the rank does. -/
lemma currentBatchStart_ensureBatch {β : Type} (t : ℕ) (h : Handler β) (calls : List ℕ) :
    (Handler.ensureBatch cfg t h).currentBatchStart =
      (cfg.ensureBatchCall t ⟨h.currentBatchStart, calls⟩).currentBatchStart := by
  have hcreate : (Handler.createBatch cfg (cfg.batchStart t) h).currentBatchStart =
      cfg.batchStart t := by
    rw [Handler.createBatch, Handler.createBatchSerial, Handler.createBatchParallel]
    split_ifs <;> rfl
  by_cases hne : (cfg.batchStart t : ℤ) = h.currentBatchStart
  · simp [Handler.ensureBatch, ensureBatchCall, hne]
  · simp [Handler.ensureBatch, ensureBatchCall, hne, hcreate]

/-! ### One member after the other -/

lemma ensureBatchCall_start (t : ℕ) (s : RankBatch) :
    (cfg.ensureBatchCall t s).currentBatchStart = cfg.batchStart t := by
  by_cases hne : (cfg.batchStart t : ℤ) = s.currentBatchStart <;> simp [ensureBatchCall, hne]

lemma ensureBatchCall_of_eq {t : ℕ} {s : RankBatch} (h : s.currentBatchStart = cfg.batchStart t) :
    cfg.ensureBatchCall t s = s := by
  rw [ensureBatchCall, if_neg (not_not.mpr h.symm)]

/-- Calls are only added. -/
lemma length_calls_le (t : ℕ) (s : RankBatch) :
    s.calls.length ≤ (cfg.ensureBatchCall t s).calls.length := by
  rw [ensureBatchCall]
  split_ifs <;> simp

/-- Within one batch only the first member switches. -/
lemma memberSwitches_memberSwitches {k : ℕ}
    (hk : cfg.batchStart k = cfg.batchStart (cfg.targetSlice k)) (s : RankBatch) :
    cfg.memberSwitches k (cfg.memberSwitches k s) = cfg.memberSwitches k s := by
  have hstart : (cfg.memberSwitches k s).currentBatchStart = cfg.batchStart k := by
    rw [memberSwitches, ensureBatchCall_start, hk]
  calc cfg.memberSwitches k (cfg.memberSwitches k s)
      = cfg.ensureBatchCall (cfg.targetSlice k) (cfg.memberSwitches k s) := by
        rw [memberSwitches, ensureBatchCall_of_eq hstart]
    _ = cfg.memberSwitches k s := ensureBatchCall_of_eq (by rw [hstart, hk])

/-- Across two batches every member switches at least once. -/
lemma length_calls_memberSwitches (hserial : cfg.serialFileCreation) {k : ℕ}
    (hk : cfg.batchStart k ≠ cfg.batchStart (cfg.targetSlice k)) (s : RankBatch) :
    s.calls.length < (cfg.memberSwitches k s).calls.length := by
  have hread : s.calls.length ≤ (cfg.ensureBatchCall k s).calls.length := length_calls_le k s
  have hne : (cfg.batchStart (cfg.targetSlice k) : ℤ) ≠
      (cfg.ensureBatchCall k s).currentBatchStart := by
    rw [ensureBatchCall_start]
    exact fun h => hk (Int.ofNat.inj h).symm
  rw [memberSwitches, ensureBatchCall, if_pos hne, if_pos hserial, List.length_append]
  exact Nat.lt_succ_of_le hread

/-- **The round loop** on a rank is one switch after the other, for every card it was
dealt. -/
lemma batchSwitches_eq (k : ℕ) {rank : ℕ} (hr : rank < cfg.worldSize) (s : RankBatch) :
    cfg.batchSwitches h k rank s = (cfg.memberSwitches k)^[(hand cfg.nens cfg.worldSize
      (roundsFor cfg.nens cfg.worldSize) rank).length] s := by
  have hloop : ∀ m, (List.range m).foldl
      (fun s round => if rank + round * cfg.worldSize < cfg.nens then cfg.memberSwitches k s
        else s) s = (cfg.memberSwitches k)^[(hand cfg.nens cfg.worldSize m rank).length] s := by
    intro m
    induction m with
    | zero => rfl
    | succ m ih =>
        rw [List.range_succ, List.foldl_append, ih, hand_succ, List.length_append]
        by_cases hm : rank + m * cfg.worldSize < cfg.nens
        · simp only [if_pos hm, List.foldl_cons, List.foldl_nil, List.length_singleton]
          rw [Function.iterate_succ_apply']
        · simp [if_neg hm]
  rw [batchSwitches, World.distribution_eq _ hr]
  exact hloop _

/-- Every rank has a member. -/
lemma length_hand_pos {rank : ℕ} (hr : rank < cfg.worldSize) (h : cfg.worldSize ≤ cfg.nens) :
    0 < (hand cfg.nens cfg.worldSize (roundsFor cfg.nens cfg.worldSize) rank).length := by
  have hround : 0 < roundsFor cfg.nens cfg.worldSize := by
    rw [round_lt_roundsFor_iff cfg.worldSize_pos, Nat.zero_mul]
    exact cfg.nens_pos
  refine List.length_pos_of_mem (a := rank) (List.mem_filter.mpr ⟨?_, ?_⟩)
  · exact List.mem_map.mpr ⟨0, List.mem_range.mpr hround, by simp⟩
  · simpa using hr.trans_le h

/-- **Collective batch switches**: in the serial file creation mode, whatever batch is
open before, all ranks create the same batches exactly if the ranks divide the members
or the step reads and writes the same batch. -/
theorem batchesConsistent_iff (cfg : IOConfig) (h : cfg.worldSize ≤ cfg.nens)
    (hserial : cfg.serialFileCreation) (k : ℕ) (start : ℤ) :
    cfg.BatchesConsistent h k start ↔
      cfg.worldSize ∣ cfg.nens ∨ cfg.batchStart k = cfg.batchStart (cfg.targetSlice k) := by
  constructor
  · rintro ⟨hcalls, -⟩
    refine or_iff_not_imp_right.mpr fun hk => ?_
    -- the number of calls tells the number of members
    have hmono : StrictMono fun n => ((cfg.memberSwitches k)^[n] ⟨start, []⟩).calls.length := by
      refine strictMono_nat_of_lt_succ fun n => ?_
      rw [Function.iterate_succ_apply']
      exact length_calls_memberSwitches hserial hk _
    refine (length_hand_eq_iff cfg.worldSize_pos).mp fun r hr => hmono.injective ?_
    have hr0 := hcalls r hr 0 cfg.worldSize_pos
    rw [batchSwitches_eq h k hr, batchSwitches_eq h k cfg.worldSize_pos] at hr0
    exact congrArg List.length hr0
  · intro hcond
    have heq : ∀ r < cfg.worldSize, cfg.batchSwitches h k r ⟨start, []⟩ =
        cfg.batchSwitches h k 0 ⟨start, []⟩ := by
      intro r hr
      rw [batchSwitches_eq h k hr, batchSwitches_eq h k cfg.worldSize_pos]
      rcases hcond with hd | hk
      · rw [(length_hand_eq_iff cfg.worldSize_pos).mpr hd r hr]
      · have hone : ∀ n, (cfg.memberSwitches k)^[n + 1] ⟨start, []⟩ =
            cfg.memberSwitches k ⟨start, []⟩ := by
          intro n
          induction n with
          | zero => rfl
          | succ n ih => rw [Function.iterate_succ_apply', ih, memberSwitches_memberSwitches hk]
        rw [← Nat.sub_add_cancel (length_hand_pos hr h), hone,
          ← Nat.sub_add_cancel (length_hand_pos cfg.worldSize_pos h), hone]
    refine ⟨fun r hr s hs => ?_, fun r hr s hs => ?_⟩
    · rw [heq r hr, heq s hs]
    · rw [heq r hr, heq s hs]

/-- A batch a file, and two times. -/
def twoBatches (nens worldSize : ℕ) (hn : 0 < nens) (hw : 0 < worldSize) : IOConfig :=
  { single 2 Nat.two_pos with
    nens := nens
    worldSize := worldSize
    nens_pos := hn
    worldSize_pos := hw }

/-- Four members on two ranks: both ranks switch between the two batches for both of
their members. -/
theorem batchesConsistent_four_two :
    (twoBatches 4 2 (Nat.succ_pos 3) Nat.two_pos).BatchesConsistent (Nat.le_add_left 2 2) 0 0 :=
  (batchesConsistent_iff (twoBatches 4 2 (Nat.succ_pos 3) Nat.two_pos) (Nat.le_add_left 2 2) rfl
    0 0).mpr (Or.inl ⟨2, rfl⟩)

/-- Three members on two ranks: rank `0` goes back to batch `0` for its second member, and
rank `1` has none. -/
theorem not_batchesConsistent_three_two :
    ((twoBatches 3 2 (Nat.succ_pos 2) Nat.two_pos).batchSwitches (Nat.le_succ 2) 0 0
      ⟨0, []⟩).calls = [1, 0, 1] ∧
    ((twoBatches 3 2 (Nat.succ_pos 2) Nat.two_pos).batchSwitches (Nat.le_succ 2) 0 1
      ⟨0, []⟩).calls = [1] ∧
    ¬ (twoBatches 3 2 (Nat.succ_pos 2) Nat.two_pos).BatchesConsistent (Nat.le_succ 2) 0 0 := by
  refine ⟨rfl, rfl, fun h => ?_⟩
  have hcalls := h.calls 0 Nat.two_pos 1 Nat.one_lt_two
  revert hcalls
  decide

end IOConfig

end Icesee
