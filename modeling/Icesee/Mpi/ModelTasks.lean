import Mathlib.Data.PNat.Defs
import Icesee.Mpi.Groups
import Icesee.Store.Handler

/-!
The model tasks of `icesee_mpi_parallelization`.

The ranks of the world are dealt to the tasks in blocks, by a nested loop that counts the
ranks up to the own one (`innerLoop`, `outerLoop`) and stops once the field `task_id` has a
value. `outerLoop_range'` is the invariant of the counter, for a field that has none at
first; the communicators are split by the ids, and `taskAssignment` describes them.
-/

namespace Icesee

open Tiling

/-! ### The number of tasks and their sizes -/

/-- The world communicator and the arguments of `icesee_mpi_parallelization`. -/
structure TaskWorld where
  sizeWorld : ℕ+
  nens : ℕ+
  nModeltasks : Option ℕ+

namespace TaskWorld

variable (w : TaskWorld)

/-- `parallel_manager.n_modeltasks`. -/
def tasks : ℕ :=
  let n : ℕ := match w.nModeltasks with
    | none => max 1 (Nat.gcd w.nens w.sizeWorld)
    | some n => n
  let n := if n > w.sizeWorld then (w.sizeWorld : ℕ) else n
  if (w.nens : ℕ) > 0 ∧ n > w.nens then (w.nens : ℕ) else n

/-- `local_size_model`. -/
def localSizeModel : List ℕ :=
  let sizes := List.replicate w.tasks (w.sizeWorld / w.tasks)
  let remainder := w.sizeWorld % w.tasks
  (sizes.take remainder).map (· + 1) ++ sizes.drop remainder

/-! ### The id of a rank -/

/-- What the loops assign to: the field of the manager, and `pe_index`. -/
structure PeLoop where
  taskId : Option ℕ
  peIndex : ℕ

/-- The loop over `j`, with its `break`. -/
def innerLoop (rank i : ℕ) : ℕ → PeLoop → PeLoop
  | 0, s => s
  | j + 1, s =>
      if rank = s.peIndex then { s with taskId := some (i + 1) }
      else innerLoop rank i j { s with peIndex := s.peIndex + 1 }

/-- The loop over `i`, which is left once there is an id. -/
def outerLoop (rank : ℕ) (sizes : List ℕ) : List ℕ → PeLoop → PeLoop
  | [], s => s
  | i :: is, s =>
      let s' := innerLoop rank i (sizes.getD i 0) s
      if s'.taskId.isSome then s' else outerLoop rank sizes is s'

/-- `task_id` of a rank, on a manager where the field is `old` before. -/
def assignTask (old : Option ℕ) (rank : ℕ) : Option ℕ :=
  (outerLoop rank w.localSizeModel (List.range w.tasks) ⟨old, 0⟩).taskId

/-- `task_id` on a fresh manager. -/
def taskId (rank : ℕ) : Option ℕ := w.assignTask none rank

/-! ### The communicators -/

/-- The color of `COMM_model`. No rank is without an id (`TaskAssignment.taskId`). -/
def color (rank : ℕ) : ℕ := (w.taskId rank).getD 0

/-- `COMM_model` of a rank, as its world ranks. -/
def commModel (rank : ℕ) : List ℕ := split w.color id w.sizeWorld (w.color rank)

def rankModel (rank : ℕ) : ℕ := (w.commModel rank).idxOf rank

def filterpe (rank : ℕ) : Bool := w.taskId rank = some 1

/-- `COMM_filter`, which the ranks of `MPI.UNDEFINED` do not get. No task has the number that
stands for it. -/
def commFilter (rank : ℕ) : Option (List ℕ) :=
  if w.filterpe rank then
    some (split (fun r => if w.filterpe r then w.color r else 0) id w.sizeWorld (w.color rank))
  else none

/-- `COMM_couple` of a rank. -/
def commCouple (rank : ℕ) : List ℕ :=
  split (fun r => w.rankModel r + 1) id w.sizeWorld (w.rankModel rank + 1)

/-- What the tasks should be: blocks of the ranks, in the order of the tasks, of nearly the
same size, and couples of ranks of the same place in their tasks. -/
structure TaskAssignment (blocks : Cuts w.sizeWorld w.tasks) : Prop where
  tasks : 1 ≤ w.tasks ∧ w.tasks ≤ min (w.sizeWorld : ℕ) w.nens
  taskId : ∀ rank < (w.sizeWorld : ℕ), ∃ t < w.tasks, w.taskId rank = some (t + 1)
  block : ∀ rank < (w.sizeWorld : ℕ), ∀ t < w.tasks,
    w.taskId rank = some (t + 1) ↔ blocks.cut t ≤ rank ∧ rank < blocks.cut (t + 1)
  sizes : w.localSizeModel = (List.range w.tasks).map blocks.size
  balanced : ∀ t < w.tasks, ∀ u < w.tasks, blocks.size t ≤ blocks.size u + 1
  sum : w.localSizeModel.sum = w.sizeWorld
  model : ∀ rank < (w.sizeWorld : ℕ), ∀ t < w.tasks, w.taskId rank = some (t + 1) →
    w.commModel rank = List.range' (blocks.cut t) (blocks.size t)
  filter : ∀ rank < (w.sizeWorld : ℕ), (w.filterpe rank = true ↔ w.taskId rank = some 1) ∧
    w.commFilter rank = if rank < blocks.cut 1 then some (List.range (blocks.cut 1)) else none
  /-- The ranks of the couple communicator in one task: the one of the same place, if the
  task has it. -/
  couple : ∀ rank < (w.sizeWorld : ℕ), ∀ t < w.tasks,
    (w.commCouple rank).filter (fun r => w.taskId r = some (t + 1)) =
      if w.rankModel rank < blocks.size t then [blocks.cut t + w.rankModel rank] else []

/-! ### The number of tasks -/

lemma tasks_pos : 0 < w.tasks := by
  have hp := w.sizeWorld.pos
  have hn := w.nens.pos
  simp only [tasks]
  split
  · split_ifs <;> omega
  · next n _ =>
    have := n.pos
    split_ifs <;> omega

lemma tasks_le : w.tasks ≤ min (w.sizeWorld : ℕ) w.nens := by
  have hn := w.nens.pos
  simp only [tasks]
  split_ifs <;> omega

/-- The blocks of the ranks. -/
def blocks : Cuts w.sizeWorld w.tasks := partitionCuts w.sizeWorld w.tasks w.tasks_pos

lemma size_blocks (t : ℕ) : w.blocks.size t =
    w.sizeWorld / w.tasks + if t < w.sizeWorld % w.tasks then 1 else 0 := size_partitionCuts _ t

/-- `local_size_model` has the sizes of the blocks. -/
lemma localSizeModel_eq : w.localSizeModel = (List.range w.tasks).map w.blocks.size := by
  have hmod : w.sizeWorld % w.tasks < w.tasks := Nat.mod_lt _ w.tasks_pos
  simp only [localSizeModel]
  refine List.ext_getElem (by simp; omega) fun t h _ => ?_
  rw [List.getElem_map, List.getElem_range, size_blocks, List.getElem_append]
  split_ifs with hlt hr hr <;> simp at hlt ⊢ <;> omega

lemma getD_localSizeModel {t : ℕ} (ht : t < w.tasks) :
    w.localSizeModel.getD t 0 = w.blocks.size t := by
  rw [localSizeModel_eq, List.getD_eq_getElem?_getD, List.getElem?_map,
    List.getElem?_range ht]
  rfl

/-! ### The loops -/

/-- The loop over one block finds the rank in it, or counts its ranks. -/
lemma innerLoop_eq (old : Option ℕ) {rank : ℕ} (i k : ℕ) {a : ℕ} (ha : a ≤ rank) :
    innerLoop rank i k ⟨old, a⟩ =
      if rank < a + k then ⟨some (i + 1), rank⟩ else ⟨old, a + k⟩ := by
  induction k generalizing a with
  | zero => rw [innerLoop, if_neg (by omega), Nat.add_zero]
  | succ k ih =>
      rw [innerLoop]
      dsimp only
      split_ifs with heq hlt hlt
      · rw [heq]
      · omega
      · rw [ih (by omega), if_pos (by omega)]
      · rw [ih (by omega), if_neg (by omega)]
        congr 1
        omega

/-- **The counter**: before task `i` it is at the beginning of block `i`. -/
lemma outerLoop_range' {rank i k : ℕ} (hk : i + k ≤ w.tasks) (hlo : w.blocks.cut i ≤ rank)
    (hhi : rank < w.blocks.cut (i + k)) :
    ∃ t < i + k, w.blocks.cut t ≤ rank ∧ rank < w.blocks.cut (t + 1) ∧
      (outerLoop rank w.localSizeModel (List.range' i k) ⟨none, w.blocks.cut i⟩).taskId =
        some (t + 1) := by
  induction k generalizing i with
  | zero => exact absurd hhi (not_lt.mpr hlo)
  | succ k ih =>
      have hcut := w.blocks.cut_add_size (r := i) (by omega)
      have hinner := innerLoop_eq none i (w.blocks.size i) hlo
      rw [hcut] at hinner
      rw [List.range'_succ, outerLoop, w.getD_localSizeModel (by omega), hinner]
      rcases lt_or_ge rank (w.blocks.cut (i + 1)) with hlt | hge
      · exact ⟨i, by omega, hlo, hlt, by simp only [if_pos hlt, Option.isSome_some, if_true]⟩
      · obtain ⟨t, ht, hlo, hhi, hid⟩ := ih (i := i + 1) (by omega) hge
          (by rwa [Nat.add_assoc, Nat.add_comm 1])
        refine ⟨t, by omega, hlo, hhi, ?_⟩
        simpa only [if_neg hge.not_gt, Option.isSome_none, Bool.false_eq_true, if_false] using hid

/-- The id is the number of a block that the rank is in. -/
lemma exists_taskId {rank : ℕ} (hr : rank < w.sizeWorld) :
    ∃ t < w.tasks, w.blocks.cut t ≤ rank ∧ rank < w.blocks.cut (t + 1) ∧
      w.taskId rank = some (t + 1) := by
  have hlo : w.blocks.cut 0 ≤ rank := by
    rw [w.blocks.cut_zero]
    exact Nat.zero_le _
  have hloop := w.outerLoop_range' (k := w.tasks) (by omega) hlo
    (by rwa [Nat.zero_add, w.blocks.cut_last])
  rwa [w.blocks.cut_zero, Nat.zero_add, ← List.range_eq_range'] at hloop

/-- **The id** of a rank is the number of its block. -/
lemma taskId_eq_iff {rank t : ℕ} (hr : rank < w.sizeWorld) (ht : t < w.tasks) :
    w.taskId rank = some (t + 1) ↔ w.blocks.cut t ≤ rank ∧ rank < w.blocks.cut (t + 1) := by
  obtain ⟨u, hu, hlo, hhi, hid⟩ := w.exists_taskId hr
  have hcut := w.blocks.cut_add_size ht
  have hcutu := w.blocks.cut_add_size hu
  constructor
  · intro h
    obtain rfl : u = t := Nat.succ_inj.mp (Option.some.inj (hid.symm.trans h))
    exact ⟨hlo, hhi⟩
  · intro ⟨htlo, hthi⟩
    rw [hid, w.blocks.block_unique (i := rank - w.blocks.cut u) (j := rank - w.blocks.cut t)
      hu ht (by omega) (by omega) (by omega)]

/-! ### The communicators -/

lemma color_eq_iff {rank t : ℕ} (hr : rank < w.sizeWorld) (ht : t < w.tasks) :
    w.color rank = t + 1 ↔ w.blocks.cut t ≤ rank ∧ rank < w.blocks.cut (t + 1) := by
  obtain ⟨u, -, -, -, hid⟩ := w.exists_taskId hr
  rw [← w.taskId_eq_iff hr ht, color, hid, Option.getD_some, Option.some_inj]

/-- The ranks of one task. -/
lemma filter_color {t : ℕ} (ht : t < w.tasks) {q : ℕ → Prop} [DecidablePred q]
    (hq : ∀ r < (w.sizeWorld : ℕ), (q r ↔ w.blocks.cut t ≤ r ∧ r < w.blocks.cut (t + 1))) :
    (List.range w.sizeWorld).filter q = List.range' (w.blocks.cut t) (w.blocks.size t) := by
  rw [List.range_eq_range']
  exact filter_range' (Nat.zero_le _) (w.blocks.mono t ht)
    (by rw [Nat.zero_add]; exact w.blocks.cut_le ht)
    fun r _ hr => hq r (by rwa [Nat.zero_add] at hr)

/-- `COMM_model` is the block. -/
lemma commModel_eq {rank t : ℕ} (ht : t < w.tasks) (hid : w.taskId rank = some (t + 1)) :
    w.commModel rank = List.range' (w.blocks.cut t) (w.blocks.size t) := by
  have hcolor : w.color rank = t + 1 := by rw [color, hid, Option.getD_some]
  rw [commModel, split_of_monotone _ monotone_id, hcolor]
  exact w.filter_color ht fun _ hr => w.color_eq_iff hr ht

/-- The place of a rank in its block. -/
lemma rankModel_eq {rank t : ℕ} (hr : rank < w.sizeWorld) (ht : t < w.tasks)
    (hid : w.taskId rank = some (t + 1)) : w.rankModel rank = rank - w.blocks.cut t := by
  obtain ⟨hlo, hhi⟩ := (w.taskId_eq_iff hr ht).mp hid
  have hcut := w.blocks.cut_add_size ht
  rw [rankModel, w.commModel_eq ht hid]
  exact idxOf_range' ⟨hlo, by omega⟩

/-- `COMM_filter` is the first block. -/
lemma commFilter_eq {rank : ℕ} (hr : rank < w.sizeWorld) : w.commFilter rank =
    if rank < w.blocks.cut 1 then some (List.range (w.blocks.cut 1)) else none := by
  -- the first task has the ranks below the first cut
  have hfilter : ∀ r < (w.sizeWorld : ℕ), (w.filterpe r = true ↔ r < w.blocks.cut 1) := by
    intro r hr
    have h := w.taskId_eq_iff hr w.tasks_pos
    rw [w.blocks.cut_zero, Nat.zero_add] at h
    rw [filterpe, decide_eq_true_eq, h]
    exact and_iff_right (Nat.zero_le r)
  rw [commFilter]
  split_ifs with h hlt hlt
  · have hone : w.color rank = 1 := by rw [color, of_decide_eq_true h, Option.getD_some]
    have hcolor : ∀ r < (w.sizeWorld : ℕ),
        ((if w.filterpe r then w.color r else 0) = 1 ↔ r < w.blocks.cut 1) := by
      intro r hr
      rw [← hfilter r hr]
      by_cases h : w.filterpe r = true
      · rw [if_pos h]
        exact iff_of_true (by rw [color, of_decide_eq_true h, Option.getD_some]) h
      · rw [if_neg h]
        exact iff_of_false Nat.zero_ne_one h
    have hblock := w.filter_color w.tasks_pos
      (q := fun r => (if w.filterpe r then w.color r else 0) = 1) fun r hr => by
        rw [hcolor r hr, w.blocks.cut_zero]
        exact (and_iff_right (Nat.zero_le r)).symm
    have hsize := w.blocks.cut_add_size w.tasks_pos
    rw [w.blocks.cut_zero, Nat.zero_add] at hsize
    rw [split_of_monotone _ monotone_id, hone, hblock, w.blocks.cut_zero, hsize,
      List.range_eq_range']
  · exact absurd ((hfilter rank hr).mp h) hlt
  · exact absurd ((hfilter rank hr).mpr hlt) h
  · rfl

/-- The couple communicator has the ranks of one place. -/
lemma filter_commCouple (rank : ℕ) {t : ℕ} (ht : t < w.tasks) :
    (w.commCouple rank).filter (fun r => w.taskId r = some (t + 1)) =
      if w.rankModel rank < w.blocks.size t then [w.blocks.cut t + w.rankModel rank] else [] := by
  have hcut := w.blocks.cut_add_size ht
  -- one rank of the task has this place
  have hplace : ∀ r < (w.sizeWorld : ℕ), (w.taskId r = some (t + 1) ∧
      w.rankModel r + 1 = w.rankModel rank + 1 ↔ (w.blocks.cut t ≤ r ∧ r < w.blocks.cut (t + 1)) ∧
        r = w.blocks.cut t + w.rankModel rank) := by
    intro r hr
    rw [← w.taskId_eq_iff hr ht]
    refine and_congr_right fun hid => ?_
    have hlo := ((w.taskId_eq_iff hr ht).mp hid).1
    rw [w.rankModel_eq hr ht hid]
    omega
  rw [commCouple, split_of_monotone _ monotone_id, List.filter_filter]
  simp only [← Bool.decide_and]
  split_ifs with hlt
  · rw [List.range_eq_range', filter_range' (a := w.blocks.cut t + w.rankModel rank)
      (b := w.blocks.cut t + w.rankModel rank + 1) (Nat.zero_le _) (Nat.le_succ _) ?_ ?_,
      Nat.add_sub_cancel_left]
    · rfl
    · have : w.blocks.cut (t + 1) ≤ w.sizeWorld := w.blocks.cut_le ht
      omega
    · intro r _ hr
      rw [hplace r (by omega)]
      omega
  · refine List.filter_eq_nil_iff.mpr fun r hr => ?_
    rw [decide_eq_true_eq, hplace r (List.mem_range.mp hr)]
    omega

/-- **The model tasks.** On a fresh manager the ranks are dealt to the tasks in blocks. -/
theorem taskAssignment : w.TaskAssignment w.blocks where
  tasks := ⟨w.tasks_pos, w.tasks_le⟩
  taskId rank hr := by
    obtain ⟨t, ht, -, -, hid⟩ := w.exists_taskId hr
    exact ⟨t, ht, hid⟩
  block _ hr _ ht := w.taskId_eq_iff hr ht
  sizes := w.localSizeModel_eq
  balanced t _ u _ := by
    rw [size_blocks, size_blocks]
    split_ifs <;> omega
  sum := by rw [localSizeModel_eq, w.blocks.sum_map_size le_rfl, w.blocks.cut_last]
  model _ _ _ ht hid := w.commModel_eq ht hid
  filter _ hr := ⟨decide_eq_true_iff, w.commFilter_eq hr⟩
  couple rank _ _ ht := w.filter_commCouple rank ht

/-! ### A manager that has been used -/

/-- A field that has an id already stops the loop after the first task: the first ranks get
task `1`, and all others keep what they had. -/
theorem assignTask_some (old : ℕ) (rank : ℕ) :
    w.assignTask (some old) rank = some (if rank < w.blocks.cut 1 then 1 else old) := by
  obtain ⟨rest, hrest⟩ : ∃ rest, List.range w.tasks = 0 :: rest := by
    obtain ⟨k, hk⟩ := Nat.exists_eq_succ_of_ne_zero w.tasks_pos.ne'
    rw [hk, List.range_succ_eq_map]
    exact ⟨_, rfl⟩
  have hsize : w.blocks.size 0 = w.blocks.cut 1 := by
    rw [Cuts.size, w.blocks.cut_zero, Nat.sub_zero]
  rw [assignTask, hrest, outerLoop, w.getD_localSizeModel w.tasks_pos,
    innerLoop_eq (some old) 0 _ (Nat.zero_le rank), hsize, Nat.zero_add, Nat.zero_add]
  rcases lt_or_ge rank (w.blocks.cut 1) with hlt | hge
  · rw [if_pos hlt, if_pos hlt]
    rfl
  · rw [if_neg hge.not_gt, if_neg hge.not_gt]
    rfl

end TaskWorld

end Icesee
