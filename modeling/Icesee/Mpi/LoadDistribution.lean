import Icesee.Store.Handler

/-!
The load distribution helpers of the `ParallelManager`.

Four methods give every rank of a communicator a half-open range of items. All of them
have the balanced ranges of `partition_1d` in one branch and one item a rank in another
(`balanced_partitions`, `onePerRank_partitions_iff`), but they choose the branch by
different sizes, and some branches leave a name without a value that is returned.
`loadDistribution_iff` says when the ranges are a partition of the items.
-/

namespace Icesee

/-- A communicator of a world whose size `icesee_mpi_init` has stored in `self.size_world`. -/
structure Communicator where
  sizeWorld : ℕ
  size : ℕ
  size_pos : 0 < size
  size_le : size ≤ sizeWorld

/-- What the helpers raise. -/
inductive LoadError
  | unboundLocalError
  | valueError
  deriving DecidableEq

/-! ### The helpers -/

/-- `start` and `stop`, of which the first `count % size` ranks have one item more. -/
def evenRange (count size rank : ℕ) : ℕ × ℕ :=
  let memPerTask := count / size
  let remainder := count % size
  if rank < remainder then
    (rank * (memPerTask + 1), rank * (memPerTask + 1) + (memPerTask + 1))
  else (rank * memPerTask + remainder, rank * memPerTask + remainder + memPerTask)

/-- One item a rank, for the first `count` ranks. -/
def onePerRank (count rank : ℕ) : ℕ × ℕ := if rank < count then (rank, rank + 1) else (0, 0)

namespace Communicator

variable (comm : Communicator)

/-- The `even_distribution` branch of `icesee_mpi_ens_distribution`, on `COMM_WORLD`. -/
def iceseeMpiEnsDistribution (nens rank : ℕ) : Except LoadError (ℕ × ℕ) :=
  if comm.sizeWorld ≤ nens then
    if comm.size < nens then .ok (evenRange nens comm.size rank)
    else if nens = comm.size then .ok (onePerRank nens rank)
    else .error .unboundLocalError
  else .error .valueError

/-- `ensembles_load_distribution`. The name `subcomm` of the result is bound in the first
branch only. -/
def ensemblesLoadDistribution (nens rank : ℕ) : Except LoadError (ℕ × ℕ) :=
  if comm.sizeWorld ≤ nens then
    if comm.size < nens then .ok (evenRange nens comm.size rank)
    else if nens = comm.size then .ok (onePerRank nens rank)
    else .error .unboundLocalError
  else
    let _startStop := onePerRank nens rank
    .error .unboundLocalError

/-- `state_vector_load_distribution`, with the table of workloads. -/
def stateVectorLoadDistribution (globalShape rank : ℕ) : Except LoadError (ℕ × ℕ) :=
  if comm.sizeWorld < globalShape then
    let workloads := (List.range (globalShape % comm.size)).foldl
      (fun w i => w.set i (w.getD i 0 + 1)) (List.replicate comm.size (globalShape / comm.size))
    let start := (List.range rank).foldl (fun start i => start + workloads.getD i 0) 0
    .ok (start, start + workloads.getD rank 0)
  else .ok (onePerRank globalShape rank)

/-- `icesee_mpi_row_distribution`. The names `rows_per_rank` and `extra` of the result are
bound in the first branch only. -/
def iceseeMpiRowDistribution (numRows rank : ℕ) : Except LoadError (ℕ × ℕ) :=
  if comm.size < numRows then
    let rowsPerRank := numRows / comm.size
    let extra := numRows % comm.size
    let localRows := if rank < extra then rowsPerRank + 1 else rowsPerRank
    let startRow :=
      if rank < extra then rank * (rowsPerRank + 1) else rank * rowsPerRank + extra
    .ok (startRow, startRow + localRows)
  else
    let _localRows := if rank < numRows then 1 else 0
    .error .unboundLocalError

/-- No rank fails, and the ranges are disjoint and cover the items. -/
def Partitions (count : ℕ) (helper : ℕ → Except LoadError (ℕ × ℕ)) : Prop :=
  ∃ range : ℕ → ℕ × ℕ, (∀ rank < comm.size, helper rank = .ok (range rank)) ∧
    (∀ rank < comm.size, (range rank).2 ≤ count) ∧
    ∀ i < count, ∃! rank, rank < comm.size ∧ (range rank).1 ≤ i ∧ i < (range rank).2

/-! ### The two distributions -/

/-- The even ranges are the windows of `partition_1d`. -/
lemma evenRange_eq (count size rank : ℕ) :
    evenRange count size rank = partition1d count size rank := by
  simp only [evenRange, partition1d]
  split_ifs with hr
  · rw [Nat.min_eq_left hr.le, Nat.mul_succ]
    exact Prod.ext rfl (Nat.add_assoc _ _ _).symm
  · rw [Nat.min_eq_right (not_lt.mp hr), Nat.add_zero]

variable {comm} {count : ℕ} {helper : ℕ → Except LoadError (ℕ × ℕ)}

/-- Even ranges partition the items. -/
lemma partitions_evenRange
    (h : ∀ rank < comm.size, helper rank = .ok (evenRange count comm.size rank)) :
    comm.Partitions count helper := by
  set cuts := partitionCuts count comm.size comm.size_pos
  have hrange : ∀ rank, evenRange count comm.size rank = (cuts.cut rank, cuts.cut (rank + 1)) := by
    intro rank
    rw [evenRange_eq]
    exact Prod.ext rfl (partition1d_snd count comm.size rank)
  refine ⟨fun rank => (cuts.cut rank, cuts.cut (rank + 1)),
    fun rank hr => by rw [h rank hr, hrange], fun rank hr => cuts.cut_le hr, fun i hi => ?_⟩
  obtain ⟨rank, hr, j, hj, rfl⟩ := cuts.exists_block hi
  have hsize := cuts.cut_add_size hr
  refine ⟨rank, ⟨hr, Nat.le_add_right _ j, by dsimp only; omega⟩, fun s ⟨hs, hlo, hhi⟩ => ?_⟩
  have hsize' := cuts.cut_add_size hs
  exact cuts.block_unique (i := cuts.cut rank + j - cuts.cut s) hs hr (by dsimp only at *; omega) hj
    (Nat.add_sub_cancel' hlo)

/-- One item a rank is a partition if there are enough ranks. -/
lemma partitions_onePerRank_iff
    (h : ∀ rank < comm.size, helper rank = .ok (onePerRank count rank)) :
    comm.Partitions count helper ↔ count ≤ comm.size := by
  constructor
  · rintro ⟨range, hok, -, hcover⟩
    -- item number `size` would be with no rank
    by_contra hlt
    obtain ⟨rank, ⟨hr, hlo, hhi⟩, -⟩ := hcover comm.size (not_le.mp hlt)
    have hrange := Except.ok.inj ((hok rank hr).symm.trans (h rank hr))
    rw [hrange, onePerRank] at hlo hhi
    split at hhi
    · dsimp only at hhi
      omega
    · exact absurd hhi (Nat.not_lt_zero _)
  · intro hle
    refine ⟨onePerRank count, h, fun rank _ => ?_, fun i hi => ⟨i, ⟨by omega, ?_⟩, ?_⟩⟩
    · rw [onePerRank]
      split
      · assumption
      · exact Nat.zero_le count
    · rw [onePerRank, if_pos hi]
      exact ⟨le_rfl, Nat.lt_succ_self i⟩
    · rintro rank ⟨hr, hlo, hhi⟩
      rw [onePerRank] at hlo hhi
      split at hhi
      · next hlt =>
        rw [if_pos hlt] at hlo
        dsimp only at hlo hhi
        omega
      · exact absurd hhi (Nat.not_lt_zero _)

/-- The case split of the helpers for at least as many items as ranks. -/
lemma partitions_of_size_le (hle : comm.size ≤ count) (h : ∀ rank, helper rank =
    if comm.size < count then .ok (evenRange count comm.size rank)
    else if count = comm.size then .ok (onePerRank count rank)
    else .error .unboundLocalError) : comm.Partitions count helper := by
  by_cases hlt : comm.size < count
  · exact partitions_evenRange fun rank _ => by rw [h, if_pos hlt]
  · have heq : count = comm.size := by omega
    exact (partitions_onePerRank_iff fun rank _ => by rw [h, if_neg hlt, if_pos heq]).mpr heq.le

/-- A rank that fails. -/
lemma not_partitions {e : LoadError} (h : helper 0 = .error e) :
    ¬ comm.Partitions count helper := by
  rintro ⟨range, hok, -⟩
  rw [hok 0 comm.size_pos] at h
  cases h

/-! ### The table of workloads -/

/-- The loop over the remainder adds one item to the first workloads. -/
lemma workloads_getElem? {size q k rank : ℕ} (hr : rank < size) :
    ((List.range k).foldl (fun w i => w.set i (w.getD i 0 + 1)) (List.replicate size q))[rank]? =
      some (q + if rank < k then 1 else 0) := by
  induction k with
  | zero => simp [List.getElem?_replicate_of_lt hr]
  | succ k ih =>
      rw [List.range_succ, List.foldl_append, List.foldl_cons, List.foldl_nil, List.getElem?_set]
      obtain ⟨hlen, -⟩ := List.getElem?_eq_some_iff.mp ih
      by_cases hk : k = rank
      · subst hk
        rw [if_pos rfl, if_pos hlen, List.getD_eq_getElem?_getD, ih]
        simp
      · rw [if_neg hk, ih]
        simp only [Option.some.injEq, Nat.add_left_cancel_iff]
        refine if_congr ?_ rfl rfl
        omega

/-- The workloads before a rank end where its range begins. -/
lemma stateVectorLoadDistribution_eq (h : comm.sizeWorld < count) {rank : ℕ}
    (hr : rank < comm.size) :
    comm.stateVectorLoadDistribution count rank = .ok (evenRange count comm.size rank) := by
  set workloads := (List.range (count % comm.size)).foldl
    (fun w i => w.set i (w.getD i 0 + 1)) (List.replicate comm.size (count / comm.size)) with hw
  have hload : ∀ s < comm.size, (partition1d count comm.size s).1 + workloads.getD s 0 =
      (partition1d count comm.size s).2 := by
    intro s hs
    rw [List.getD_eq_getElem?_getD, hw, workloads_getElem? hs, Option.getD_some]
    exact (Nat.add_assoc _ _ _).symm
  have hstart : ∀ s ≤ rank, (List.range s).foldl (fun start i => start + workloads.getD i 0) 0 =
      (partition1d count comm.size s).1 := by
    intro s
    induction s with
    | zero => simp [partition1d]
    | succ s ih =>
        intro hs
        rw [List.range_succ, List.foldl_append, List.foldl_cons, List.foldl_nil, ih (by omega),
          hload s (by omega), partition1d_snd]
  rw [stateVectorLoadDistribution, if_pos h, evenRange_eq]
  exact congrArg Except.ok (Prod.ext (hstart rank le_rfl)
    ((congrArg (· + _) (hstart rank le_rfl)).trans (hload rank hr)))

lemma iceseeMpiRowDistribution_eq (h : comm.size < count) (rank : ℕ) :
    comm.iceseeMpiRowDistribution count rank = .ok (evenRange count comm.size rank) := by
  rw [iceseeMpiRowDistribution, if_pos h, evenRange]
  dsimp only
  split_ifs <;> rfl

/-- **The load distribution**: when the ranges of the ranks are a partition of the items. -/
theorem loadDistribution_iff (comm : Communicator) (count : ℕ) :
    (comm.Partitions count (comm.ensemblesLoadDistribution count) ↔ comm.sizeWorld ≤ count) ∧
      (comm.Partitions count (comm.stateVectorLoadDistribution count) ↔
        comm.sizeWorld < count ∨ count ≤ comm.size) ∧
      (comm.Partitions count (comm.iceseeMpiRowDistribution count) ↔ comm.size < count) ∧
      (comm.size = comm.sizeWorld → comm.size ≤ count →
        comm.Partitions count (comm.iceseeMpiEnsDistribution count)) := by
  have hpos := comm.size_pos
  have hle := comm.size_le
  refine ⟨⟨fun h => ?_, fun h => ?_⟩, ⟨fun h => ?_, fun h => ?_⟩, ⟨fun h => ?_, fun h => ?_⟩,
    fun hworld h => ?_⟩
  · by_contra hlt
    exact not_partitions (by rw [ensemblesLoadDistribution, if_neg hlt]) h
  · exact partitions_of_size_le (hle.trans h) fun rank => by
      rw [ensemblesLoadDistribution, if_pos h]
  · by_contra! hcount
    -- if the test fails the ranks get one item each
    have hone : ∀ rank < comm.size, comm.stateVectorLoadDistribution count rank =
        .ok (onePerRank count rank) := fun rank _ => by
      rw [stateVectorLoadDistribution, if_neg (by omega)]
    have := (partitions_onePerRank_iff hone).mp h
    omega
  · by_cases hlt : comm.sizeWorld < count
    · exact partitions_evenRange fun rank hr => stateVectorLoadDistribution_eq hlt hr
    · refine (partitions_onePerRank_iff fun rank _ => ?_).mpr (by omega)
      rw [stateVectorLoadDistribution, if_neg hlt]
  · by_contra hlt
    exact not_partitions (by rw [iceseeMpiRowDistribution, if_neg hlt]) h
  · exact partitions_evenRange fun rank _ => iceseeMpiRowDistribution_eq h rank
  · exact partitions_of_size_le h fun rank => by
      rw [iceseeMpiEnsDistribution, if_pos (hworld ▸ h)]

/-- Two ranks of a world of four. -/
def twoOfFour : Communicator := ⟨4, 2, by decide, by decide⟩

/-- With three items the distribution of a state vector leaves out the last one, and the
one of an ensemble fails; so does the one of rows, with two items. -/
theorem not_partitions_twoOfFour :
    ¬ twoOfFour.Partitions 3 (twoOfFour.stateVectorLoadDistribution 3) ∧
      ¬ twoOfFour.Partitions 3 (twoOfFour.ensemblesLoadDistribution 3) ∧
      ¬ twoOfFour.Partitions 2 (twoOfFour.iceseeMpiRowDistribution 2) := by
  refine ⟨fun h => ?_, not_partitions rfl, not_partitions rfl⟩
  exact absurd ((partitions_onePerRank_iff fun _ _ => rfl).mp h) (by decide)

end Communicator

end Icesee
