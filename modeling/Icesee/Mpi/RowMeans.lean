import Mathlib.Algebra.BigOperators.Fin
import Mathlib.Algebra.Field.Defs
import Icesee.Lib.Collectives
import Icesee.Store.Handler

/-!
`compute_mean_matrix_from_root`: the means of the rows of a matrix that one rank has.

The rows are scattered to the ranks, with counts and displacements in entries, and their
means are gathered again, with counts and displacements in rows. Both tile their buffers, in
the windows of `partition_1d`, and so the root has the mean of every row (`gathersMeans`).
-/

namespace Icesee

open Tiling Slices Collectives

/-- The matrix on the root, and the communicator. -/
structure RootMatrix (K : Type) where
  nd : ℕ
  nens : ℕ
  X : Fin nd → Fin nens → K
  size : ℕ
  root : ℕ
  nens_pos : 0 < nens
  size_pos : 0 < size
  root_lt : root < size

namespace RootMatrix

variable {K : Type} (a : RootMatrix K)

def rows : List (List K) := List.ofFn fun i => List.ofFn (a.X i)

/-- `local_nd`. The `start` and `end` that belong to it are not used. -/
def localNd (rank : ℕ) : ℕ :=
  if rank < a.nd % a.size then a.nd / a.size + 1 else a.nd / a.size

/-- The counts of `Scatterv`, in entries. -/
def counts : List ℕ := (List.range a.size).map fun r =>
  (a.nd / a.size + if r < a.nd % a.size then 1 else 0) * a.nens

def displs : List ℕ := (List.range a.size).map fun r => (a.counts.take r).sum

/-- The counts of `Gatherv`, in rows. -/
def countsRows : List ℕ := (List.range a.size).map fun r =>
  a.nd / a.size + if r < a.nd % a.size then 1 else 0

def displsRows : List ℕ := (List.range a.size).map fun r => (a.countsRows.take r).sum

/-- `local_X`, as the entries that `Scatterv` put into it. -/
def localX (rank : ℕ) : Option (List K) :=
  scatterv a.rows.flatten a.counts a.displs rank (a.localNd rank * a.nens)

variable [Field K]

/-- `np.mean(local_X, axis=1)`. -/
def localMean (rank : ℕ) : Option (List K) :=
  (a.localX rank).map fun localX =>
    (reshape (a.localNd rank) a.nens localX).map fun row => row.sum / a.nens

/-- `compute_mean_matrix_from_root`, on one rank. The buffer of the root is not initialized,
and `behind` is what lies there. -/
def computeMeanMatrixFromRoot (behind : ℕ → K) (rank : ℕ) : Option (Option (List K)) := do
  let allMeans ← gatherv ((List.range a.nd).map behind) a.countsRows a.displsRows a.size a.localMean
  return if rank = a.root then some allMeans else none

/-- Both collectives are given segments that tile their buffers, every rank has a buffer as
long as its count, and the root has the means of the rows. -/
structure GathersMeans : Prop where
  scatter : ∃ c : Cuts (a.nd * a.nens) a.size, Tile c a.counts a.displs
  gather : ∃ c : Cuts a.nd a.size, Tile c a.countsRows a.displsRows
  localX : ∀ rank < a.size, ∃ x, a.localX rank = some x ∧ x.length = a.localNd rank * a.nens ∧
    a.counts[rank]? = some x.length
  localMean : ∀ rank < a.size, ∃ y, a.localMean rank = some y ∧ y.length = a.localNd rank ∧
    a.countsRows[rank]? = some y.length
  result : ∀ behind, ∀ rank < a.size, a.computeMeanMatrixFromRoot behind rank =
    some (if rank = a.root then some (List.ofFn fun i => (∑ j, a.X i j) / a.nens) else none)

/-! ### The windows -/

omit [Field K]

/-- The rows go to the ranks in the windows of `partition_1d`. -/
def cuts : Cuts a.nd a.size := partitionCuts a.nd a.size a.size_pos

lemma size_cuts (r : ℕ) :
    a.cuts.size r = a.nd / a.size + if r < a.nd % a.size then 1 else 0 :=
  size_partitionCuts a.size_pos r

lemma localNd_eq (rank : ℕ) : a.localNd rank = a.cuts.size rank := by
  rw [size_cuts, localNd]
  split_ifs <;> rfl

lemma tile_rows : Tile a.cuts a.countsRows a.displsRows :=
  tile_of_counts fun r _ => (a.size_cuts r).symm

lemma tile_entries : Tile (a.cuts.scale a.nens) a.counts a.displs :=
  tile_of_counts fun r _ => by rw [Cuts.size_scale, size_cuts]

/-! ### What the ranks have -/

lemma length_rows : a.rows.length = a.nd := List.length_ofFn

lemma length_row : ∀ row ∈ a.rows, row.length = a.nens := by
  intro row hrow
  obtain ⟨i, rfl⟩ := List.mem_ofFn.mp hrow
  exact List.length_ofFn

lemma length_flatten_rows : a.rows.flatten.length = a.nd * a.nens := by
  rw [length_flatten a.length_row, length_rows]

/-- A rank has the rows of its window. -/
def window (rank : ℕ) : List (List K) := slice a.rows (a.cuts.cut rank) (a.cuts.size rank)

lemma length_window {rank : ℕ} (hr : rank < a.size) :
    (a.window rank).length = a.cuts.size rank := by
  refine length_slice ?_
  rw [a.cuts.cut_add_size hr, a.length_rows]
  exact a.cuts.cut_le hr

lemma length_row_window {rank : ℕ} : ∀ row ∈ a.window rank, row.length = a.nens :=
  fun row hrow => a.length_row row (List.mem_of_mem_drop (List.mem_of_mem_take hrow))

lemma localX_eq {rank : ℕ} (hr : rank < a.size) : a.localX rank = some (a.window rank).flatten := by
  have hscatter := a.tile_entries.scatterv_eq a.length_flatten_rows hr
  rw [Cuts.size_scale, Cuts.cut_scale, slice_flatten a.length_row] at hscatter
  rw [localX, localNd_eq, hscatter, window]

/-- The windows, one after the other, are the matrix. -/
lemma flatMap_window : (List.range a.size).flatMap a.window = a.rows :=
  flatMap_slice a.cuts a.length_rows

variable [Field K]

lemma localMean_eq {rank : ℕ} (hr : rank < a.size) :
    a.localMean rank = some ((a.window rank).map fun row => row.sum / (a.nens : K)) := by
  rw [localMean, a.localX_eq hr, Option.map_some, a.localNd_eq, ← a.length_window hr,
    reshape_flatten a.length_row_window]

/-- What the root gathers. -/
lemma gatherv_localMean (behind : ℕ → K) :
    gatherv ((List.range a.nd).map behind) a.countsRows a.displsRows a.size a.localMean =
      some (a.rows.map fun row => row.sum / (a.nens : K)) := by
  rw [a.tile_rows.gatherv_eq (by simp) (fun _ hr => a.localMean_eq hr)
    fun r hr => by rw [List.length_map, a.length_window hr], ← List.map_flatMap, flatMap_window]

/-- **The means of the rows**, on the root of the communicator. -/
theorem gathersMeans : a.GathersMeans where
  scatter := ⟨_, a.tile_entries⟩
  gather := ⟨_, a.tile_rows⟩
  localX rank hr := by
    have hlen : (a.window rank).flatten.length = a.localNd rank * a.nens := by
      rw [length_flatten a.length_row_window, a.length_window hr, localNd_eq]
    refine ⟨_, a.localX_eq hr, hlen, ?_⟩
    rw [hlen, a.tile_entries.counts rank hr, Cuts.size_scale, localNd_eq]
  localMean rank hr := by
    have hlen : ((a.window rank).map fun row => row.sum / (a.nens : K)).length =
        a.localNd rank := by
      rw [List.length_map, a.length_window hr, localNd_eq]
    refine ⟨_, a.localMean_eq hr, hlen, ?_⟩
    rw [hlen, a.tile_rows.counts rank hr, localNd_eq]
  result behind rank _ := by
    have hmeans : (a.rows.map fun row => row.sum / (a.nens : K)) =
        List.ofFn fun i => (∑ j, a.X i j) / a.nens := by
      rw [rows, List.map_ofFn]
      exact congrArg List.ofFn (funext fun i => by rw [Function.comp_apply, List.sum_ofFn])
    rw [computeMeanMatrixFromRoot, gatherv_localMean, hmeans]
    rfl

end RootMatrix

end Icesee
