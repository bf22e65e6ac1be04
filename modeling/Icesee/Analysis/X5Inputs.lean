import Icesee.Lib.Tiling
import Icesee.Store.Handler
import Mathlib.Data.Matrix.Mul
import Mathlib.LinearAlgebra.Matrix.Notation

/-!
`compute_X5_utils_`: the inputs of `X5` from row windows.

Every rank multiplies its columns of `H` with its rows of the observations, of the mean
and of the ensemble; `Allreduce` adds the products up. `allreduce_mulVec` and
`allreduce_mul` say that the sums are the full products, for every tiling of the rows,
and `x5Inputs_distributed` puts this together for the windows of `partition_1d`.
-/

namespace Icesee

open Tiling Matrix

variable {K : Type} [Ring K] {m nd N p : ℕ}

/-- `Allreduce` with `MPI.SUM`: every rank gets the sum over the ranks. -/
def allreduce {α : Type} [AddCommMonoid α] (x : Fin p → α) : α := ∑ rank, x rank

/-- What `compute_X5_utils_` returns. -/
structure X5Utils (K : Type) (m N : ℕ) where
  dprime : Matrix (Fin m) (Fin N) K
  eta : Matrix (Fin m) (Fin N) K
  haprime : Matrix (Fin m) (Fin N) K

section Ranks

variable (c : Cuts nd p)

/-- `H_matrix[:, nd_start_world:nd_end_world]`. -/
def localColumns (H : Matrix (Fin m) (Fin nd) K) (rank : Fin p) :
    Matrix (Fin m) (Fin (c.size rank)) K :=
  H.submatrix id (c.row rank)

/-- The rows `[nd_start_world, nd_end_world)` of a column. -/
def localPart (y : Fin nd → K) (rank : Fin p) : Fin (c.size rank) → K := y ∘ c.row rank

/-- `States_local`. -/
def localStates (A : Matrix (Fin nd) (Fin N) K) (rank : Fin p) :
    Matrix (Fin (c.size rank)) (Fin N) K :=
  A.submatrix (c.row rank) id

/-- `compute_X5_utils_` on every rank, from the operator, the column of the observations,
the column of the mean and the ensemble. -/
def computeX5Utils (H : Matrix (Fin m) (Fin nd) K) (syntheticObs ensMean : Fin nd → K)
    (states : Matrix (Fin nd) (Fin N) K) : Fin p → X5Utils K m N :=
  let dGlobal := allreduce fun rank => localColumns c H rank *ᵥ localPart c syntheticObs rank
  let hmeanGlobal := allreduce fun rank => localColumns c H rank *ᵥ localPart c ensMean rank
  let ha := allreduce fun rank => localColumns c H rank * localStates c states rank
  let eta := of fun i j => ha i j - hmeanGlobal i
  let dprime := of fun i _ => (dGlobal i - hmeanGlobal i) * 1
  fun _ => { dprime := dprime, eta := eta, haprime := eta }

/-- The local products with a column add up to the product. -/
lemma allreduce_mulVec (H : Matrix (Fin m) (Fin nd) K) (y : Fin nd → K) :
    allreduce (fun rank => localColumns c H rank *ᵥ localPart c y rank) = H *ᵥ y := by
  funext i
  rw [allreduce, Finset.sum_apply]
  exact c.sum_blocks fun j => H i j * y j

/-- The local products with the ensemble add up to the product. -/
lemma allreduce_mul (H : Matrix (Fin m) (Fin nd) K) (A : Matrix (Fin nd) (Fin N) K) :
    allreduce (fun rank => localColumns c H rank * localStates c A rank) = H * A := by
  ext i j
  rw [allreduce, Matrix.sum_apply, Matrix.mul_apply]
  exact c.sum_blocks fun l => H i l * A l j

/-- **The distributed inputs** do not depend on the tiling. -/
theorem computeX5Utils_eq (H : Matrix (Fin m) (Fin nd) K) (y mean : Fin nd → K)
    (A : Matrix (Fin nd) (Fin N) K) (rank : Fin p) :
    computeX5Utils c H y mean A rank =
      { dprime := of fun i _ => (H *ᵥ y) i - (H *ᵥ mean) i
        eta := of fun i j => (H * A) i j - (H *ᵥ mean) i
        haprime := of fun i j => (H * A) i j - (H *ᵥ mean) i } := by
  simp only [computeX5Utils, allreduce_mulVec, allreduce_mul, mul_one]

end Ranks

/-! ### The windows of `partition_1d` -/

/-- Neither window is longer than the other by more than one row. -/
lemma partition1d_balanced (n p : ℕ) (r s : ℕ) :
    (partition1d n p r).2 - (partition1d n p r).1 ≤
      (partition1d n p s).2 - (partition1d n p s).1 + 1 := by
  rw [partition1d_length, partition1d_length]
  split_ifs <;> omega

/-- Every row is in the window of exactly one rank. -/
lemma partition1d_existsUnique (hp : 0 < p) {i : ℕ} (hi : i < nd) :
    ∃! rank, rank < p ∧ (partition1d nd p rank).1 ≤ i ∧ i < (partition1d nd p rank).2 := by
  simp only [partition1d_snd]
  obtain ⟨r, hr, j, hj, hrj⟩ := (partitionCuts nd p hp).exists_block hi
  have hsize := fun s (hs : s < p) => (partitionCuts nd p hp).cut_add_size hs
  refine ⟨r, ⟨hr, ?_, ?_⟩, fun s ⟨hs, hlo, hhi⟩ => ?_⟩
  · change (partitionCuts nd p hp).cut r ≤ i
    omega
  · change i < (partitionCuts nd p hp).cut (r + 1)
    have := hsize r hr
    omega
  · change (partitionCuts nd p hp).cut s ≤ i at hlo
    change i < (partitionCuts nd p hp).cut (s + 1) at hhi
    have := hsize s hs
    exact (partitionCuts nd p hp).block_unique hs hr
      (i := i - (partitionCuts nd p hp).cut s) (by omega) hj (by omega)

/-- The windows tile the rows evenly, the three sums are the full products, and every rank
returns what a single rank returns. -/
structure X5InputsDistributed (hp : 0 < p) (H : Matrix (Fin m) (Fin nd) K)
    (y μ : Fin nd → K) (A : Matrix (Fin nd) (Fin N) K) : Prop where
  tiles : ∀ i < nd,
    ∃! rank, rank < p ∧ (partition1d nd p rank).1 ≤ i ∧ i < (partition1d nd p rank).2
  first : (partition1d nd p 0).1 = 0
  consecutive : ∀ rank, (partition1d nd p rank).2 = (partition1d nd p (rank + 1)).1
  last : (partition1d nd p (p - 1)).2 = nd
  balanced : ∀ r s, (partition1d nd p r).2 - (partition1d nd p r).1 ≤
    (partition1d nd p s).2 - (partition1d nd p s).1 + 1
  obsSum : allreduce (fun rank => localColumns (partitionCuts nd p hp) H rank *ᵥ
    localPart (partitionCuts nd p hp) y rank) = H *ᵥ y
  meanSum : allreduce (fun rank => localColumns (partitionCuts nd p hp) H rank *ᵥ
    localPart (partitionCuts nd p hp) μ rank) = H *ᵥ μ
  statesSum : allreduce (fun rank => localColumns (partitionCuts nd p hp) H rank *
    localStates (partitionCuts nd p hp) A rank) = H * A
  oneRank : ∀ rank, computeX5Utils (partitionCuts nd p hp) H y μ A rank =
    computeX5Utils (partitionCuts nd 1 Nat.one_pos) H y μ A 0
  eta : ∀ rank, (computeX5Utils (partitionCuts nd p hp) H y μ A rank).eta =
    H * A - vecMulVec (H *ᵥ μ) fun _ => 1
  dprime : ∀ rank j, (fun i => (computeX5Utils (partitionCuts nd p hp) H y μ A rank).dprime i j) =
    H *ᵥ y - H *ᵥ μ

/-- **Distributed inputs of `X5`**, for any number of rows and of ranks. -/
theorem x5Inputs_distributed (hp : 0 < p) (H : Matrix (Fin m) (Fin nd) K)
    (y μ : Fin nd → K) (A : Matrix (Fin nd) (Fin N) K) :
    X5InputsDistributed hp H y μ A where
  tiles _ hi := partition1d_existsUnique hp hi
  first := (partitionCuts nd p hp).cut_zero
  consecutive := partition1d_snd nd p
  last := by
    rw [partition1d_snd, Nat.sub_add_cancel hp]
    exact (partitionCuts nd p hp).cut_last
  balanced := partition1d_balanced nd p
  obsSum := allreduce_mulVec _ H y
  meanSum := allreduce_mulVec _ H μ
  statesSum := allreduce_mul _ H A
  oneRank _ := by rw [computeX5Utils_eq, computeX5Utils_eq]
  eta _ := by
    rw [computeX5Utils_eq]
    ext i j
    simp [vecMulVec_apply]
  dprime _ _ := by
    rw [computeX5Utils_eq]
    rfl

/-- Three ranks for two rows: the last one has none. -/
theorem x5Inputs_distributed_three_ranks :
    X5InputsDistributed (Nat.succ_pos 2) !![(1 : ℤ), 2] ![3, 4] ![1, 1] !![0, 2; 1, 1] :=
  x5Inputs_distributed (Nat.succ_pos 2) _ _ _ _

end Icesee
