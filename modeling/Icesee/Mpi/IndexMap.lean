import Mathlib.Algebra.BigOperators.Ring.List
import Mathlib.Data.List.GetD
import Icesee.Lib.Keyed
import Icesee.Store.Handler

/-!
`icesee_get_index`: which rows of the state a rank has of each variable.

With `var_nd` every variable is cut into even blocks over the ranks, and the blocks of all
variables and ranks are the state (`varNd_partition`). Without it the ranks have parts of
the variables of equal sizes, as `dim_list` says. That list is cut at the number of
variables, so that a rank beyond it has no entry, and `equalSize_iff` says that this is what
can go wrong.
-/

namespace Icesee

open Keyed Tiling

/-- `vec_inputs`: the variables, by the names that are the keys of `index_map`. -/
structure VecInputs where
  names : List String
  nodup : names.Nodup

/-- `index_map`, and the number of indices that is returned with it. -/
structure IndexResult where
  indexMap : String → Option (List ℕ)
  localSize : ℕ

/-- `np.arange(start, end)`. -/
def arange (start stop : ℕ) : List ℕ := List.range' start (stop - start)

/-- The rank and the size of the communicator that the function works on. -/
def rankAndSize (comm : Option (ℕ × ℕ)) (evenDistribution : Bool) : ℕ × ℕ :=
  match comm with
  | none => (0, 1)
  | some rankSize => if evenDistribution then (0, 1) else rankSize

/-! ### Variables with sizes of their own -/

/-- `var_nd`: a dictionary, or a list along the variables. -/
inductive VarNd
  | dict (size : String → Option ℕ)
  | list (sizes : List ℕ)

/-- `nd_vars`. A missing key and a list of another length raise. -/
def VarNd.ndVars (vecInputs : List String) : VarNd → Option (List ℕ)
  | dict size => vecInputs.mapM size
  | list sizes => if sizes.length = vecInputs.length then some sizes else none

/-- `block_decomp`: start and count of the block of rank `r`. -/
def blockDecomp (n p r : ℕ) : ℕ × ℕ :=
  let q := n / p
  let rem := n % p
  if r < rem then (r * (q + 1), q + 1) else (rem * (q + 1) + (r - rem) * q, q)

/-- The loop over the variables, with `base_offsets` and `local_size_total`. -/
def varNdResult (vecInputs : List String) (ndVars : List ℕ) (rank nranks : ℕ) : IndexResult where
  indexMap := vecInputs.zipIdx.foldl (fun m p => Function.update m p.1 (some
    (let n := ndVars.getD p.2 0
     let g0 := (ndVars.take p.2).sum + (blockDecomp n nranks rank).1
     arange g0 (g0 + (blockDecomp n nranks rank).2)))) fun _ => none
  localSize := ((List.range vecInputs.length).map fun i =>
    (blockDecomp (ndVars.getD i 0) nranks rank).2).sum

/-- `icesee_get_index` with `var_nd`. What is raised is printed, and nothing is returned. -/
def getIndexVarNd (vecInputs : VecInputs) (varNd : VarNd) (comm : Option (ℕ × ℕ))
    (evenDistribution : Bool) : Option IndexResult :=
  let rankSize := rankAndSize comm evenDistribution
  (varNd.ndVars vecInputs.names).map fun ndVars =>
    varNdResult vecInputs.names ndVars rankSize.1 rankSize.2

/-! ### Variables of equal sizes -/

/-- What the function reads without `var_nd`. -/
structure EqualSizes where
  vecInputs : VecInputs
  vecInputsOld : List String
  nd : ℕ
  dimList : List ℕ

namespace EqualSizes

variable (kw : EqualSizes)

def lenVec : ℕ := kw.vecInputs.names.length

def hdim : ℕ := kw.nd / kw.lenVec

/-- `dim_list_param`, cut at the number of variables. -/
def dimListParam : List ℕ :=
  (kw.dimList.map fun d => d / kw.vecInputsOld.length).take kw.lenVec

/-- The loop over the variables. -/
def indexLoop (startIdx dim : ℕ) (names : List String) (m : String → Option (List ℕ))
    (varStart : ℕ) : (String → Option (List ℕ)) × ℕ :=
  names.foldl (fun (m, varStart) var =>
    let start := varStart + startIdx
    (Function.update m var (some (arange start (start + dim))), varStart + kw.hdim)) (m, varStart)

/-- `icesee_get_index` without `var_nd`. -/
def getIndex (comm : Option (ℕ × ℕ)) (evenDistribution : Bool) : Option IndexResult := do
  if kw.lenVec = 0 then none
  let rank := (rankAndSize comm evenDistribution).1
  let offsets := if comm = none ∨ evenDistribution then [0]
    else (List.range (kw.dimListParam.length + 1)).map fun r => (kw.dimListParam.take r).sum
  let dim ← kw.dimListParam[rank]?
  let startIdx ← offsets[rank]?
  let localSize ← kw.dimList[rank]?
  return ⟨(kw.indexLoop startIdx dim kw.vecInputs.names (fun _ => none) 0).1, localSize⟩

end EqualSizes

/-! ### What the ranks should have -/

/-- The indices of a variable. -/
def IndexResult.indices (x : IndexResult) (var : String) : List ℕ := (x.indexMap var).getD []

/-- The arrays of the ranks fill the block of every variable in rank order, and so those
of all variables are the rows of the state. -/
structure IndexPartition (vecInputs : VecInputs) (sizes : List ℕ) (p : ℕ) (x : ℕ → IndexResult) :
    Prop where
  block : ∀ i < vecInputs.names.length, (List.range p).flatMap
    (fun rank => (x rank).indices (vecInputs.names.getD i "")) =
      List.range' (sizes.take i).sum (sizes.getD i 0)
  state : (List.range vecInputs.names.length).flatMap (fun i => (List.range p).flatMap
    fun rank => (x rank).indices (vecInputs.names.getD i "")) = List.range sizes.sum

/-- The blocks of the variables are the state. -/
lemma IndexPartition.of_block {vecInputs : VecInputs} {sizes : List ℕ} {p : ℕ}
    {x : ℕ → IndexResult} (hlen : sizes.length = vecInputs.names.length)
    (hblock : ∀ i < vecInputs.names.length, (List.range p).flatMap
      (fun rank => (x rank).indices (vecInputs.names.getD i "")) =
        List.range' (sizes.take i).sum (sizes.getD i 0)) : IndexPartition vecInputs sizes p x where
  block := hblock
  state := by
    rw [List.range_eq_range' (n := sizes.sum), ← (Cuts.ofSizes sizes).flatMap_range' 0, ← hlen]
    refine List.flatMap_congr fun i hi => ?_
    rw [hlen] at hi
    rw [hblock i (List.mem_range.mp hi), Cuts.cut_ofSizes, Cuts.size_ofSizes, Nat.zero_add]

/-! ### Even blocks -/

/-- `block_decomp` has the windows of `partition_1d`. -/
lemma blockDecomp_eq {n p : ℕ} (hp : 0 < p) (r : ℕ) : blockDecomp n p r =
    ((partitionCuts n p hp).cut r, (partitionCuts n p hp).size r) := by
  rw [size_partitionCuts]
  simp only [blockDecomp, partitionCuts, partition1d]
  split_ifs with hr
  · rw [Nat.min_eq_left hr.le, Nat.mul_succ]
  · rw [Nat.min_eq_right (not_lt.mp hr)]
    refine Prod.ext ?_ rfl
    obtain ⟨k, hk⟩ := Nat.exists_eq_add_of_le (not_lt.mp hr)
    show n % p * (n / p + 1) + (r - n % p) * (n / p) = r * (n / p) + n % p
    rw [hk, Nat.add_sub_cancel_left, Nat.mul_succ, Nat.add_mul]
    omega

variable {vecInputs : VecInputs} {sizes : List ℕ} {p : ℕ}

/-- What a loop over the numbered variables leaves for variable `i`. -/
lemma indices_foldl (vecInputs : VecInputs) (f : ℕ → List ℕ) (localSize : ℕ) {i : ℕ}
    (hi : i < vecInputs.names.length) :
    IndexResult.indices ⟨vecInputs.names.zipIdx.foldl (fun m p =>
      Function.update m p.1 (some (f p.2))) fun _ => none, localSize⟩
        (vecInputs.names.getD i "") = f i := by
  have hkey : vecInputs.names[i]? = some (vecInputs.names.getD i "") := by
    rw [List.getD_eq_getElem _ _ hi, List.getElem?_eq_getElem hi]
  have hentry := foldl_update_zipIdx (f := fun i => some (f i)) vecInputs.nodup 0 (fun _ => none)
    hkey
  rw [IndexResult.indices]
  dsimp only
  rw [hentry, Nat.zero_add, Option.getD_some]

/-- What a rank has of variable `i`. -/
lemma indices_varNdResult (hp : 0 < p) (rank : ℕ) {i : ℕ} (hi : i < vecInputs.names.length) :
    (varNdResult vecInputs.names sizes rank p).indices (vecInputs.names.getD i "") =
      List.range' ((sizes.take i).sum + (partitionCuts (sizes.getD i 0) p hp).cut rank)
        ((partitionCuts (sizes.getD i 0) p hp).size rank) := by
  refine (indices_foldl vecInputs (fun i => arange
    ((sizes.take i).sum + (blockDecomp (sizes.getD i 0) p rank).1)
    ((sizes.take i).sum + (blockDecomp (sizes.getD i 0) p rank).1 +
      (blockDecomp (sizes.getD i 0) p rank).2)) _ hi).trans ?_
  rw [arange, Nat.add_sub_cancel_left, blockDecomp_eq hp]

/-- The arrays of the ranks fill the block of the variable. -/
lemma flatMap_indices_varNdResult (hp : 0 < p) {i : ℕ} (hi : i < vecInputs.names.length) :
    (List.range p).flatMap (fun rank => (varNdResult vecInputs.names sizes rank p).indices
      (vecInputs.names.getD i "")) = List.range' (sizes.take i).sum (sizes.getD i 0) := by
  rw [← (partitionCuts (sizes.getD i 0) p hp).flatMap_range' (sizes.take i).sum]
  exact List.flatMap_congr fun rank _ => indices_varNdResult hp rank hi

/-- The windows of two ranks differ by one row at most. -/
lemma size_partitionCuts_le_succ {n : ℕ} (hp : 0 < p) (r s : ℕ) :
    (partitionCuts n p hp).size r ≤ (partitionCuts n p hp).size s + 1 := by
  rw [size_partitionCuts, size_partitionCuts]
  split_ifs <;> omega

/-- `local_size_total` counts the indices. -/
lemma localSize_varNdResult (hp : 0 < p) (rank : ℕ) :
    (varNdResult vecInputs.names sizes rank p).localSize = (vecInputs.names.map fun var =>
      ((varNdResult vecInputs.names sizes rank p).indices var).length).sum := by
  refine congrArg List.sum (List.ext_getElem (by simp) fun i hi _ => ?_)
  have hi' : i < vecInputs.names.length := by simpa using hi
  have hlen : ((varNdResult vecInputs.names sizes rank p).indices
      (vecInputs.names.getD i "")).length = _ :=
    congrArg List.length (indices_varNdResult hp rank hi')
  rw [List.length_range', List.getD_eq_getElem _ _ hi'] at hlen
  rw [List.getElem_map, List.getElem_map, List.getElem_range, hlen, blockDecomp_eq hp]

/-- There is one size for each variable. -/
lemma VarNd.length_of_ndVars {names : List String} {varNd : VarNd}
    (h : varNd.ndVars names = some sizes) : sizes.length = names.length := by
  cases varNd with
  | dict size => exact (mapM_eq_some_iff.mp h).length_eq.symm
  | list l =>
      simp only [VarNd.ndVars] at h
      split at h
      · cases h
        assumption
      · cases h

/-- **The index map with sizes of the variables**: every rank gets one, the arrays fill the
blocks of the variables and the state, those of a variable differ by one index at most, and
the third result is the number of indices of the rank. -/
theorem varNd_partition (vecInputs : VecInputs) {varNd : VarNd} {sizes : List ℕ} {p : ℕ}
    (hsizes : varNd.ndVars vecInputs.names = some sizes) (hp : 1 ≤ p) :
    ∃ x : ℕ → IndexResult,
      (∀ rank < p, getIndexVarNd vecInputs varNd (some (rank, p)) false = some (x rank)) ∧
      IndexPartition vecInputs sizes p x ∧
      (∀ var ∈ vecInputs.names, ∀ r < p, ∀ s < p,
        ((x r).indices var).length ≤ ((x s).indices var).length + 1) ∧
      ∀ rank < p, (x rank).localSize =
        (vecInputs.names.map fun var => ((x rank).indices var).length).sum := by
  refine ⟨fun rank => varNdResult vecInputs.names sizes rank p, ?_, ?_, ?_, ?_⟩
  · intro rank _
    rw [getIndexVarNd, hsizes]
    rfl
  · exact IndexPartition.of_block (VarNd.length_of_ndVars hsizes) fun i hi =>
      flatMap_indices_varNdResult hp hi
  · intro var hvar r _ s _
    obtain ⟨i, hi, rfl⟩ := List.getElem_of_mem hvar
    rw [← List.getD_eq_getElem _ "" hi, indices_varNdResult hp r hi, indices_varNdResult hp s hi,
      List.length_range', List.length_range']
    exact size_partitionCuts_le_succ hp r s
  · exact fun rank _ => localSize_varNdResult hp rank

/-- Two variables of sizes 5 and 0, on three ranks. -/
theorem varNd_partition_fiveZero : ∃ x : ℕ → IndexResult,
    (∀ rank < 3, getIndexVarNd ⟨["h", "u"], by decide⟩ (.list [5, 0]) (some (rank, 3)) false =
      some (x rank)) ∧
    IndexPartition ⟨["h", "u"], by decide⟩ [5, 0] 3 x ∧
    (∀ var ∈ ["h", "u"], ∀ r < 3, ∀ s < 3,
      ((x r).indices var).length ≤ ((x s).indices var).length + 1) ∧
    ∀ rank < 3, (x rank).localSize =
      (["h", "u"].map fun var => ((x rank).indices var).length).sum :=
  varNd_partition ⟨["h", "u"], by decide⟩ rfl (by decide)

/-! ### Equal sizes -/

namespace EqualSizes

variable (kw : EqualSizes)

/-- Every rank gets an index map, and they fill the state in blocks of `nd/v` rows. -/
def ServesRanks (p : ℕ) : Prop :=
  ∃ x : ℕ → IndexResult, (∀ rank < p, kw.getIndex (some (rank, p)) false = some (x rank)) ∧
    IndexPartition kw.vecInputs (List.replicate kw.lenVec kw.hdim) p x ∧
    kw.lenVec * kw.hdim = kw.nd

/-- In the loop over the variables `var_start` is the number of the variable times `hdim`. -/
lemma indexLoop_fst (startIdx dim : ℕ) (names : List String) (m : String → Option (List ℕ))
    (k : ℕ) : (kw.indexLoop startIdx dim names m (k * kw.hdim)).1 =
      (names.zipIdx k).foldl (fun (m : String → Option (List ℕ)) p => Function.update m p.1
        (some (arange (p.2 * kw.hdim + startIdx) (p.2 * kw.hdim + startIdx + dim)))) m := by
  induction names generalizing m k with
  | nil => rfl
  | cons a names ih =>
      rw [List.zipIdx_cons, List.foldl_cons, ← ih, Nat.succ_mul]
      rfl

/-- What a rank gets that has an entry in `dim_list_param`. -/
lemma indices_indexLoop (startIdx dim localSize : ℕ) {i : ℕ} (hi : i < kw.lenVec) :
    IndexResult.indices
      ⟨(kw.indexLoop startIdx dim kw.vecInputs.names (fun _ => none) 0).1, localSize⟩
      (kw.vecInputs.names.getD i "") = List.range' (i * kw.hdim + startIdx) dim := by
  have hloop := kw.indexLoop_fst startIdx dim kw.vecInputs.names (fun _ => none) 0
  rw [Nat.zero_mul] at hloop
  rw [hloop, indices_foldl kw.vecInputs
    (fun i => arange (i * kw.hdim + startIdx) (i * kw.hdim + startIdx + dim)) _ hi, arange,
    Nat.add_sub_cancel_left]

/-- A rank beyond the entries of `dim_list_param` gets nothing. -/
lemma getIndex_eq_none {p rank : ℕ} (h : kw.lenVec ≤ rank) :
    kw.getIndex (some (rank, p)) false = none := by
  have hdim : kw.dimListParam[rank]? = none := by
    rw [List.getElem?_eq_none_iff, dimListParam, List.length_take]
    omega
  simp [getIndex, rankAndSize, hdim]

/-- The parts of the ranks, divided by the number of variables, make up one block. -/
lemma sum_map_div {l : List ℕ} {v : ℕ} (hv : 0 < v) (hdvd : ∀ d ∈ l, v ∣ d) :
    (l.map fun d => d / v).sum = l.sum / v := by
  refine (Nat.div_eq_of_eq_mul_left hv ?_).symm
  rw [← List.sum_map_mul_right, List.map_congr_left fun d hd => Nat.div_mul_cancel (hdvd d hd),
    List.map_id']

variable {kw}

/-- With a rank for every variable at most, all of them have an entry in `dim_list_param`. -/
lemma servesRanks_of_le (hv : 1 ≤ kw.lenVec) (hdvd : ∀ d ∈ kw.dimList, kw.lenVec ∣ d)
    (hnd : kw.nd = kw.dimList.sum) (hold : kw.vecInputsOld.length = kw.lenVec)
    (hle : kw.dimList.length ≤ kw.lenVec) : kw.ServesRanks kw.dimList.length := by
  -- no entry is cut off
  have hparam : kw.dimListParam = kw.dimList.map fun d => d / kw.lenVec := by
    rw [dimListParam, hold, List.take_of_length_le]
    rwa [List.length_map]
  have hlen : kw.dimListParam.length = kw.dimList.length := by rw [hparam, List.length_map]
  have hsum : kw.dimListParam.sum = kw.hdim := by
    rw [hparam, sum_map_div hv hdvd, hdim, hnd]
  refine ⟨fun rank => ⟨(kw.indexLoop (kw.dimListParam.take rank).sum (kw.dimListParam.getD rank 0)
    kw.vecInputs.names (fun _ => none) 0).1, kw.dimList.getD rank 0⟩, ?_, ?_, ?_⟩
  · intro rank hrank
    have hrank' : rank < kw.dimListParam.length := hlen ▸ hrank
    have hoffsets : ((List.range (kw.dimListParam.length + 1)).map
        fun r => (kw.dimListParam.take r).sum)[rank]? = some (kw.dimListParam.take rank).sum := by
      rw [List.getElem?_map, List.getElem?_range (by omega)]
      rfl
    simp [getIndex, rankAndSize, hoffsets, hrank, hrank', Nat.one_le_iff_ne_zero.mp hv]
  · -- the blocks of a variable lie behind each other, in the order of the ranks
    refine IndexPartition.of_block (by rw [List.length_replicate]; rfl) fun i hi => ?_
    rw [List.flatMap_congr fun rank _ => kw.indices_indexLoop _ _ _ hi]
    have hblock := (Cuts.ofSizes kw.dimListParam).flatMap_range' (i * kw.hdim)
    simp only [Cuts.cut_ofSizes, Cuts.size_ofSizes, hlen, hsum] at hblock
    rw [hblock]
    have hi' : i < kw.lenVec := hi
    rw [List.take_replicate, Nat.min_eq_left hi'.le, List.sum_replicate_nat,
      List.getD_replicate _ hi']
  · rw [hdim, hnd]
    exact Nat.mul_div_cancel' (List.dvd_sum hdvd)

/-- **The index map with equal sizes**: it serves all ranks exactly if there are not more of
them than variables. -/
theorem equalSize_iff {p : ℕ} (hv : 1 ≤ kw.lenVec) (hlen : kw.dimList.length = p)
    (hdvd : ∀ d ∈ kw.dimList, kw.lenVec ∣ d) (hnd : kw.nd = kw.dimList.sum)
    (hold : kw.vecInputsOld.length = kw.lenVec) : kw.ServesRanks p ↔ p ≤ kw.lenVec := by
  constructor
  · rintro ⟨x, hx, -⟩
    by_contra hlt
    have hnone := kw.getIndex_eq_none (p := p) le_rfl
    rw [hx kw.lenVec (not_le.mp hlt)] at hnone
    exact Option.some_ne_none _ hnone
  · rintro hle
    subst hlen
    exact servesRanks_of_le hv hdvd hnd hold hle

/-- Two variables, on two ranks. -/
theorem equalSize_two : ServesRanks ⟨⟨["h", "u"], by decide⟩, ["h", "u"], 6, [4, 2]⟩ 2 ↔ 2 ≤ 2 :=
  equalSize_iff (by decide) rfl (by decide) rfl rfl

/-- One variable, on two ranks: the second one gets nothing. -/
theorem not_servesRanks_two : ¬ ServesRanks ⟨⟨["h"], by decide⟩, ["h"], 2, [1, 1]⟩ 2 := by
  rintro ⟨x, hx, -⟩
  have hnone : getIndex ⟨⟨["h"], by decide⟩, ["h"], 2, [1, 1]⟩ (some (1, 2)) false = none :=
    getIndex_eq_none _ le_rfl
  rw [hx 1 (by decide)] at hnone
  exact Option.some_ne_none _ hnone

end EqualSizes

end Icesee
