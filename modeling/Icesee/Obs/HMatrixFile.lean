import Mathlib.Algebra.Order.BigOperators.Group.List
import Mathlib.Data.Finset.Sort
import Mathlib.Data.List.GetD
import Icesee.Lib.OneHot
import Icesee.Obs.Operator

/-!
The observation operator of the full-parallel mode as a file.

`EnKF_fully_parallel_IO.H_matrix` writes `H` block of rows by block of rows, and within a
block one column chunk after the other; `UtilsFunctions.H_matrix` builds it in memory.
The index map is arbitrary here, and a variable may be observed more than once.
`streamedHMatrix_spec` says that what is written is one-hot, for all chunk parameters,
and `streamed_iff` when it is the matrix of the other function: only a mask of `"bed"`
itself is applied, one of another name of the bed is not. For the index map of a state
the indices are the entries of `fullHMatrix` (`streamedIndices_ofSetup`).
-/

namespace Icesee

open OneHot

/-! ### The two functions -/

/-- What the functions read: `nd`, `indx_map`, the observed variables, the bed masks, and
of the writer `H_row_chunk`, `H_col_chunk` and `H_write_block_rows`. -/
structure HInputs where
  nd : ℕ
  indxMap : String → Option (List ℕ)
  observed : List String
  bedMaskMap : String → Option (List Bool)
  hRowChunk : Option ℕ
  hColChunk : Option ℕ
  hWriteBlockRows : Option ℕ

/-- A matrix with its shape. -/
structure HMatrix where
  m : ℕ
  nd : ℕ
  entry : ℕ → ℕ → ℚ

/-- `idx[mask]`. -/
def applyMask (idx : List ℕ) (mask : List Bool) : List ℕ :=
  ((idx.zip mask).filter fun p => p.2).map Prod.fst

/-- `idx[mask]` with the check of the sizes, where there is a mask. -/
def maskIndices (mask : Option (List Bool)) (idx : List ℕ) : Except OperatorError (List ℕ) :=
  match mask with
  | some mask => if mask.length ≠ idx.length then throw .valueError else return applyMask idx mask
  | none => return idx

namespace HInputs

variable (x : HInputs)

/-- `np.asarray(indx_map[key])`. -/
def indices (key : String) : Except OperatorError (List ℕ) :=
  match x.indxMap key with
  | some idx => return idx
  | none => throw .keyError

/-- The rows of one observed variable, masked if the mask of its name applies. -/
def keyIndices (applies : String → Bool) (key : String) : Except OperatorError (List ℕ) := do
  let idx ← x.indices key
  if applies key then maskIndices (x.bedMaskMap key) idx else return idx

/-- In `UtilsFunctions.H_matrix`, `km` being `None`, every name of the bed is masked. -/
def utilsKeyIndices (key : String) : Except OperatorError (List ℕ) :=
  x.keyIndices ObsSetup.keyIsBed key

/-- `UtilsFunctions.H_matrix`. -/
def utilsHMatrix : Except OperatorError HMatrix := do
  let obsIndices ← Keyed.collect x.utilsKeyIndices x.observed
  if obsIndices.length = 0 then return ⟨0, x.nd, fun _ _ => 0⟩
  if obsIndices.any fun i => x.nd ≤ i then throw .valueError
  return ⟨obsIndices.length, x.nd, fun r c => if obsIndices[r]? = some c then 1 else 0⟩

/-- In `EnKF_fully_parallel_IO.H_matrix` it is `key == "bed"`. -/
def streamedKeyIndices (key : String) : Except OperatorError (List ℕ) :=
  x.keyIndices (fun key => key = "bed") key

/-- `obs_indices`, with the two checks that follow. -/
def streamedIndices : Except OperatorError (List ℕ) := do
  let obsIndices ← Keyed.collect x.streamedKeyIndices x.observed
  if obsIndices.length = 0 then throw .valueError
  if obsIndices.any fun i => x.nd ≤ i then throw .valueError
  return obsIndices

/-- The rows of a block in one column chunk, `buf` being the part of their rows there. -/
def writeChunk (colChunk r0 : ℕ) (cols : List ℕ) (D : ℕ → ℕ → ℚ) (cid : ℕ) : ℕ → ℕ → ℚ :=
  let c0 := cid * colChunk
  let c1 := min x.nd (c0 + colChunk)
  let rowsSub := (List.range cols.length).filter fun i => cols.getD i 0 / colChunk = cid
  let localCols := rowsSub.map fun i => cols.getD i 0 - c0
  let buf : ℕ → ℕ → ℚ := fun ii c => if localCols[ii]? = some c then 1 else 0
  rowsSub.zipIdx.foldl (fun D p => setSegment D (r0 + p.1) c0 c1 (buf p.2)) D

/-- The block of rows that begins at `r0`. -/
def writeBlock (obsIndices : List ℕ) (colChunk blockRows : ℕ) (D : ℕ → ℕ → ℚ) (r0 : ℕ) :
    ℕ → ℕ → ℚ :=
  let r1 := min obsIndices.length (r0 + blockRows)
  let cols := (obsIndices.drop r0).take (r1 - r0)
  let chunkIds := cols.map fun c => c / colChunk
  chunkIds.toFinset.sort.foldl (x.writeChunk colChunk r0 cols) D

/-- `range(0, m, block_rows)`. -/
def blockStarts (m blockRows : ℕ) : List ℕ :=
  (List.range ((m + blockRows - 1) / blockRows)).map fun b => b * blockRows

/-- `f.create_dataset("H", shape, chunks, fillvalue=0.0)`: a chunk has to fit into the shape. -/
def createDataset (m nd rowChunk colChunk : ℕ) : Except OperatorError (ℕ → ℕ → ℚ) :=
  if m < rowChunk ∨ nd < colChunk then throw .valueError else return fun _ _ => 0

/-- The three parameters with their defaults, clamped; the default of the third one is the
first one as it was given. -/
def rowChunk (m : ℕ) : ℕ := max 1 (min (x.hRowChunk.getD (min 512 m)) m)

def colChunk : ℕ := max 1 (min (x.hColChunk.getD (min 2048 x.nd)) x.nd)

def blockRows (m : ℕ) : ℕ :=
  max 1 (min (x.hWriteBlockRows.getD (x.hRowChunk.getD (min 512 m))) m)

/-- `EnKF_fully_parallel_IO.H_matrix`: the datasets `"obs_indices"` and `"H"`. -/
def streamedHMatrix : Except OperatorError (List ℕ × HMatrix) := do
  let obsIndices ← x.streamedIndices
  let m := obsIndices.length
  let dset ← createDataset m x.nd (x.rowChunk m) x.colChunk
  return (obsIndices, ⟨m, x.nd, (blockStarts m (x.blockRows m)).foldl
    (x.writeBlock obsIndices x.colChunk (x.blockRows m)) dset⟩)

end HInputs

/-! ### What is written -/

namespace HInputs

variable {x : HInputs} {obsIndices cols : List ℕ} {colChunk blockRows r0 : ℕ}

/-- One row of a chunk: its part of the buffer has the one where the row has it. -/
lemma isOneHot_setRow {colOf : ℕ → ℕ} {W : Set ℕ} {D : ℕ → ℕ → ℚ} {rowsSub : List ℕ}
    {nd cid ii i : ℕ} (hpos : 0 < colChunk) (hget : rowsSub[ii]? = some i)
    (hcol : colOf (r0 + i) = cols.getD i 0) (hnd : cols.getD i 0 < nd)
    (hcid : cols.getD i 0 / colChunk = cid) (h : IsOneHot colOf W D) :
    IsOneHot colOf (W ∪ {r0 + i}) (setSegment D (r0 + i) (cid * colChunk)
      (min nd (cid * colChunk + colChunk)) fun c : ℕ =>
        if (rowsSub.map fun i => cols.getD i 0 - cid * colChunk)[ii]? = some c then (1 : ℚ)
        else 0) := by
  have hlow : cid * colChunk ≤ cols.getD i 0 := by
    rw [← hcid]
    exact Nat.div_mul_le_self _ _
  have hhigh : cols.getD i 0 < cid * colChunk + colChunk := by
    rw [← hcid]
    exact Nat.lt_div_mul_add hpos
  rw [Set.union_singleton]
  refine h.setSegment (hcol ▸ hlow) (hcol ▸ lt_min hnd hhigh) ?_ fun c hc => ?_
  · rw [List.getElem?_map, hget, hcol]
    exact if_pos rfl
  · rw [List.getElem?_map, hget]
    rw [hcol] at hc
    exact if_neg fun heq => hc (Option.some.inj heq).symm

/-- A chunk completes the rows of the block that have their one there. -/
lemma isOneHot_writeChunk {colOf : ℕ → ℕ} {W : Set ℕ} {D : ℕ → ℕ → ℚ} (hpos : 0 < colChunk)
    (hcols : ∀ i < cols.length, colOf (r0 + i) = cols.getD i 0 ∧ cols.getD i 0 < x.nd) (cid : ℕ)
    (h : IsOneHot colOf W D) :
    IsOneHot colOf (W ∪ {r | ∃ i < cols.length, r = r0 + i ∧ cols.getD i 0 / colChunk = cid})
      (x.writeChunk colChunk r0 cols D cid) := by
  set rowsSub := (List.range cols.length).filter fun i => cols.getD i 0 / colChunk = cid
    with hrows
  have hmem : ∀ i, i ∈ rowsSub ↔ i < cols.length ∧ cols.getD i 0 / colChunk = cid := by
    intro i
    simp [hrows]
  -- one turn of the loop sets the row of one observation
  have hturn : ∀ p ∈ rowsSub.zipIdx, ∀ W D, IsOneHot colOf W D →
      IsOneHot colOf (W ∪ {r0 + p.1}) (setSegment D (r0 + p.1) (cid * colChunk)
        (min x.nd (cid * colChunk + colChunk)) fun c : ℕ =>
          if (rowsSub.map fun i => cols.getD i 0 - cid * colChunk)[p.2]? = some c then (1 : ℚ)
          else 0) := by
    intro p hp W D hD
    have hget : rowsSub[p.2]? = some p.1 := List.mem_zipIdx_iff_getElem?.mp hp
    obtain ⟨hi, hcid⟩ := (hmem p.1).mp (List.mem_of_getElem? hget)
    obtain ⟨hcol, hnd⟩ := hcols p.1 hi
    exact isOneHot_setRow hpos hget hcol hnd hcid hD
  have hall := h.foldl hturn
  -- the rows of all turns
  have hset : W ∪ {r | ∃ p ∈ rowsSub.zipIdx, r ∈ ({r0 + p.1} : Set ℕ)} =
      W ∪ {r | ∃ i < cols.length, r = r0 + i ∧ cols.getD i 0 / colChunk = cid} := by
    congr 1
    ext r
    constructor
    · rintro ⟨p, hp, hr⟩
      obtain ⟨hi, hcid⟩ := (hmem p.1).mp
        (List.mem_of_getElem? (List.mem_zipIdx_iff_getElem?.mp hp))
      exact ⟨p.1, hi, hr, hcid⟩
    · rintro ⟨i, hi, hr, hcid⟩
      obtain ⟨k, hk⟩ := List.getElem?_of_mem ((hmem i).mpr ⟨hi, hcid⟩)
      exact ⟨(i, k), List.mem_zipIdx_iff_getElem?.mpr hk, hr⟩
  rwa [hset] at hall

/-- A block completes its rows. -/
lemma isOneHot_writeBlock {W : Set ℕ} {D : ℕ → ℕ → ℚ} (hpos : 0 < colChunk)
    (hlt : ∀ c ∈ obsIndices, c < x.nd) (blockRows r0 : ℕ)
    (h : IsOneHot (fun r => obsIndices.getD r 0) W D) :
    IsOneHot (fun r => obsIndices.getD r 0)
      (W ∪ {r | r0 ≤ r ∧ r < min obsIndices.length (r0 + blockRows)})
      (x.writeBlock obsIndices colChunk blockRows D r0) := by
  set cols := (obsIndices.drop r0).take (min obsIndices.length (r0 + blockRows) - r0) with hcols
  have hlen : cols.length = min obsIndices.length (r0 + blockRows) - r0 := by
    rw [hcols, List.length_take, List.length_drop]
    omega
  -- the columns of the block are those of its part of the indices
  have hentry : ∀ i < cols.length,
      obsIndices.getD (r0 + i) 0 = cols.getD i 0 ∧ cols.getD i 0 < x.nd := by
    intro i hi
    have hget : cols.getD i 0 = obsIndices.getD (r0 + i) 0 := by
      rw [List.getD_eq_getElem _ _ hi, List.getD_eq_getElem _ _ (by omega)]
      simp [hcols]
    have hmem : cols.getD i 0 ∈ obsIndices := by
      rw [hget, List.getD_eq_getElem _ _ (by omega)]
      exact List.getElem_mem _
    exact ⟨hget.symm, hlt _ hmem⟩
  have hall := h.foldl (l := (cols.map fun c => c / colChunk).toFinset.sort)
    fun cid _ W D hD => isOneHot_writeChunk (x := x) hpos hentry cid hD
  -- every row of the block is in one of its chunks
  have hset : W ∪ {r | ∃ cid ∈ (cols.map fun c => c / colChunk).toFinset.sort,
      r ∈ {r | ∃ i < cols.length, r = r0 + i ∧ cols.getD i 0 / colChunk = cid}} =
      W ∪ {r | r0 ≤ r ∧ r < min obsIndices.length (r0 + blockRows)} := by
    congr 1
    ext r
    constructor
    · rintro ⟨cid, -, i, hi, rfl, -⟩
      exact ⟨Nat.le_add_right r0 i, by omega⟩
    · rintro ⟨hle, hr⟩
      obtain ⟨i, rfl⟩ := Nat.exists_eq_add_of_le hle
      have hi : i < cols.length := by omega
      refine ⟨cols.getD i 0 / colChunk, ?_, i, hi, rfl, rfl⟩
      rw [Finset.mem_sort, List.mem_toFinset, List.getD_eq_getElem _ _ hi]
      exact List.mem_map_of_mem (List.getElem_mem hi)
  rwa [hset] at hall

/-- The blocks reach every row. -/
lemma exists_blockStart {m r : ℕ} (hpos : 0 < blockRows) (hr : r < m) :
    ∃ r0 ∈ blockStarts m blockRows, r0 ≤ r ∧ r < r0 + blockRows := by
  refine ⟨r / blockRows * blockRows, List.mem_map_of_mem (List.mem_range.mpr ?_),
    Nat.div_mul_le_self r blockRows, Nat.lt_div_mul_add hpos⟩
  rw [Nat.div_lt_iff_lt_mul hpos]
  have hceil := Nat.lt_div_mul_add (a := m + blockRows - 1) hpos
  omega

/-- All blocks: every row has its one. -/
lemma isOneHot_writeBlocks (hpos : 0 < colChunk) (hrows : 0 < blockRows)
    (hlt : ∀ c ∈ obsIndices, c < x.nd) :
    IsOneHot (fun r => obsIndices.getD r 0) {r | r < obsIndices.length}
      ((blockStarts obsIndices.length blockRows).foldl (x.writeBlock obsIndices colChunk blockRows)
        fun _ _ => 0) := by
  have hall := (IsOneHot.empty fun r => obsIndices.getD r 0).foldl
    (l := blockStarts obsIndices.length blockRows)
    fun r0 _ W D hD => isOneHot_writeBlock (x := x) hpos hlt blockRows r0 hD
  have hset : ∅ ∪ {r | ∃ r0 ∈ blockStarts obsIndices.length blockRows,
      r ∈ {r | r0 ≤ r ∧ r < min obsIndices.length (r0 + blockRows)}} =
      {r | r < obsIndices.length} := by
    rw [Set.empty_union]
    ext r
    refine ⟨fun ⟨r0, _, _, hr⟩ => lt_of_lt_of_le hr (min_le_left _ _), fun hr => ?_⟩
    obtain ⟨r0, hmem, hle, hblock⟩ := exists_blockStart hrows hr
    exact ⟨r0, hmem, hle, lt_min hr hblock⟩
  rwa [hset] at hall

/-- The chunks fit into the shape. -/
lemma createDataset_clamped {m : ℕ} (hm : 0 < m) (hnd : 0 < x.nd) :
    createDataset m x.nd (x.rowChunk m) x.colChunk = .ok fun _ _ => 0 := by
  have hrow : x.rowChunk m ≤ m := max_le hm (min_le_right _ _)
  have hcol : x.colChunk ≤ x.nd := max_le hnd (min_le_right _ _)
  rw [createDataset, if_neg (by omega)]
  rfl

/-- The checks of `obs_indices`. -/
lemma streamedIndices_eq_ok : x.streamedIndices = .ok obsIndices ↔
    Keyed.collect x.streamedKeyIndices x.observed = .ok obsIndices ∧ 0 < obsIndices.length ∧
      ∀ c ∈ obsIndices, c < x.nd := by
  have hany : ∀ l : List ℕ, ¬ (l.any fun i => x.nd ≤ i) = true ↔ ∀ c ∈ l, c < x.nd := by
    simp
  rw [streamedIndices, Keyed.bind_eq_ok]
  constructor
  · rintro ⟨l, hl, hret⟩
    obtain ⟨hne, hret⟩ := Keyed.check_eq_ok.mp hret
    obtain ⟨hlt, hret⟩ := Keyed.check_eq_ok.mp hret
    obtain rfl := Except.ok.inj hret
    exact ⟨hl, Nat.pos_of_ne_zero hne, (hany l).mp hlt⟩
  · rintro ⟨hl, hpos, hlt⟩
    exact ⟨obsIndices, hl, Keyed.check_eq_ok.mpr ⟨hpos.ne', Keyed.check_eq_ok.mpr
      ⟨(hany obsIndices).mpr hlt, rfl⟩⟩⟩

/-- **The writer**: whenever the indices pass their checks it writes, and every row `r` of
what it writes has a single one, in column `obs_indices[r]`. -/
theorem streamedHMatrix_spec (h : x.streamedIndices = .ok obsIndices) :
    ∃ H, x.streamedHMatrix = .ok (obsIndices, H) ∧ H.m = obsIndices.length ∧ H.nd = x.nd ∧
      IsOneHot (fun r => obsIndices.getD r 0) {r | r < obsIndices.length} H.entry := by
  obtain ⟨-, hm, hlt⟩ := streamedIndices_eq_ok.mp h
  have hnd : 0 < x.nd := Nat.zero_lt_of_lt (hlt _ (List.getElem_mem hm))
  have hone := isOneHot_writeBlocks (x := x) (lt_max_of_lt_left Nat.one_pos : 0 < x.colChunk)
    (lt_max_of_lt_left Nat.one_pos : 0 < x.blockRows obsIndices.length) hlt
  refine ⟨⟨obsIndices.length, x.nd, _⟩, ?_, rfl, rfl, hone⟩
  rw [streamedHMatrix, h]
  show (createDataset _ _ _ _ >>= _) = _
  rw [createDataset_clamped hm hnd]
  rfl

end HInputs

/-! ### The masks of the two functions -/

lemma length_applyMask_le (idx : List ℕ) (mask : List Bool) :
    (applyMask idx mask).length ≤ idx.length := by
  rw [applyMask, List.length_map]
  refine (List.length_filter_le _ _).trans ?_
  rw [List.length_zip]
  exact min_le_left _ _

/-- A mask of the right size keeps the number of indices only if it is true everywhere. -/
lemma length_applyMask_eq_iff {idx : List ℕ} {mask : List Bool} (hlen : mask.length = idx.length) :
    (applyMask idx mask).length = idx.length ↔ ∀ b ∈ mask, b = true := by
  have hzip : (idx.zip mask).length = idx.length := by rw [List.length_zip, hlen, min_self]
  rw [applyMask, List.length_map, ← hzip, List.length_filter_eq_length_iff]
  refine ⟨fun h b hb => ?_, fun h p hp => h p.2 (List.of_mem_zip hp).2⟩
  rw [← List.map_snd_zip hlen.le] at hb
  obtain ⟨p, hp, rfl⟩ := List.mem_map.mp hb
  exact h p hp

/-- And then it keeps the indices. -/
lemma applyMask_of_all {idx : List ℕ} {mask : List Bool} (hlen : mask.length = idx.length)
    (h : ∀ b ∈ mask, b = true) : applyMask idx mask = idx := by
  rw [applyMask, List.filter_eq_self.mpr fun p hp => h p.2 (List.of_mem_zip hp).2,
    List.map_fst_zip hlen.ge]

/-- `idx[mask]`, where there is a mask. -/
def masked (mask : Option (List Bool)) (idx : List ℕ) : List ℕ :=
  match mask with
  | some mask => applyMask idx mask
  | none => idx

lemma maskIndices_eq_ok {mask : Option (List Bool)} {idx l : List ℕ} :
    maskIndices mask idx = .ok l ↔
      (∀ b, mask = some b → b.length = idx.length) ∧ masked mask idx = l := by
  rcases mask with _ | mask
  · simp [maskIndices, masked, pure, Except.pure]
  · rw [maskIndices]
    split_ifs with hlen
    · exact iff_of_false nofun fun h => hlen (h.1 mask rfl)
    · simp [masked, pure, Except.pure, not_not.mp hlen]

namespace HInputs

variable (x : HInputs)

/-- The indices of a variable, if it has any. -/
def idxOf (key : String) : List ℕ := (x.indxMap key).getD []

/-- A variable contributes: it is in the index map, and a mask that applies has its size. -/
def Valid (applies : String → Bool) (key : String) : Prop :=
  (x.indxMap key).isSome ∧
    (applies key → ∀ mask, x.bedMaskMap key = some mask → mask.length = (x.idxOf key).length)

/-- What it contributes. -/
def selected (applies : String → Bool) (key : String) : List ℕ :=
  if applies key then masked (x.bedMaskMap key) (x.idxOf key) else x.idxOf key

variable {x} {applies : String → Bool} {key : String} {l : List ℕ}

lemma keyIndices_eq_ok :
    x.keyIndices applies key = .ok l ↔ x.Valid applies key ∧ x.selected applies key = l := by
  rw [keyIndices, indices, Valid, selected, idxOf]
  rcases x.indxMap key with _ | idx
  · exact iff_of_false Keyed.throw_bind_ne_ok fun h => Bool.false_ne_true h.1.1
  · show (if applies key then maskIndices (x.bedMaskMap key) idx else pure idx) = .ok l ↔ _
    cases happ : applies key
    · simp [pure, Except.pure]
    · simpa using maskIndices_eq_ok

/-- The loop over the observed variables. -/
lemma collect_keyIndices_eq_ok : Keyed.collect (x.keyIndices applies) x.observed = .ok l ↔
    (∀ key ∈ x.observed, x.Valid applies key) ∧ x.observed.flatMap (x.selected applies) = l := by
  rw [Keyed.collect_eq_ok]
  constructor
  · rintro ⟨g, hg, rfl⟩
    have hkey := fun key hkey => keyIndices_eq_ok.mp (hg key hkey)
    exact ⟨fun key hmem => (hkey key hmem).1,
      List.flatMap_congr fun key hmem => (hkey key hmem).2⟩
  · rintro ⟨hvalid, rfl⟩
    exact ⟨x.selected applies, fun key hmem => keyIndices_eq_ok.mpr ⟨hvalid key hmem, rfl⟩, rfl⟩

/-! ### When the matrices agree -/

/-- The indices that the two functions collect. -/
def streamedList (x : HInputs) : List ℕ := x.observed.flatMap (x.selected fun key => key = "bed")

def utilsList (x : HInputs) : List ℕ := x.observed.flatMap (x.selected ObsSetup.keyIsBed)

/-- The writer gets to the file: every observed variable contributes, some index is
selected, and all of them are columns. -/
def Writes (x : HInputs) : Prop :=
  (∀ key ∈ x.observed, x.Valid (fun key => key = "bed") key) ∧ 0 < x.streamedList.length ∧
    ∀ c ∈ x.streamedList, c < x.nd

/-- What is written has a single one in every row `r`, in column `obs_indices[r]`, and is
the matrix of `UtilsFunctions.H_matrix`. -/
def MatchesDense (x : HInputs) : Prop :=
  ∀ obsIndices H, x.streamedHMatrix = .ok (obsIndices, H) →
    H.m = obsIndices.length ∧ H.nd = x.nd ∧
      IsOneHot (fun r => obsIndices.getD r 0) {r | r < obsIndices.length} H.entry ∧
      x.utilsHMatrix = .ok H

/-- A mask of an observed variable with another name of the bed masks nothing. -/
def OtherMasksTrue (x : HInputs) : Prop :=
  ∀ key ∈ x.observed, ObsSetup.keyIsBed key → key ≠ "bed" → ∀ mask, x.bedMaskMap key = some mask →
    mask.length = (x.idxOf key).length ∧ ∀ b ∈ mask, b = true

lemma streamedIndices_eq_ok_iff : x.streamedIndices = .ok l ↔ x.Writes ∧ x.streamedList = l := by
  have hcollect : Keyed.collect x.streamedKeyIndices x.observed = .ok l ↔
      (∀ key ∈ x.observed, x.Valid (fun key => key = "bed") key) ∧ x.streamedList = l :=
    collect_keyIndices_eq_ok
  rw [streamedIndices_eq_ok, hcollect]
  constructor
  · rintro ⟨⟨hvalid, rfl⟩, hpos, hlt⟩
    exact ⟨⟨hvalid, hpos, hlt⟩, rfl⟩
  · rintro ⟨⟨hvalid, hpos, hlt⟩, rfl⟩
    exact ⟨⟨hvalid, rfl⟩, hpos, hlt⟩

/-- The file is written whenever the inputs pass the checks. -/
lemma streamedHMatrix_ok_iff : (∃ out, x.streamedHMatrix = .ok out) ↔ x.Writes := by
  refine ⟨fun ⟨out, hout⟩ => ?_, fun h => ?_⟩
  · obtain ⟨obsIndices, hind, -⟩ := Keyed.bind_eq_ok.mp hout
    exact (streamedIndices_eq_ok_iff.mp hind).1
  · obtain ⟨H, hH, -⟩ := streamedHMatrix_spec (streamedIndices_eq_ok_iff.mpr ⟨h, rfl⟩)
    exact ⟨_, hH⟩

/-- The matrix that is built in memory. -/
lemma utilsHMatrix_eq_ok {H : HMatrix} : x.utilsHMatrix = .ok H ↔
    (∀ key ∈ x.observed, x.Valid ObsSetup.keyIsBed key) ∧ (∀ c ∈ x.utilsList, c < x.nd) ∧
      (⟨x.utilsList.length, x.nd, fun r c => if x.utilsList[r]? = some c then 1 else 0⟩ :
        HMatrix) = H := by
  have hcollect : ∀ l, Keyed.collect x.utilsKeyIndices x.observed = .ok l ↔
      (∀ key ∈ x.observed, x.Valid ObsSetup.keyIsBed key) ∧ x.utilsList = l :=
    fun l => collect_keyIndices_eq_ok
  rw [utilsHMatrix, Keyed.bind_eq_ok]
  simp only [hcollect, and_assoc, exists_and_left, exists_eq_left']
  refine and_congr_right fun _ => ?_
  by_cases hnil : x.utilsList = []
  · simp [hnil, pure, Except.pure]
  · rw [if_neg (by simpa using hnil), Keyed.check_eq_ok]
    simp [pure, Except.pure]

lemma isOneHot_dense (l : List ℕ) : IsOneHot (fun r => l.getD r 0) {r | r < l.length}
    fun r c => if l[r]? = some c then (1 : ℚ) else 0 := by
  refine ⟨fun r hr => ?_, fun r c hrc => if_neg fun heq => ?_⟩
  · have hr' : r < l.length := hr
    rw [List.getElem?_eq_getElem hr', List.getD_eq_getElem _ _ hr']
    exact if_pos rfl
  · obtain ⟨hr, hc⟩ := List.getElem?_eq_some_iff.mp heq
    refine hrc hr ?_
    rw [List.getD_eq_getElem _ _ hr, hc]

lemma keyIsBed_bed : ObsSetup.keyIsBed "bed" = true := by decide +kernel

/-- The variable `"bed"` is treated alike. -/
lemma selected_bed : x.selected ObsSetup.keyIsBed "bed" =
    x.selected (fun key => key = "bed") "bed" := by
  rw [selected, selected, if_pos keyIsBed_bed, if_pos (decide_eq_true rfl)]

/-- The writer does not mask any other variable. -/
lemma selected_of_ne (hbed : key ≠ "bed") :
    x.selected (fun key => key = "bed") key = x.idxOf key := if_neg (by simpa using hbed)

/-- A mask only takes indices away. -/
lemma length_selected_le (key : String) : (x.selected ObsSetup.keyIsBed key).length ≤
    (x.selected (fun key => key = "bed") key).length := by
  by_cases hbed : key = "bed"
  · rw [hbed, selected_bed]
  · rw [selected_of_ne hbed, selected]
    split
    · cases x.bedMaskMap key with
      | none => exact Nat.le_refl _
      | some mask => exact length_applyMask_le _ _
    · exact Nat.le_refl _

/-- Without other masks the two functions treat every variable alike. -/
lemma OtherMasksTrue.agree (h : x.OtherMasksTrue) (hkey : key ∈ x.observed)
    (hvalid : x.Valid (fun key => key = "bed") key) : x.Valid ObsSetup.keyIsBed key ∧
      x.selected ObsSetup.keyIsBed key = x.selected (fun key => key = "bed") key := by
  by_cases hbed : key = "bed"
  · subst hbed
    exact ⟨⟨hvalid.1, fun _ => hvalid.2 (decide_eq_true rfl)⟩, selected_bed⟩
  · refine ⟨⟨hvalid.1, fun happ mask hmask => (h key hkey happ hbed mask hmask).1⟩, ?_⟩
    rw [selected_of_ne hbed, selected]
    split
    · rename_i happ
      cases hmask : x.bedMaskMap key with
      | none => rfl
      | some mask =>
          obtain ⟨hlen, hall⟩ := h key hkey happ hbed mask hmask
          exact applyMask_of_all hlen hall
    · rfl

/-- If the two functions select equally many indices, no other mask takes any away. -/
lemma otherMasksTrue_of_length (hvalid : ∀ key ∈ x.observed, x.Valid ObsSetup.keyIsBed key)
    (hlen : x.streamedList.length = x.utilsList.length) : x.OtherMasksTrue := by
  intro key hkey happ hbed mask hmask
  have hsize := (hvalid key hkey).2 happ mask hmask
  refine ⟨hsize, (length_applyMask_eq_iff hsize).mp ?_⟩
  by_contra hne
  have hlt : (x.selected ObsSetup.keyIsBed key).length <
      (x.selected (fun key => key = "bed") key).length := by
    rw [selected_of_ne hbed, selected, if_pos happ, hmask]
    exact lt_of_le_of_ne (length_applyMask_le _ _) hne
  have hsum := List.sum_lt_sum _ _ (fun key _ => length_selected_le (x := x) key) ⟨key, hkey, hlt⟩
  rw [streamedList, utilsList, List.length_flatMap, List.length_flatMap] at hlen
  omega

/-- **The streamed operator** is written exactly if the inputs pass the checks, and it is
the operator of `UtilsFunctions` if and only if, whenever it is written, no mask of another
name of the bed masks anything: only a mask of `"bed"` is applied. -/
theorem streamed_iff (x : HInputs) :
    ((∃ out, x.streamedHMatrix = .ok out) ↔ x.Writes) ∧
      (x.MatchesDense ↔ (x.Writes → x.OtherMasksTrue)) := by
  refine ⟨streamedHMatrix_ok_iff, fun h hw => ?_, fun h obsIndices H hH => ?_⟩
  · obtain ⟨H, hH, hm, -, -⟩ := streamedHMatrix_spec (streamedIndices_eq_ok_iff.mpr ⟨hw, rfl⟩)
    obtain ⟨-, -, -, hdense⟩ := h _ H hH
    obtain ⟨hvalid, -, rfl⟩ := utilsHMatrix_eq_ok.mp hdense
    exact otherMasksTrue_of_length hvalid hm.symm
  · obtain ⟨ind, hind, -⟩ := Keyed.bind_eq_ok.mp hH
    obtain ⟨hw, rfl⟩ := streamedIndices_eq_ok_iff.mp hind
    obtain ⟨H', hH', hm, hnd, hone⟩ := streamedHMatrix_spec hind
    obtain ⟨rfl, rfl⟩ := Prod.mk.inj (Except.ok.inj (hH'.symm.trans hH))
    have hagree := fun key hkey => (h hw).agree hkey (hw.1 key hkey)
    have hlist : x.utilsList = x.streamedList :=
      List.flatMap_congr fun key hkey => (hagree key hkey).2
    refine ⟨hm, hnd, hone, utilsHMatrix_eq_ok.mpr ⟨fun key hkey => (hagree key hkey).1,
      hlist ▸ hw.2.2, ?_⟩⟩
    obtain ⟨m, nd, entry⟩ := H'
    obtain rfl : m = x.streamedList.length := hm
    obtain rfl : nd = x.nd := hnd
    obtain rfl := (isOneHot_dense x.streamedList).unique hone
    rw [hlist]

/-! ### The index map of consecutive variables -/

/-- The inputs for the variables of a state, with default chunks. -/
def ofSetup (cfg : ObsSetup) (bedMaskMap : List (String × List Bool)) (observed : List String) :
    HInputs where
  nd := cfg.nModel
  indxMap key := if key ∈ cfg.vecInputs then
    some ((List.range (cfg.dim key)).map fun i => cfg.row (key, i)) else none
  observed := observed
  bedMaskMap key := bedMaskMap.lookup key
  hRowChunk := none
  hColChunk := none
  hWriteBlockRows := none

/-- A mask picks by position. -/
lemma applyMask_map_range {n : ℕ} (f : ℕ → ℕ) {mask : List Bool} (hlen : mask.length = n) :
    applyMask ((List.range n).map f) mask =
      ((List.range n).filter fun i => mask.getD i false).map f := by
  have hmask : mask = (List.range n).map fun i => mask.getD i false := by
    refine List.ext_getElem (by simpa using hlen) fun i hi _ => ?_
    rw [List.getElem_map, List.getElem_range, List.getD_eq_getElem _ _ hi]
  have hzip : ((List.range n).map f).zip mask =
      (List.range n).map fun i => (f i, mask.getD i false) := by
    conv_lhs => rw [hmask]
    exact List.zip_map'
  rw [applyMask, hzip, List.filter_map, List.map_map]
  rfl

/-- One variable, as entries and as rows of the state. -/
lemma streamedKeyIndices_ofSetup (cfg : ObsSetup) (bedMaskMap : List (String × List Bool))
    (observed : List String) (key : String) :
    (ofSetup cfg bedMaskMap observed).streamedKeyIndices key =
      (cfg.fullKeyIndices bedMaskMap key).map (List.map cfg.row) := by
  have hrows : ∀ es : List ℕ, (es.map fun i => (key, i)).map cfg.row =
      es.map fun i => cfg.row (key, i) := fun es => List.map_map ..
  have hlen : ((List.range (cfg.dim key)).map fun i => cfg.row (key, i)).length =
      (List.range (cfg.dim key)).length := List.length_map ..
  rw [streamedKeyIndices, keyIndices, indices, ofSetup, ObsSetup.fullKeyIndices]
  by_cases hin : key ∈ cfg.vecInputs
  · simp only [if_pos hin, if_neg (not_not.mpr hin), decide_eq_true_eq]
    by_cases hbed : key = "bed"
    · rw [if_pos hbed]
      -- the bed: with its mask, if there is one of the right length
      cases hmask : bedMaskMap.lookup key with
      | none =>
          show (if key = "bed" then maskIndices none _ else _) = _
          rw [if_pos hbed]
          exact congrArg Except.ok (hrows _).symm
      | some mask =>
          show (if key = "bed" then maskIndices (some mask) _ else _) =
            (ObsSetup.selectMask mask _ >>= _).map _
          rw [if_pos hbed, maskIndices, ObsSetup.selectMask, hlen]
          by_cases hsize : mask.length = (List.range (cfg.dim key)).length
          · rw [if_neg (not_not.mpr hsize), if_neg (not_not.mpr hsize),
              applyMask_map_range _ (by simpa using hsize)]
            exact congrArg Except.ok (hrows _).symm
          · rw [if_pos hsize, if_pos hsize]
            rfl
    · show (if key = "bed" then _ else pure _) = _
      rw [if_neg hbed, if_neg hbed]
      exact congrArg Except.ok (hrows _).symm
  · simp only [if_neg hin, if_pos hin]
    rfl

/-- **The entries** that `fullHMatrix` selects are, as rows of the state, the indices of the
writer. -/
theorem streamedIndices_ofSetup (cfg : ObsSetup) (bedMaskMap : List (String × List Bool))
    (observed : List String) : (ofSetup cfg bedMaskMap observed).streamedIndices =
      (cfg.fullHMatrix bedMaskMap observed).map (List.map cfg.row) := by
  have hcollect : Keyed.collect (ofSetup cfg bedMaskMap observed).streamedKeyIndices observed =
      (Keyed.collect (cfg.fullKeyIndices bedMaskMap) observed).map (List.map cfg.row) := by
    rw [← Keyed.collect_map]
    -- both collect the same keys and raise for the same ones
    exact congrArg (fun f => Keyed.collect f observed)
      (funext fun key => streamedKeyIndices_ofSetup cfg bedMaskMap observed key)
  rw [streamedIndices, ObsSetup.fullHMatrix]
  show (Keyed.collect _ observed >>= _) = _
  rw [hcollect]
  cases Keyed.collect (cfg.fullKeyIndices bedMaskMap) observed with
  | error e => rfl
  | ok es =>
      have hany : (es.map cfg.row).any (fun i => cfg.nModel ≤ i) =
          es.any fun e => cfg.nModel ≤ cfg.row e := List.any_map ..
      show (do
        if (es.map cfg.row).length = 0 then throw .valueError
        if (es.map cfg.row).any fun i => cfg.nModel ≤ i then throw .valueError
        return es.map cfg.row) = (do
          if es.length = 0 then throw .valueError
          if es.any fun e => cfg.nModel ≤ cfg.row e then throw .valueError
          return es : Except OperatorError _).map _
      rw [List.length_map, hany]
      by_cases hlen : es.length = 0
      · simp only [if_pos hlen]
        rfl
      · simp only [if_neg hlen]
        cases es.any fun e => decide (cfg.nModel ≤ cfg.row e) <;> rfl

/-- Two points of the bed under another name, the second one masked. -/
def bedrockMasked : HInputs where
  nd := 2
  indxMap key := if key = "bedrock" then some [0, 1] else none
  observed := ["bedrock"]
  bedMaskMap key := if key = "bedrock" then some [true, false] else none
  hRowChunk := none
  hColChunk := none
  hWriteBlockRows := none

/-- The writer ignores the mask. -/
theorem not_matchesDense_bedrock : ¬ bedrockMasked.MatchesDense := by
  intro h
  have hlist : bedrockMasked.streamedList = [0, 1] := by decide +kernel
  have hw : bedrockMasked.Writes := by
    refine ⟨fun key hkey => ?_, by simp [hlist], fun c hc => ?_⟩
    · obtain rfl := List.mem_singleton.mp hkey
      exact ⟨rfl, fun happ => absurd (of_decide_eq_true happ) (by decide)⟩
    · rw [hlist] at hc
      have hnd : bedrockMasked.nd = 2 := rfl
      rcases List.mem_pair.mp hc with rfl | rfl <;> omega
  obtain ⟨H, hH, hm, -, -⟩ := streamedHMatrix_spec (streamedIndices_eq_ok_iff.mpr ⟨hw, rfl⟩)
  obtain ⟨-, -, rfl⟩ := utilsHMatrix_eq_ok.mp (h _ H hH).2.2.2
  have hlen : bedrockMasked.utilsList.length = 1 := by decide +kernel
  have hm' : bedrockMasked.utilsList.length = bedrockMasked.streamedList.length := hm
  rw [hlen, hlist] at hm'
  simp at hm'

end HInputs

end Icesee
