import Icesee.Lib.Slices

/-!
A buffer that is scattered to ranks, and one that is gathered from them.

`scatterv` and `gatherv` are given a count and a displacement for each rank. When these tile
the buffer (`Tile`) every rank receives its slice (`Tile.scatterv_eq`), and the parts of
the ranks are gathered in rank order (`Tile.gatherv_eq`).
-/

namespace Collectives

open Tiling Slices

variable {α : Type} {n p : ℕ}

/-- What a rank receives from the root into a buffer of `recv` entries. The slice of the
rank is in the buffer of the root, and it has the length of the one that receives. -/
def scatterv (buf : List α) (counts displs : List ℕ) (rank recv : ℕ) : Option (List α) := do
  let count ← counts[rank]?
  let displ ← displs[rank]?
  if displ + count ≤ buf.length ∧ count = recv then some (slice buf displ count) else none

/-- What the root has after it received the parts of the ranks. A part has the length of its
slice, and that is in the buffer. -/
def gatherv (buf : List α) (counts displs : List ℕ) (p : ℕ) (parts : ℕ → Option (List α)) :
    Option (List α) :=
  (List.range p).foldlM (fun buf rank => do
    let part ← parts rank
    let count ← counts[rank]?
    let displ ← displs[rank]?
    if displ + count ≤ buf.length ∧ part.length = count then some (put buf part displ)
    else none) buf

/-! ### Counts and displacements that tile a buffer -/

/-- The counts are the sizes of the blocks, and the displacements are where these begin. -/
structure Tile (c : Cuts n p) (counts displs : List ℕ) : Prop where
  counts : ∀ r < p, counts[r]? = some (c.size r)
  displs : ∀ r < p, displs[r]? = some (c.cut r)

/-- Displacements that are the sums of the counts before. -/
lemma tile_of_counts {c : Cuts n p} {count : ℕ → ℕ} (h : ∀ r < p, count r = c.size r) :
    Tile c ((List.range p).map count)
      ((List.range p).map fun r => (((List.range p).map count).take r).sum) where
  counts r hr := by rw [List.getElem?_map, List.getElem?_range hr, Option.map_some, h r hr]
  displs r hr := by
    rw [List.getElem?_map, List.getElem?_range hr, Option.map_some, ← List.map_take,
      List.take_range, Nat.min_eq_left hr.le, ← c.sum_map_size hr.le]
    refine congrArg (fun l : List ℕ => some l.sum) (List.map_congr_left fun s hs => h s ?_)
    exact (List.mem_range.mp hs).trans hr

/-- Counts that are given as sizes of rows, for rows of `k` entries. -/
lemma tile_ofSizes (sizes : List ℕ) (k : ℕ) :
    Tile ((Cuts.ofSizes sizes).scale k) (sizes.map (· * k))
      ((List.range sizes.length).map fun r => ((sizes.map (· * k)).take r).sum) := by
  have hcounts : sizes.map (· * k) =
      (List.range sizes.length).map fun r => sizes.getD r 0 * k := by
    refine List.ext_getElem (by simp) fun r hr _ => ?_
    rw [List.length_map] at hr
    rw [List.getElem_map, List.getElem_map, List.getElem_range, List.getD_eq_getElem?_getD,
      List.getElem?_eq_getElem hr, Option.getD_some]
  rw [hcounts]
  exact tile_of_counts fun r _ => by rw [Cuts.size_scale, Cuts.size_ofSizes]

namespace Tile

variable {c : Cuts n p} {counts displs : List ℕ}

lemma scatterv_eq (h : Tile c counts displs) {buf : List α} (hbuf : buf.length = n) {r : ℕ}
    (hr : r < p) :
    scatterv buf counts displs r (c.size r) = some (slice buf (c.cut r) (c.size r)) := by
  have hle : c.cut r + c.size r ≤ buf.length := by
    rw [c.cut_add_size hr, hbuf]
    exact c.cut_le hr
  simp [scatterv, h.counts r hr, h.displs r hr, hle]

variable {buf : List α} {parts : ℕ → Option (List α)} {xs : ℕ → List α}

/-- What the root has when the first `r` parts have come in. -/
lemma gatherv_prefix (h : Tile c counts displs) (hbuf : buf.length = n)
    (hparts : ∀ r < p, parts r = some (xs r)) (hlen : ∀ r < p, (xs r).length = c.size r) {r : ℕ}
    (hr : r ≤ p) : gatherv buf counts displs r parts =
      some ((List.range r).flatMap xs ++ buf.drop (c.cut r)) := by
  induction r with
  | zero => simp [gatherv, c.cut_zero]
  | succ r ih =>
      have hfront : ((List.range r).flatMap xs).length = c.cut r := by
        rw [List.length_flatMap, ← c.sum_map_size (by omega)]
        exact congrArg List.sum (List.map_congr_left fun s hs =>
          hlen s ((List.mem_range.mp hs).trans hr))
      -- part `r` fits behind the parts before it
      have hfit :
          c.cut r + c.size r ≤ ((List.range r).flatMap xs ++ buf.drop (c.cut r)).length := by
        rw [List.length_append, hfront, List.length_drop, hbuf]
        have := c.cut_add_size hr
        have := c.cut_le hr
        omega
      have hput : put ((List.range r).flatMap xs ++ buf.drop (c.cut r)) (xs r) (c.cut r) =
          (List.range (r + 1)).flatMap xs ++ buf.drop (c.cut (r + 1)) := by
        rw [put, List.take_left' hfront, ← List.drop_drop, List.drop_left' hfront, List.drop_drop,
          hlen r hr, c.cut_add_size hr, List.range_succ, List.flatMap_append,
          List.flatMap_singleton]
      rw [gatherv] at ih
      rw [← hput, gatherv, List.range_succ, List.foldlM_append, ih (by omega)]
      generalize (List.range r).flatMap xs ++ buf.drop (c.cut r) = front at hfit ⊢
      simp [hparts r hr, h.counts r hr, h.displs r hr, hfit, hlen r hr]

/-- **Gathering**: the parts are in the buffer of the root in rank order. -/
theorem gatherv_eq (h : Tile c counts displs) (hbuf : buf.length = n)
    (hparts : ∀ r < p, parts r = some (xs r)) (hlen : ∀ r < p, (xs r).length = c.size r) :
    gatherv buf counts displs p parts = some ((List.range p).flatMap xs) := by
  rw [h.gatherv_prefix hbuf hparts hlen le_rfl, c.cut_last, ← hbuf, List.drop_length,
    List.append_nil]

end Tile

end Collectives
