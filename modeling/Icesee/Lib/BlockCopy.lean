import Mathlib.Data.List.Nodup
import Mathlib.Order.Lattice
import Mathlib.Order.MinMax
import Mathlib.Tactic.Common
import Icesee.Lib.Keyed

/-!
Copying blocks of rows from one matrix to another.

`Rows.setRows` assigns to a slice of rows, with NumPy's rules: the slice is cut at the
number of rows, and as many rows fit into it as it has, or a single one that is repeated.
`copyBlocks` copies a list of blocks one after the other, each from its place in the
source to its place in the target. It goes through exactly if every block fits
(`copyBlocks_ok_iff`), and then every block is in its place and the rest is as before
(`copyBlocks_row`, `copyBlocks_row_of_ne`).
-/

namespace BlockCopy

variable {α ε : Type}

/-- A matrix of `n` rows, each an element of `α`. -/
structure Rows (α : Type) where
  n : ℕ
  row : ℕ → α

namespace Rows

/-- `A[start:stop, :] = B`, with `e` where the shapes do not fit. -/
def setRows (e : ε) (A : Rows α) (start stop : ℕ) (B : Rows α) : Except ε (Rows α) :=
  if B.n = min stop A.n - min start A.n then
    .ok { A with row := fun i =>
      if start ≤ i ∧ i < min stop A.n then B.row (i - start) else A.row i }
  else if B.n = 1 then
    .ok { A with row := fun i =>
      if start ≤ i ∧ i < min stop A.n then B.row 0 else A.row i }
  else .error e

/-- The `h` rows from `start` on. -/
def take (A : Rows α) (start h : ℕ) : Rows α := { n := h, row := fun i => A.row (start + i) }

/-- `A[start:stop, :]`. -/
def slice (A : Rows α) (start stop : ℕ) : Rows α :=
  { n := min stop A.n - min start A.n, row := fun i => A.row (start + i) }

/-- A slice that ends inside the matrix is not cut. -/
lemma slice_eq_take {A : Rows α} {start h : ℕ} (hle : start + h ≤ A.n) :
    A.slice start (start + h) = A.take start h := by
  rw [slice, take, Nat.min_eq_left hle, Nat.min_eq_left (by omega), Nat.add_sub_cancel_left]

end Rows

/-- Copy block `p.2` of the source to block `p.1` of the target, for all `p` of a list. -/
def copyBlocks (e : ε) (h : ℕ) (S : Rows α) (l : List (ℕ × ℕ)) (A : Rows α) :
    Except ε (Rows α) :=
  l.foldlM (fun A p => A.setRows e (p.1 * h) (p.1 * h + h) (S.take (p.2 * h) h)) A

/-- A block of `h` rows fits as block `d` of `n` rows. -/
def Fits (h n d : ℕ) : Prop := (d + 1) * h ≤ n ∨ h = 1

variable {e : ε} {h d s : ℕ} {S A A' : Rows α} {l : List (ℕ × ℕ)} {p : ℕ × ℕ}

/-- One block goes in exactly if it fits. -/
lemma setRows_ok_iff (hpos : 0 < h) :
    (∃ A', A.setRows e (d * h) (d * h + h) (S.take s h) = .ok A') ↔ Fits h A.n d := by
  have hn : (S.take s h).n = h := rfl
  rw [Rows.setRows, hn, Fits, Nat.succ_mul]
  split_ifs with hfit hone
  · exact iff_of_true ⟨_, rfl⟩ (.inl (by omega))
  · exact iff_of_true ⟨_, rfl⟩ (.inr hone)
  · refine iff_of_false (by simp) ?_
    omega

/-- What a block that went in has changed: a broadcast meets an empty slice, or the one
row that is there. -/
lemma setRows_eq (hA : A.setRows e (d * h) (d * h + h) (S.take s h) = .ok A') :
    A'.n = A.n ∧ ∀ i < A.n, A'.row i =
      if d * h ≤ i ∧ i < d * h + h then S.row (s + (i - d * h)) else A.row i := by
  have hn : (S.take s h).n = h := rfl
  rw [Rows.setRows, hn] at hA
  split_ifs at hA with hfit hone
  · obtain rfl := Except.ok.inj hA
    refine ⟨rfl, fun i hi => if_congr ?_ rfl rfl⟩
    rw [lt_min_iff, and_iff_left hi]
  · obtain rfl := Except.ok.inj hA
    refine ⟨rfl, fun i hi => ?_⟩
    change (if d * h ≤ i ∧ i < min (d * h + h) A.n then (S.take s h).row 0 else A.row i) = _
    by_cases hin : d * h ≤ i ∧ i < d * h + h
    · have hi0 : i - d * h = 0 := by omega
      rw [if_pos hin, if_pos ⟨hin.1, lt_min hin.2 hi⟩, hi0]
      rfl
    · rw [if_neg hin, if_neg fun hc => hin ⟨hc.1, lt_of_lt_of_le hc.2 (min_le_left _ _)⟩]

lemma copyBlocks_cons_ok : copyBlocks e h S (p :: l) A = .ok A' ↔
    ∃ B, A.setRows e (p.1 * h) (p.1 * h + h) (S.take (p.2 * h) h) = .ok B ∧
      copyBlocks e h S l B = .ok A' := by
  rw [copyBlocks, List.foldlM_cons, Keyed.bind_eq_ok]
  rfl

/-- The number of rows stays. -/
lemma copyBlocks_n (hA : copyBlocks e h S l A = .ok A') : A'.n = A.n := by
  induction l generalizing A with
  | nil => rw [← Except.ok.inj hA]
  | cons p l ih =>
      obtain ⟨B, hB, hrest⟩ := copyBlocks_cons_ok.mp hA
      rw [ih hrest, (setRows_eq hB).1]

/-- **All blocks** go in exactly if each of them fits. -/
theorem copyBlocks_ok_iff (hpos : 0 < h) :
    (∃ A', copyBlocks e h S l A = .ok A') ↔ ∀ p ∈ l, Fits h A.n p.1 := by
  induction l generalizing A with
  | nil => exact iff_of_true ⟨A, rfl⟩ (by simp)
  | cons p l ih =>
      rw [List.forall_mem_cons, ← setRows_ok_iff (e := e) (S := S) (s := p.2 * h) hpos]
      refine ⟨fun ⟨A', hA⟩ => ?_, fun ⟨⟨B, hB⟩, hrest⟩ => ?_⟩
      · obtain ⟨B, hB, hrest⟩ := copyBlocks_cons_ok.mp hA
        refine ⟨⟨B, hB⟩, ?_⟩
        rw [← (setRows_eq hB).1]
        exact ih.mp ⟨A', hrest⟩
      · rw [← (setRows_eq hB).1] at hrest
        obtain ⟨A', hA⟩ := ih.mpr hrest
        exact ⟨A', copyBlocks_cons_ok.mpr ⟨B, hB, hA⟩⟩

/-- Rows in no target block are as before. -/
lemma copyBlocks_row_of_ne (hA : copyBlocks e h S l A = .ok A') {i : ℕ} (hi : i < A.n)
    (hne : ∀ p ∈ l, ¬ (p.1 * h ≤ i ∧ i < p.1 * h + h)) : A'.row i = A.row i := by
  induction l generalizing A with
  | nil => rw [← Except.ok.inj hA]
  | cons p l ih =>
      obtain ⟨B, hB, hrest⟩ := copyBlocks_cons_ok.mp hA
      obtain ⟨hn, hrow⟩ := setRows_eq hB
      rw [ih hrest (hn ▸ hi) fun q hq => hne q (List.mem_cons_of_mem p hq), hrow i hi,
        if_neg (hne p List.mem_cons_self)]

/-- A row of one block is in no other block. -/
lemma not_mem_block {d d' r : ℕ} (hr : r < h) (hd : d' ≠ d) :
    ¬ (d' * h ≤ d * h + r ∧ d * h + r < d' * h + h) := by
  rintro ⟨hle, hlt⟩
  rcases Nat.lt_or_gt_of_ne hd with hlt' | hgt
  · have hmul := Nat.mul_le_mul_right h (Nat.succ_le_of_lt hlt')
    rw [Nat.succ_mul] at hmul
    omega
  · have hmul := Nat.mul_le_mul_right h (Nat.succ_le_of_lt hgt)
    rw [Nat.succ_mul] at hmul
    omega

/-- **Every block** is in its place, where the places are different. -/
theorem copyBlocks_row (hA : copyBlocks e h S l A = .ok A') (hl : (l.map Prod.fst).Nodup)
    (hp : p ∈ l) {r : ℕ} (hr : r < h) (hrow : p.1 * h + r < A.n) :
    A'.row (p.1 * h + r) = S.row (p.2 * h + r) := by
  induction l generalizing A with
  | nil => exact absurd hp List.not_mem_nil
  | cons q l ih =>
      obtain ⟨B, hB, hrest⟩ := copyBlocks_cons_ok.mp hA
      obtain ⟨hn, hset⟩ := setRows_eq hB
      rw [List.map_cons, List.nodup_cons] at hl
      rcases List.mem_cons.mp hp with rfl | hp
      · -- nothing comes back to this block
        have hlater : ∀ q ∈ l, ¬ (q.1 * h ≤ p.1 * h + r ∧ p.1 * h + r < q.1 * h + h) :=
          fun q hq => not_mem_block hr fun he => hl.1 (he ▸ List.mem_map_of_mem hq)
        rw [copyBlocks_row_of_ne hrest (hn ▸ hrow) hlater, hset _ hrow,
          if_pos ⟨Nat.le_add_right _ _, Nat.add_lt_add_left hr _⟩, Nat.add_sub_cancel_left]
      · exact ih hrest hl.2 hp (hn ▸ hrow)

end BlockCopy
