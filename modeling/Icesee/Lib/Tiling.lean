import Mathlib.Algebra.BigOperators.Intervals
import Mathlib.Data.Nat.Basic
import Mathlib.Data.List.Range
import Mathlib.Order.Monotone.Basic
import Mathlib.Tactic.Common

/-!
Consecutive blocks that tile an interval.

A `Cuts n p` is a monotone sequence of cut points `0 = c 0 ≤ … ≤ c p = n`, so
block `r` is the half-open interval `[c r, c (r+1))`. What is done block by block, in
order, has been done below `c r` after `r` blocks (`ite_block` is the step), and so on
all of `[0, n)` after the last one.

Every position is in exactly one block (`exists_block`, `block_unique`). `stack` puts the
parts that the blocks computed back together (`stack_apply`), and a sum over the
positions is the sum of the sums over the blocks (`sum_blocks`). The blocks listed one after
the other are the positions in order (`flatMap_range'`). `ofSizes` has the blocks of the
given sizes.
-/

namespace Tiling

/-- Cut points of `[0, n)` into `p` consecutive blocks. -/
structure Cuts (n p : ℕ) where
  cut : ℕ → ℕ
  cut_zero : cut 0 = 0
  cut_last : cut p = n
  mono : ∀ r < p, cut r ≤ cut (r + 1)

namespace Cuts

variable {n p : ℕ} (c : Cuts n p)

/-- A condition on the first `r` blocks, extended by block `r`. -/
lemma ite_block {α : Type*} {r i : ℕ} (hr : r < p) (q : Prop) [Decidable q] (x y : α) :
    (if q ∧ c.cut r ≤ i ∧ i < c.cut (r + 1) then x else if q ∧ i < c.cut r then x else y) =
      if q ∧ i < c.cut (r + 1) then x else y := by
  have hmono := c.mono r hr
  by_cases hq : q
  · simp only [hq, true_and]
    split_ifs <;> first | rfl | omega
  · simp [hq]

/-! ### Positions and blocks -/

/-- The number of positions in block `r`. -/
def size (r : ℕ) : ℕ := c.cut (r + 1) - c.cut r

lemma cut_add_size {r : ℕ} (hr : r < p) : c.cut r + c.size r = c.cut (r + 1) :=
  Nat.add_sub_cancel' (c.mono r hr)

lemma cut_le_cut {r s : ℕ} (h : r ≤ s) (hs : s ≤ p) : c.cut r ≤ c.cut s := by
  induction s, h using Nat.le_induction with
  | base => exact le_rfl
  | succ s _ ih => exact (ih (by omega)).trans (c.mono s (by omega))

lemma cut_le {r : ℕ} (hr : r ≤ p) : c.cut r ≤ n := by
  calc c.cut r ≤ c.cut p := c.cut_le_cut hr le_rfl
    _ = n := c.cut_last

/-- A position of a block is a position of the whole. -/
lemma cut_add_lt {r j : ℕ} (hr : r < p) (hj : j < c.size r) : c.cut r + j < n := by
  have hsize := c.cut_add_size hr
  have hle : c.cut (r + 1) ≤ n := c.cut_le hr
  omega

/-- Every position is in some block. -/
lemma exists_block {i : ℕ} (hi : i < n) : ∃ r < p, ∃ j < c.size r, c.cut r + j = i := by
  have key : ∀ s ≤ p, i < c.cut s → ∃ r < p, ∃ j < c.size r, c.cut r + j = i := by
    intro s
    induction s with
    | zero =>
        intro _ h
        rw [c.cut_zero] at h
        omega
    | succ s ih =>
        intro hs h
        have hsize := c.cut_add_size (Nat.lt_of_succ_le hs)
        obtain hlt | hle := lt_or_ge i (c.cut s)
        · exact ih (by omega) hlt
        · exact ⟨s, hs, i - c.cut s, by omega, by omega⟩
  exact key p le_rfl (by rwa [c.cut_last])

/-- A later block begins where an earlier one has ended. -/
lemma cut_add_size_le {r s : ℕ} (h : r < s) (hs : s ≤ p) : c.cut r + c.size r ≤ c.cut s := by
  rw [c.cut_add_size (by omega)]
  exact c.cut_le_cut h hs

/-- And in no other. -/
lemma block_unique {r s i j : ℕ} (hr : r < p) (hs : s < p) (hi : i < c.size r)
    (hj : j < c.size s) (h : c.cut r + i = c.cut s + j) : r = s := by
  rcases lt_trichotomy r s with hlt | heq | hlt
  · have := c.cut_add_size_le hlt hs.le
    omega
  · exact heq
  · have := c.cut_add_size_le hlt hr.le
    omega

/-- After a block that does not reach the end comes a next block with positions. -/
lemma exists_next {r : ℕ} (hr : r < p) (h : c.cut r + c.size r < n) :
    ∃ s < p, 0 < c.size s ∧ c.cut s = c.cut r + c.size r := by
  obtain ⟨s, hs, j, hj, hsj⟩ := c.exists_block h
  obtain hlt | hge := lt_or_ge r s
  · have := c.cut_add_size_le hlt hs.le
    exact ⟨s, hs, by omega, by omega⟩
  · have hle : c.cut (s + 1) ≤ c.cut (r + 1) := c.cut_le_cut (Nat.succ_le_succ hge) hr
    have := c.cut_add_size hs
    have := c.cut_add_size hr
    omega

/-- No block is larger than the whole. -/
lemma size_le {r : ℕ} (hr : r < p) : c.size r ≤ n := by
  have := c.cut_add_size hr
  have hle : c.cut (r + 1) ≤ n := c.cut_le hr
  omega

/-- The parts that the blocks computed, put together block by block. -/
def stack {α : Type*} (x : α) (parts : ℕ → ℕ → α) : ℕ → α :=
  (List.range p).foldl
    (fun s r i => if c.cut r ≤ i ∧ i < c.cut (r + 1) then parts r (i - c.cut r) else s i)
    fun _ => x

/-- Every position of the stack comes from its block. -/
lemma stack_apply {α : Type*} (x : α) (parts : ℕ → ℕ → α) {r j : ℕ} (hr : r < p)
    (hj : j < c.size r) : c.stack x parts (c.cut r + j) = parts r j := by
  have hsize := c.cut_add_size hr
  have key : ∀ s ≤ p, r < s → (List.range s).foldl
      (fun t r i => if c.cut r ≤ i ∧ i < c.cut (r + 1) then parts r (i - c.cut r) else t i)
      (fun _ => x) (c.cut r + j) = parts r j := by
    intro s
    induction s with
    | zero => intro _ h; omega
    | succ s ih =>
        intro hs h
        rw [List.range_succ, List.foldl_append, List.foldl_cons, List.foldl_nil]
        obtain rfl | hlt : r = s ∨ r < s := by omega
        · rw [if_pos ⟨by omega, by omega⟩, Nat.add_sub_cancel_left]
        · have hend := c.cut_add_size_le hlt (by omega)
          rw [if_neg (by omega)]
          exact ih (by omega) hlt
  exact key p le_rfl hr

/-- Position `j` of block `r`. -/
def row (r : Fin p) (j : Fin (c.size r)) : Fin n := ⟨c.cut r + j, c.cut_add_lt r.2 j.2⟩

/-- The positions of the blocks are all positions, each of them once. -/
lemma row_bijective : Function.Bijective fun x : (r : Fin p) × Fin (c.size r) => c.row x.1 x.2 := by
  constructor
  · rintro ⟨r, j⟩ ⟨s, i⟩ h
    have hval : c.cut r + j = c.cut s + i := congrArg Fin.val h
    obtain rfl : r = s := Fin.ext (c.block_unique r.2 s.2 j.2 i.2 hval)
    obtain rfl : j = i := Fin.ext (by omega)
    rfl
  · intro i
    obtain ⟨r, hr, j, hj, hrj⟩ := c.exists_block i.2
    exact ⟨⟨⟨r, hr⟩, ⟨j, hj⟩⟩, Fin.ext hrj⟩

/-- **Sums over blocks**: a sum over all positions, block by block. -/
theorem sum_blocks {M : Type*} [AddCommMonoid M] (f : Fin n → M) :
    ∑ r, ∑ j, f (c.row r j) = ∑ i, f i := by
  calc ∑ r, ∑ j, f (c.row r j)
      = ∑ x : (r : Fin p) × Fin (c.size r), f (c.row x.1 x.2) := by rw [Fintype.sum_sigma]
    _ = ∑ i, f i := Fintype.sum_bijective _ c.row_bijective _ _ fun _ => rfl

/-! ### Listing the blocks -/

/-- The positions of the first `r` blocks, from `s` on. -/
lemma flatMap_range'_of_le (s : ℕ) {r : ℕ} (hr : r ≤ p) :
    (List.range r).flatMap (fun i => List.range' (s + c.cut i) (c.size i)) =
      List.range' s (c.cut r) := by
  induction r with
  | zero => simp [c.cut_zero]
  | succ r ih =>
      rw [List.range_succ, List.flatMap_append, ih (by omega), List.flatMap_singleton,
        List.range'_append_1, c.cut_add_size hr]

/-- **Listing** the positions block by block gives all of them in order. -/
theorem flatMap_range' (s : ℕ) :
    (List.range p).flatMap (fun r => List.range' (s + c.cut r) (c.size r)) = List.range' s n := by
  rw [c.flatMap_range'_of_le s le_rfl, c.cut_last]

/-- The sizes of the first `r` blocks add up to the cut behind them. -/
lemma sum_map_size {r : ℕ} (hr : r ≤ p) : ((List.range r).map c.size).sum = c.cut r := by
  induction r with
  | zero => exact c.cut_zero.symm
  | succ r ih =>
      rw [List.range_succ, List.map_append, List.sum_append, ih (by omega), List.map_singleton,
        List.sum_singleton, c.cut_add_size hr]

/-- Blocks of `m` entries for every position. -/
def scale (m : ℕ) : Cuts (n * m) p where
  cut r := c.cut r * m
  cut_zero := by rw [c.cut_zero, Nat.zero_mul]
  cut_last := by rw [c.cut_last]
  mono r hr := Nat.mul_le_mul_right m (c.mono r hr)

@[simp] lemma cut_scale (m r : ℕ) : (c.scale m).cut r = c.cut r * m := rfl

@[simp] lemma size_scale (m r : ℕ) : (c.scale m).size r = c.size r * m :=
  (Nat.sub_mul _ _ _).symm

/-- Blocks of these sizes, one after the other. -/
def ofSizes (l : List ℕ) : Cuts l.sum l.length where
  cut r := (l.take r).sum
  cut_zero := rfl
  cut_last := by rw [List.take_length]
  mono r hr := by
    rw [List.take_add_one, List.sum_append]
    exact Nat.le_add_right _ _

@[simp] lemma cut_ofSizes (l : List ℕ) (r : ℕ) : (ofSizes l).cut r = (l.take r).sum := rfl

@[simp] lemma size_ofSizes (l : List ℕ) (r : ℕ) : (ofSizes l).size r = l.getD r 0 := by
  rw [size, cut_ofSizes, cut_ofSizes, List.take_add_one, List.sum_append, Nat.add_sub_cancel_left,
    List.getD_eq_getElem?_getD]
  cases l[r]? with
  | none => rfl
  | some a => exact Nat.add_zero a

end Cuts

/-- The place of a position in an interval. -/
lemma idxOf_range' {start n r : ℕ} (h : start ≤ r ∧ r < start + n) :
    (List.range' start n).idxOf r = r - start := by
  have hlt : r - start < (List.range' start n).length := by
    rw [List.length_range']
    omega
  have hget : (List.range' start n)[r - start] = r := by
    rw [List.getElem_range'_1]
    omega
  have hidx := List.Nodup.idxOf_getElem List.nodup_range' (r - start) hlt
  rwa [hget] at hidx

/-- An interval within an interval, picked out by a condition. -/
lemma filter_range' {q : ℕ → Prop} [DecidablePred q] {s n a b : ℕ} (hs : s ≤ a) (hab : a ≤ b)
    (hb : b ≤ s + n) (hq : ∀ i, s ≤ i → i < s + n → (q i ↔ a ≤ i ∧ i < b)) :
    (List.range' s n).filter q = List.range' a (b - a) := by
  -- cut at `a` and at `b`
  have hsplit : List.range' s n =
      List.range' s (a - s) ++ List.range' a (b - a) ++ List.range' b (s + n - b) := by
    have hfirst := List.range'_append_1 (s := s) (m := a - s) (n := b - a)
    have hsecond := List.range'_append_1 (s := s) (m := b - s) (n := s + n - b)
    rw [show s + (a - s) = a by omega, show a - s + (b - a) = b - s by omega] at hfirst
    rw [show s + (b - s) = b by omega, show b - s + (s + n - b) = n by omega] at hsecond
    rw [hfirst, hsecond]
  have hbefore : (List.range' s (a - s)).filter q = [] := by
    refine List.filter_eq_nil_iff.mpr fun i hi => ?_
    have := List.mem_range'_1.mp hi
    rw [decide_eq_true_eq, hq i (by omega) (by omega)]
    omega
  have hmid : (List.range' a (b - a)).filter q = List.range' a (b - a) := by
    refine List.filter_eq_self.mpr fun i hi => ?_
    have := List.mem_range'_1.mp hi
    rw [decide_eq_true_eq, hq i (by omega) (by omega)]
    omega
  have hafter : (List.range' b (s + n - b)).filter q = [] := by
    refine List.filter_eq_nil_iff.mpr fun i hi => ?_
    have := List.mem_range'_1.mp hi
    rw [decide_eq_true_eq, hq i (by omega) (by omega)]
    omega
  rw [hsplit, List.filter_append, List.filter_append, hbefore, hmid, hafter, List.nil_append,
    List.append_nil]

end Tiling
