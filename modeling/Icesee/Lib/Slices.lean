import Icesee.Lib.Tiling

/-!
Slices of a buffer, and parts that are written into one.

The slices of a tiling are the buffer (`flatMap_slice`). A part that is written (`put`) is
found at its place (`slice_put`), and what it does not meet stays (`slice_put_of_le`,
`slice_put_of_ge`). A buffer of equal rows is cut row by row (`slice_flatten`,
`reshape_flatten`).
-/

namespace Slices

open Tiling

variable {α : Type} {n p m : ℕ}

/-- `count` entries of a buffer, from `displ` on. -/
def slice (buf : List α) (displ count : ℕ) : List α := (buf.drop displ).take count

/-- A part that is written into a buffer. -/
def put (buf part : List α) (displ : ℕ) : List α :=
  buf.take displ ++ part ++ buf.drop (displ + part.length)

/-- A slice that is in the buffer has its count. -/
lemma length_slice {buf : List α} {displ count : ℕ} (h : displ + count ≤ buf.length) :
    (slice buf displ count).length = count := by
  rw [slice, List.length_take, List.length_drop]
  omega

/-- The slices of the first `r` blocks are the beginning of the buffer. -/
lemma flatMap_slice_of_le (c : Cuts n p) (buf : List α) {r : ℕ} (hr : r ≤ p) :
    (List.range r).flatMap (fun i => slice buf (c.cut i) (c.size i)) = buf.take (c.cut r) := by
  induction r with
  | zero => rw [c.cut_zero, List.take_zero, List.range_zero, List.flatMap_nil]
  | succ r ih =>
      rw [List.range_succ, List.flatMap_append, ih (by omega), List.flatMap_singleton, slice,
        ← List.take_add, c.cut_add_size hr]

/-- **The slices of a tiling** are the buffer. -/
theorem flatMap_slice (c : Cuts n p) {buf : List α} (hbuf : buf.length = n) :
    (List.range p).flatMap (fun r => slice buf (c.cut r) (c.size r)) = buf := by
  rw [flatMap_slice_of_le c buf le_rfl, c.cut_last, ← hbuf, List.take_length]

/-- A slice of the beginning of a buffer. -/
lemma slice_take {buf : List α} {k displ count : ℕ} (h : displ + count ≤ k) :
    slice (buf.take k) displ count = slice buf displ count := by
  rw [slice, List.drop_take, List.take_take, Nat.min_eq_left (by omega), slice]

lemma slice_zipWith {β γ : Type} (f : α → β → γ) (l : List α) (l' : List β)
    (displ count : ℕ) : slice (List.zipWith f l l') displ count =
      List.zipWith f (slice l displ count) (slice l' displ count) := by
  rw [slice, List.drop_zipWith, List.take_zipWith, slice, slice]

/-! ### Writing a part -/

section Put

variable {buf part : List α} {o a : ℕ}

lemma length_put (h : o + part.length ≤ buf.length) : (put buf part o).length = buf.length := by
  rw [put, List.length_append, List.length_append, List.length_take, List.length_drop]
  omega

/-- A slice of the part that was written. -/
lemma slice_put (ho : o ≤ buf.length) (h : a + n ≤ part.length) :
    slice (put buf part o) (o + a) n = slice part a n := by
  have htake : (buf.take o).length = o := List.length_take_of_le ho
  rw [slice, put, List.append_assoc, ← List.drop_drop, List.drop_left' htake,
    List.drop_append_of_le_length (by omega), List.take_append_of_le_length, slice]
  rw [List.length_drop]
  omega

lemma slice_put_self (ho : o ≤ buf.length) :
    slice (put buf part o) o part.length = part := by
  have hput : slice (put buf part o) (o + 0) part.length = _ := slice_put ho (by omega)
  rw [Nat.add_zero] at hput
  rw [hput, slice, List.drop_zero, List.take_length]

/-- A slice before the part. -/
lemma slice_put_of_le (ho : o ≤ buf.length) (h : a + n ≤ o) :
    slice (put buf part o) a n = slice buf a n := by
  have htake : (buf.take o).length = o := List.length_take_of_le ho
  rw [slice, put, List.append_assoc, List.drop_append_of_le_length (by omega),
    List.take_append_of_le_length, List.drop_take, List.take_take, Nat.min_eq_left (by omega),
    slice]
  rw [List.length_drop, htake]
  omega

/-- A slice behind the part. -/
lemma slice_put_of_ge (ho : o ≤ buf.length) (h : o + part.length ≤ a) :
    slice (put buf part o) a n = slice buf a n := by
  have hlen : (buf.take o ++ part).length = o + part.length := by
    rw [List.length_append, List.length_take_of_le ho]
  obtain ⟨k, rfl⟩ := Nat.exists_eq_add_of_le h
  rw [slice, put, ← List.drop_drop, List.drop_left' hlen, List.drop_drop, slice]

end Put

/-! ### Buffers of equal rows -/

/-- A buffer as `n` rows of `m` entries. -/
def reshape (n m : ℕ) (buf : List α) : List (List α) :=
  (List.range n).map fun i => slice buf (i * m) m

lemma length_flatten {rows : List (List α)} (h : ∀ row ∈ rows, row.length = m) :
    rows.flatten.length = rows.length * m := by
  rw [List.length_flatten, List.map_congr_left h, List.map_const', List.sum_replicate_nat]

/-- The entries of the first rows. -/
lemma take_flatten {rows : List (List α)} (h : ∀ row ∈ rows, row.length = m) (k : ℕ) :
    rows.flatten.take (k * m) = (rows.take k).flatten := by
  induction rows generalizing k with
  | nil => rw [List.flatten_nil, List.take_nil, List.take_nil, List.flatten_nil]
  | cons row rows ih =>
      cases k with
      | zero => rw [Nat.zero_mul, List.take_zero, List.take_zero, List.flatten_nil]
      | succ k =>
          have hrow : row.length = m := h row List.mem_cons_self
          rw [List.flatten_cons, Nat.succ_mul, Nat.add_comm, ← hrow, List.take_length_add_append,
            hrow, ih fun r hr => h r (List.mem_cons_of_mem _ hr), List.take_succ_cons,
            List.flatten_cons]

lemma drop_flatten {rows : List (List α)} (h : ∀ row ∈ rows, row.length = m) (k : ℕ) :
    rows.flatten.drop (k * m) = (rows.drop k).flatten := by
  induction rows generalizing k with
  | nil => rw [List.flatten_nil, List.drop_nil, List.drop_nil, List.flatten_nil]
  | cons row rows ih =>
      cases k with
      | zero => rw [Nat.zero_mul, List.drop_zero, List.drop_zero]
      | succ k =>
          have hrow : row.length = m := h row List.mem_cons_self
          rw [List.flatten_cons, Nat.succ_mul, Nat.add_comm, ← hrow, List.drop_length_add_append,
            hrow, ih fun r hr => h r (List.mem_cons_of_mem _ hr), List.drop_succ_cons]

/-- A slice of whole rows has these rows. -/
lemma slice_flatten {rows : List (List α)} (h : ∀ row ∈ rows, row.length = m) (i k : ℕ) :
    slice rows.flatten (i * m) (k * m) = (slice rows i k).flatten := by
  rw [slice, slice, drop_flatten h,
    take_flatten fun row hrow => h row (List.mem_of_mem_drop hrow)]

/-- A single row. -/
lemma slice_flatten_of_getElem? {rows : List (List α)} (h : ∀ row ∈ rows, row.length = m)
    {i : ℕ} {row : List α} (hrow : rows[i]? = some row) : slice rows.flatten (i * m) m = row := by
  obtain ⟨hi, rfl⟩ := List.getElem?_eq_some_iff.mp hrow
  have hseg := slice_flatten h i 1
  rw [Nat.one_mul] at hseg
  rw [hseg, slice, List.drop_eq_getElem_cons hi, List.take_succ_cons, List.take_zero,
    List.flatten_singleton]

lemma reshape_flatten {rows : List (List α)} (h : ∀ row ∈ rows, row.length = m) :
    reshape rows.length m rows.flatten = rows := by
  refine List.ext_getElem (by simp [reshape]) fun i _ hi => ?_
  simp only [reshape, List.getElem_map, List.getElem_range]
  exact slice_flatten_of_getElem? h (List.getElem?_eq_getElem hi)

end Slices
