import Mathlib.Algebra.Order.Field.Basic
import Mathlib.Order.Interval.Set.Defs
import Mathlib.Tactic.Linarith
import Mathlib.Tactic.Ring

/-!
Nearest points of a strictly increasing sequence.

`IsNearest x n s i` says that none of the points `x 0, …, x (n - 1)` is nearer to `s` than
`x i`, and `IsFirstNearest` that no earlier one is as near. In an increasing sequence
both are decided by the midpoints next to `i`: `IsFirstNearest.lt_iff` and
`isNearest_iff`. Hence a position found in one sequence is a nearest position of another
one where the midpoints agree (`IsFirstNearest.isNearest_iff_midpoints`). On a uniform grid
the nearest point is within half a step (`IsNearest.abs_le_of_uniform`), and requests that
are a step apart have different nearest points (`IsFirstNearest.lt_of_uniform`).
-/

namespace Nearest

variable {K : Type*} [Field K] [LinearOrder K] [IsStrictOrderedRing K]

/-- Position `i` is as near to `s` as any other. -/
structure IsNearest (x : ℕ → K) (n : ℕ) (s : K) (i : ℕ) : Prop where
  lt : i < n
  le : ∀ k < n, |x i - s| ≤ |x k - s|

/-- It is the first such position. -/
structure IsFirstNearest (x : ℕ → K) (n : ℕ) (s : K) (i : ℕ) : Prop extends
    IsNearest x n s i where
  first : ∀ k < i, ¬ IsNearest x n s k

/-! ### Midpoints -/

/-- Which of two points is nearer changes at the midpoint. -/
lemma right_le_left_iff {a b s : K} (hab : a < b) : |b - s| ≤ |a - s| ↔ a + b ≤ 2 * s := by
  have hdiff : (a - s) ^ 2 - (b - s) ^ 2 = (b - a) * (2 * s - (a + b)) := by ring
  rw [← sq_le_sq, ← sub_nonneg, hdiff, mul_nonneg_iff_of_pos_left (sub_pos.mpr hab), sub_nonneg]

lemma left_le_right_iff {a b s : K} (hab : a < b) : |a - s| ≤ |b - s| ↔ 2 * s ≤ a + b := by
  have hdiff : (b - s) ^ 2 - (a - s) ^ 2 = (b - a) * (a + b - 2 * s) := by ring
  rw [← sq_le_sq, ← sub_nonneg, hdiff, mul_nonneg_iff_of_pos_left (sub_pos.mpr hab), sub_nonneg]

variable {x : ℕ → K} {n i j : ℕ} {s s' : K}

/-- The first nearest position is beyond `i` if `s` is beyond the midpoint after `i`. -/
lemma IsFirstNearest.lt_iff (hx : StrictMonoOn x (Set.Iio n)) (h : IsFirstNearest x n s j)
    (hi : i + 1 < n) : i < j ↔ x i + x (i + 1) < 2 * s := by
  have hin : i < n := by omega
  refine ⟨fun hij => ?_, fun hs => ?_⟩
  · by_contra hle
    have hnear : |x i - s| ≤ |x j - s| := by
      have hmono : x (i + 1) ≤ x j := hx.monotoneOn hi h.lt hij
      exact (left_le_right_iff (hx hin h.lt hij)).mpr (by linarith)
    exact h.first i hij ⟨hin, fun k hk => hnear.trans (h.le k hk)⟩
  · by_contra hji
    have hmono : x j ≤ x i := hx.monotoneOn h.lt hin (by omega)
    have hfar := (left_le_right_iff (hx h.lt hi (by omega))).mp (h.le (i + 1) hi)
    linarith

/-- A position is nearest if `s` is between the midpoints next to it. -/
lemma isNearest_iff (hx : StrictMonoOn x (Set.Iio n)) (hi : i < n) :
    IsNearest x n s i ↔
      (∀ k, k + 1 = i → x k + x i ≤ 2 * s) ∧ (i + 1 < n → 2 * s ≤ x i + x (i + 1)) := by
  refine ⟨fun h => ⟨fun k hk => ?_, fun hi' => ?_⟩, fun ⟨hlow, hhigh⟩ => ⟨hi, fun k hk => ?_⟩⟩
  · have hkn : k < n := by omega
    exact (right_le_left_iff (hx hkn hi (by omega))).mp (h.le k hkn)
  · exact (left_le_right_iff (hx hi hi' (by omega))).mp (h.le _ hi')
  · rcases lt_trichotomy k i with hki | rfl | hik
    · obtain ⟨l, rfl⟩ : ∃ l, l + 1 = i := ⟨i - 1, by omega⟩
      have hln : l < n := by omega
      have hmono : x k ≤ x l := hx.monotoneOn hk hln (by omega)
      have hmid := hlow l rfl
      exact (right_le_left_iff (hx hk hi hki)).mpr (by linarith)
    · rfl
    · have hin : i + 1 < n := by omega
      have hmono : x (i + 1) ≤ x k := hx.monotoneOn hin hk hik
      have hmid := hhigh hin
      exact (left_le_right_iff (hx hi hk hik)).mpr (by linarith)

/-- A nearest position of one sequence, used in another one: it is nearest there too if and
only if no midpoint of the two sequences puts `s` on different sides. -/
lemma IsFirstNearest.isNearest_iff_midpoints {g : ℕ → K} {m : ℕ} (hmn : m ≤ n)
    (hx : StrictMonoOn x (Set.Iio n)) (hg : StrictMonoOn g (Set.Iio m))
    (h : IsFirstNearest x n s j) :
    IsNearest g m s j ↔ 0 < m ∧ (m < n → 2 * s ≤ x (m - 1) + x m) ∧
      ∀ i, i + 1 < m → (x i + x (i + 1) < 2 * s → g i + g (i + 1) ≤ 2 * s) ∧
        (2 * s ≤ x i + x (i + 1) → 2 * s ≤ g i + g (i + 1)) := by
  refine ⟨fun hj => ⟨Nat.zero_lt_of_lt hj.lt, fun hm => ?_, fun i hi => ⟨fun hs => ?_,
    fun hs => ?_⟩⟩, fun ⟨hpos, hend, hmid⟩ => ?_⟩
  · obtain ⟨l, rfl⟩ : ∃ l, l + 1 = m := ⟨m - 1, by have := hj.lt; omega⟩
    -- beyond the end of `g` a nearest position of `x` is none of `g`
    refine le_of_not_gt fun hlt => ?_
    have hbeyond := (h.lt_iff hx hm).mpr hlt
    have := hj.lt
    omega
  · have hij := (h.lt_iff hx (hi.trans_le hmn)).mpr hs
    -- `j` is right of the midpoint, so its left midpoint in `g` is not above `s`
    obtain ⟨k, rfl⟩ : ∃ k, k + 1 = j := ⟨j - 1, by omega⟩
    have hkm : k < m := Nat.lt_of_succ_lt hj.lt
    have hmid := ((isNearest_iff hg hj.lt).mp hj).1 k rfl
    have hfst : g i ≤ g k := hg.monotoneOn (Nat.lt_of_succ_lt hi) hkm (by omega)
    have hsnd : g (i + 1) ≤ g (k + 1) := hg.monotoneOn hi hj.lt (by omega)
    linarith
  · have hji : j ≤ i := by
      by_contra hij
      exact ((h.lt_iff hx (hi.trans_le hmn)).mp (not_le.mp hij)).not_ge hs
    -- `j` is left of the midpoint, and so is its right midpoint in `g`
    have hjm : j + 1 < m := by omega
    have hmid := ((isNearest_iff hg hj.lt).mp hj).2 hjm
    have hfst : g j ≤ g i := hg.monotoneOn hj.lt (Nat.lt_of_succ_lt hi) hji
    have hsnd : g (j + 1) ≤ g (i + 1) := hg.monotoneOn hjm hi (by omega)
    linarith
  · have hjm : j < m := by
      by_contra hle
      have hm : m < n := (not_lt.mp hle).trans_lt h.lt
      obtain ⟨l, rfl⟩ : ∃ l, l + 1 = m := ⟨m - 1, by omega⟩
      exact ((h.lt_iff hx hm).mp (by omega)).not_ge (hend hm)
    -- the midpoints next to `j` decide
    refine (isNearest_iff hg hjm).mpr ⟨fun k hk => ?_, fun hj => ?_⟩
    · subst hk
      exact (hmid k hjm).1 ((h.lt_iff hx (hjm.trans_le hmn)).mp (Nat.lt_succ_self k))
    · exact (hmid j hj).2 (le_of_not_gt fun hlt =>
        lt_irrefl j ((h.lt_iff hx (hj.trans_le hmn)).mpr hlt))

/-! ### Uniform grids -/

/-- The nearest point is within half a step of a request between the ends. -/
lemma IsNearest.abs_le_of_uniform {d : K} (hd : 0 ≤ d) (hx : StrictMonoOn x (Set.Iio n))
    (hstep : ∀ k, k + 1 < n → x (k + 1) - x k = d) (h : IsNearest x n s i) (hlow : x 0 ≤ s)
    (hhigh : s ≤ x (n - 1)) : |x i - s| ≤ 1 / 2 * d := by
  obtain ⟨hleft, hright⟩ := (isNearest_iff hx h.lt).mp h
  have hbelow : x i - s ≤ 1 / 2 * d := by
    cases i with
    | zero => linarith
    | succ k =>
        have hmid := hleft k rfl
        have hk := hstep k h.lt
        linarith
  have habove : s - x i ≤ 1 / 2 * d := by
    by_cases hi : i + 1 < n
    · have hmid := hright hi
      have hk := hstep i hi
      linarith
    · have hlast : n - 1 = i := by have := h.lt; omega
      rw [hlast] at hhigh
      linarith
  exact abs_le.mpr ⟨by linarith, hbelow⟩

/-- Requests that are at least a step apart have different nearest points. -/
lemma IsFirstNearest.lt_of_uniform {d : K} (hd : 0 < d) (hx : StrictMonoOn x (Set.Iio n))
    (hstep : ∀ k, k + 1 < n → x (k + 1) - x k = d) (h : IsFirstNearest x n s i)
    (h' : IsFirstNearest x n s' j) (hlow : x 0 ≤ s) (hhigh : s' ≤ x (n - 1)) (hss : s + d ≤ s') :
    i < j := by
  -- `s` is beyond the left end of the cell of `i`, which a tie would give to the cell before
  have hcell : 2 * x i < 2 * s + d := by
    cases i with
    | zero => linarith
    | succ k =>
        have hmid := (h.lt_iff hx h.lt).mp (Nat.lt_succ_self k)
        have hk := hstep k h.lt
        linarith
  by_cases hi : i + 1 < n
  · have hk := hstep i hi
    rw [h'.lt_iff hx hi]
    linarith
  · have hlast : n - 1 = i := by have := h.lt; omega
    rw [hlast] at hhigh
    linarith

end Nearest
