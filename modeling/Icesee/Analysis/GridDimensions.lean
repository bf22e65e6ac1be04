import Mathlib.Analysis.Real.Sqrt
import Mathlib.Algebra.Order.Round
import Icesee.Lib.Masks
import Icesee.Lib.WhileLoop

/-!
`get_grid_dimensions`: a grid for the local analysis, in the proportions of the domain.

The square roots are rounded, scaled by what is missing, and rounded again; then two loops
move one of the numbers at a time. The loop that goes up ends with enough points
(`exists_ascend`), but the one that goes down always ends below `ndim`, after one round
(`Scaled.undershoots`). So the grid has all points exactly if neither number was rounded
to zero and the second rounding left no more than `ndim` (`getGridDimensions_iff`).
-/

namespace Icesee

open Masks WhileLoop

/-! ### The function -/

/-- The initial rounding. -/
noncomputable def initialRounding (mx my : ℝ) : ℤ × ℤ :=
  if 1 / (2 : ℕ) < mx - ⌊mx⌋ then (⌈mx⌉, ⌊my⌋)
  else if 1 / (2 : ℕ) < my - ⌊my⌋ then (⌊mx⌋, ⌈my⌉)
  else (⌊mx⌋, ⌊my⌋)

/-- `mx` and `my` after the initial rounding. -/
noncomputable def initialGrid (nx ny ndim : ℕ) : ℤ × ℤ :=
  let alpha : ℝ := nx / ny
  initialRounding √(ndim * alpha) √(ndim / alpha)

/-- `mx` and `my` after they are scaled. -/
noncomputable def rescaledGrid (ndim : ℕ) (grid : ℤ × ℤ) : ℤ × ℤ :=
  let scale := √(ndim / (grid.1 * grid.2))
  (roundHalfEven (grid.1 * scale), roundHalfEven (grid.2 * scale))

/-- A round of the loop that goes up. The division by `my` can raise. -/
def ascend (alpha : ℚ) (grid : ℤ × ℤ) : Option (ℤ × ℤ) :=
  if grid.2 = 0 then none
  else some (if (grid.1 / grid.2 : ℚ) < alpha then (grid.1 + 1, grid.2) else (grid.1, grid.2 + 1))

/-- A round of the loop that goes down. -/
def descend (alpha : ℚ) (grid : ℤ × ℤ) : Option (ℤ × ℤ) :=
  if grid.2 = 0 then none
  else some (if alpha < (grid.1 / grid.2 : ℚ) then (grid.1 - 1, grid.2) else (grid.1, grid.2 - 1))

/-- `get_grid_dimensions`, with at most `rounds` rounds of its loops: `none` if they go on, and
`some none` if there is a division by zero. -/
noncomputable def getGridDimensions (nx ny ndim rounds : ℕ) : Option (Option (ℤ × ℤ)) :=
  let grid := initialGrid nx ny ndim
  if grid.1 * grid.2 = ndim then some (some grid)
  else if grid.1 * grid.2 = 0 then some none
  else
    let grid := rescaledGrid ndim grid
    if grid.1 * grid.2 < ndim then
      loop (fun g => g.1 * g.2 < ndim) (ascend (nx / ny)) rounds grid
    else if ndim < grid.1 * grid.2 then
      loop (fun g => ndim < g.1 * g.2) (descend (nx / ny)) rounds grid
    else some (some grid)

/-- The function returns a grid on which there is a place for every index below `ndim`. -/
def CoversIndices (nx ny ndim : ℕ) : Prop :=
  ∃ rounds mx my, getGridDimensions nx ny ndim rounds = some (some (mx, my)) ∧
    1 ≤ mx ∧ 1 ≤ my ∧ ndim ≤ mx * my

/-- The branches that go wrong are not taken: the square roots are not rounded to zero, and what
they are scaled to has no more than `ndim` points. The first square root is rounded up if its
fraction is above one half; the second one then is not. -/
def RegularGrid (nx ny ndim : ℕ) : Prop :=
  let X : ℝ := √(ndim * (nx / ny))
  let Y : ℝ := √(ndim / (nx / ny))
  let mx : ℤ := if 1 / (2 : ℕ) < X - ⌊X⌋ then ⌈X⌉ else ⌊X⌋
  let my : ℤ := if 1 / (2 : ℕ) < Y - ⌊Y⌋ ∧ ¬ 1 / (2 : ℕ) < X - ⌊X⌋ then ⌈Y⌉ else ⌊Y⌋
  1 ≤ mx ∧ 1 ≤ my ∧
    roundHalfEven (mx * √(ndim / (mx * my))) * roundHalfEven (my * √(ndim / (mx * my))) ≤ ndim

/-- These are the numbers that the function computes. -/
lemma regularGrid_iff {nx ny ndim : ℕ} : RegularGrid nx ny ndim ↔
    1 ≤ (initialGrid nx ny ndim).1 ∧ 1 ≤ (initialGrid nx ny ndim).2 ∧
      (rescaledGrid ndim (initialGrid nx ny ndim)).1 *
        (rescaledGrid ndim (initialGrid nx ny ndim)).2 ≤ ndim := by
  simp only [RegularGrid, rescaledGrid, initialGrid, initialRounding, Nat.cast_ofNat]
  generalize √(ndim * (nx / ny) : ℝ) = X
  generalize √(ndim / (nx / ny) : ℝ) = Y
  by_cases hX : 1 / 2 < X - ⌊X⌋ <;> by_cases hY : 1 / 2 < Y - ⌊Y⌋ <;>
    simp only [hX, hY, not_true, not_false_eq_true, and_true, and_false, if_true, if_false]

/-! ### The loop that goes up -/

/-- From positive numbers it ends with enough points. -/
lemma exists_ascend (alpha : ℚ) (ndim : ℕ) {grid : ℤ × ℤ} (hmx : 1 ≤ grid.1) (hmy : 1 ≤ grid.2) :
    ∃ rounds g, loop (fun g : ℤ × ℤ => g.1 * g.2 < ndim) (ascend alpha) rounds grid =
      some (some g) ∧ 1 ≤ g.1 ∧ 1 ≤ g.2 ∧ ndim ≤ g.1 * g.2 := by
  have hstep : ∀ g : ℤ × ℤ, (1 ≤ g.1 ∧ 1 ≤ g.2) → g.1 * g.2 < ndim →
      ∃ g', ascend alpha g = some g' ∧ (1 ≤ g'.1 ∧ 1 ≤ g'.2) ∧
        (2 * ndim - g'.1 - g'.2).toNat < (2 * ndim - g.1 - g.2).toNat := by
    rintro ⟨x, y⟩ ⟨hx, hy⟩ hlt
    dsimp only at hx hy hlt
    -- both numbers are below `ndim`, and one of them grows
    have hxn : x < ndim := by nlinarith
    have hyn : y < ndim := by nlinarith
    rw [ascend, if_neg (by dsimp only; omega)]
    refine ⟨_, rfl, ?_, ?_⟩ <;> split_ifs <;> dsimp only <;> omega
  obtain ⟨rounds, g, hloop, ⟨h1, h2⟩, hcond⟩ := exists_loop _ _ hstep ⟨hmx, hmy⟩
  exact ⟨rounds, g, hloop, h1, h2, not_lt.mp hcond⟩

/-! ### The loop that goes down -/

/-- The loop takes one from `a`, and that is too much. -/
def Undershoots (X Y : ℝ) (a b : ℤ) : Prop := X * b < Y * a ∧ (a - 1) * b < X * Y

/-- `m` and `n` come from `X` and `Y`, and are scaled to `x` and `y`. -/
structure Scaled (X Y x y : ℝ) (m n : ℤ) : Prop where
  X_pos : 0 < X
  Y_pos : 0 < Y
  x_pos : 0 < x
  y_pos : 0 < y
  m_pos : 1 ≤ m
  n_pos : 1 ≤ n
  ratio : n * x = m * y
  area : x * y = X * Y

namespace Scaled

variable {X Y x y : ℝ} {m n : ℤ}

lemma swap (h : Scaled X Y x y m n) : Scaled Y X y x n m where
  X_pos := h.Y_pos
  Y_pos := h.X_pos
  x_pos := h.y_pos
  y_pos := h.x_pos
  m_pos := h.n_pos
  n_pos := h.m_pos
  ratio := h.ratio.symm
  area := by rw [mul_comm, h.area, mul_comm]

lemma m_pos' (h : Scaled X Y x y m n) : (1 : ℝ) ≤ m := by exact_mod_cast h.m_pos

lemma n_pos' (h : Scaled X Y x y m n) : (1 : ℝ) ≤ n := h.swap.m_pos'

/-- A product that is too large has two positive factors. -/
lemma round_pos (h : Scaled X Y x y m n)
    (hprod : x * y < roundHalfEven x * roundHalfEven y) : (0 : ℝ) < roundHalfEven x := by
  have hge : (0 : ℤ) ≤ roundHalfEven x := by
    have hlt : (-1 : ℝ) < roundHalfEven x := by
      have := le_roundHalfEven x
      have := h.x_pos
      linarith
    have hlt' : (-1 : ℤ) < roundHalfEven x := by exact_mod_cast hlt
    omega
  have hne : roundHalfEven x ≠ 0 := by
    intro h0
    rw [h0, Int.cast_zero, zero_mul] at hprod
    exact absurd hprod (not_lt.mpr (mul_pos h.x_pos h.y_pos).le)
  exact_mod_cast lt_of_le_of_ne hge hne.symm

lemma round_pos_right (h : Scaled X Y x y m n)
    (hprod : x * y < roundHalfEven x * roundHalfEven y) : (0 : ℝ) < roundHalfEven y :=
  h.swap.round_pos (by rwa [mul_comm, mul_comm (roundHalfEven y : ℝ)])

/-- The case that `y` is rounded down to `n` again, so that `x` is rounded up. -/
lemma undershoots_of_round (h : Scaled X Y x y m n) (hratio : X * n ≤ Y * m) (hn : n ≤ y)
    (hy : y < n + 1 / 2) (hprod : x * y < roundHalfEven x * roundHalfEven y) :
    Undershoots X Y (roundHalfEven x) (roundHalfEven y) := by
  have hb : roundHalfEven y = n := roundHalfEven_eq (by linarith) hy
  have hnpos := h.n_pos'
  have hx := h.x_pos
  rw [hb] at hprod ⊢
  have ha : x < roundHalfEven x := by
    by_contra hle
    have : (roundHalfEven x : ℝ) * n ≤ x * y :=
      mul_le_mul (not_lt.mp hle) hn (by linarith) hx.le
    linarith
  constructor
  · -- in the proportions of the domain there are too many columns
    have hxy : X * y ≤ Y * x := by
      have hm := h.m_pos'
      have : m * (X * y) ≤ m * (Y * x) := by
        calc m * (X * y) = X * (m * y) := by ring
          _ = X * n * x := by rw [← h.ratio]; ring
          _ ≤ Y * m * x := mul_le_mul_of_nonneg_right hratio hx.le
          _ = m * (Y * x) := by ring
      exact le_of_mul_le_mul_left this (by linarith)
    calc X * n ≤ X * y := mul_le_mul_of_nonneg_left hn h.X_pos.le
      _ ≤ Y * x := hxy
      _ < Y * roundHalfEven x := mul_lt_mul_of_pos_left ha h.Y_pos
  · have hlt : (roundHalfEven x : ℝ) - 1 < x := by linarith [roundHalfEven_le x]
    calc ((roundHalfEven x : ℝ) - 1) * n < x * n := mul_lt_mul_of_pos_right hlt (by linarith)
      _ ≤ x * y := mul_le_mul_of_nonneg_left hn hx.le
      _ = X * Y := h.area

/-- The case that `X` was rounded up and `Y` down. -/
lemma undershoots_of_ceil (h : Scaled X Y x y m n) (hm : m - 1 / 2 < X) (hm' : X < m)
    (hn : n ≤ Y) (hn' : Y < n + 1) (hprod : x * y < roundHalfEven x * roundHalfEven y) :
    Undershoots X Y (roundHalfEven x) (roundHalfEven y) := by
  have hmpos := h.m_pos'
  have hnpos := h.n_pos'
  have hX := h.X_pos
  have hY := h.Y_pos
  have hx := h.x_pos
  have hy := h.y_pos
  have hratio : X * n < Y * m := by
    calc X * n ≤ X * Y := mul_le_mul_of_nonneg_left hn hX.le
      _ < m * Y := mul_lt_mul_of_pos_right hm' hY
      _ = Y * m := mul_comm _ _
  rcases le_or_gt (n : ℝ) y with hny | hny
  · -- scaled up, `y` stays below the middle
    refine h.undershoots_of_round hratio.le hny ?_ hprod
    have hsq : m * (y * y) < m * ((n + 1 / 2) * (n + 1 / 2)) := by
      calc m * (y * y) = n * (x * y) := by rw [← mul_assoc, ← h.ratio]; ring
        _ = X * (n * Y) := by rw [h.area]; ring
        _ < m * (n * Y) := mul_lt_mul_of_pos_right hm' (by positivity)
        _ ≤ m * (n * (n + 1)) := by gcongr
        _ ≤ m * ((n + 1 / 2) * (n + 1 / 2)) :=
            mul_le_mul_of_nonneg_left (by linarith) (by linarith)
    exact lt_of_mul_self_lt_mul_self₀ (by linarith) (lt_of_mul_lt_mul_left hsq (by linarith))
  · -- scaled down, `x` is rounded to `m` again
    have hb : (roundHalfEven y : ℝ) ≤ n := by
      have hlt : (roundHalfEven y : ℝ) < n + 1 := by linarith [roundHalfEven_le y]
      have hlt' : roundHalfEven y < n + 1 := by exact_mod_cast hlt
      exact_mod_cast Int.lt_add_one_iff.mp hlt'
    have hxm : x < m := by
      have : n * x < n * m := by
        rw [h.ratio, mul_comm (n : ℝ)]
        exact mul_lt_mul_of_pos_left hny (by linarith)
      exact lt_of_mul_lt_mul_left this (by linarith)
    have hXx : X ≤ x := by
      have : n * (X * X) ≤ n * (x * x) := by
        calc n * (X * X) = X * (X * n) := by ring
          _ ≤ X * (Y * m) := mul_le_mul_of_nonneg_left hratio.le hX.le
          _ = m * (x * y) := by rw [h.area]; ring
          _ = n * (x * x) := by rw [mul_left_comm, ← h.ratio]; ring
      exact (mul_self_le_mul_self_iff hX.le hx.le).mpr (le_of_mul_le_mul_left this (by linarith))
    have ha : roundHalfEven x = m := roundHalfEven_eq (by linarith) (by linarith)
    have hbpos := h.round_pos_right hprod
    rw [ha]
    constructor
    · calc X * roundHalfEven y ≤ X * n := mul_le_mul_of_nonneg_left hb hX.le
        _ < Y * m := hratio
    · calc ((m : ℝ) - 1) * roundHalfEven y < X * roundHalfEven y :=
            mul_lt_mul_of_pos_right (by linarith) hbpos
        _ ≤ X * Y := mul_le_mul_of_nonneg_left (hb.trans hn) hX.le

/-- Numbers that were rounded down are scaled up. -/
lemma le_of_floor (h : Scaled X Y x y m n) (hm : m ≤ X) (hn : n ≤ Y) : m ≤ x := by
  have hmpos := h.m_pos'
  have hnpos := h.n_pos'
  have : n * ((m : ℝ) * m) ≤ n * (x * x) := by
    calc n * ((m : ℝ) * m) = m * (m * n) := by ring
      _ ≤ m * (X * Y) := by have := h.X_pos; gcongr
      _ = m * (x * y) := by rw [h.area]
      _ = n * (x * x) := by rw [mul_left_comm, ← h.ratio]; ring
  exact (mul_self_le_mul_self_iff (by linarith) h.x_pos.le).mpr
    (le_of_mul_le_mul_left this (by linarith))

/-- Scaling to the proportions of the domain goes no further than `Y`. -/
lemma le_of_ratio (h : Scaled X Y x y m n) (hratio : X * n ≤ Y * m) : y ≤ Y := by
  have hmpos := h.m_pos'
  have : m * (y * y) ≤ m * (Y * Y) := by
    calc m * (y * y) = n * (x * y) := by rw [← mul_assoc, ← h.ratio]; ring
      _ = Y * (X * n) := by rw [h.area]; ring
      _ ≤ Y * (Y * m) := mul_le_mul_of_nonneg_left hratio h.Y_pos.le
      _ = m * (Y * Y) := by ring
  exact (mul_self_le_mul_self_iff h.y_pos.le h.Y_pos.le).mpr
    (le_of_mul_le_mul_left this (by linarith))

/-- The case that both were rounded down, and `Y` is not in the middle. -/
lemma undershoots_of_floor (h : Scaled X Y x y m n) (hratio : X * n ≤ Y * m) (hm : m ≤ X)
    (hn : n ≤ Y) (hy : y < n + 1 / 2) (hprod : x * y < roundHalfEven x * roundHalfEven y) :
    Undershoots X Y (roundHalfEven x) (roundHalfEven y) :=
  h.undershoots_of_round hratio (h.swap.le_of_floor hn hm) hy hprod

/-- Where both were rounded down one of them is not in the middle, since `X * Y` is whole. -/
lemma undershoots_of_floors {N : ℕ} (hN : X * Y = N) (h : Scaled X Y x y m n)
    (hratio : X * n ≤ Y * m) (hm : m ≤ X) (hm' : X - m ≤ 1 / 2) (hn : n ≤ Y)
    (hn' : Y - n ≤ 1 / 2) (hprod : x * y < roundHalfEven x * roundHalfEven y) :
    Undershoots X Y (roundHalfEven x) (roundHalfEven y) ∨
      Undershoots Y X (roundHalfEven y) (roundHalfEven x) := by
  have hyY := h.le_of_ratio hratio
  rcases lt_or_ge y (n + 1 / 2) with hy | hy
  · exact .inl (h.undershoots_of_floor hratio hm hn hy hprod)
  obtain rfl : y = Y := le_antisymm hyY (by linarith)
  obtain rfl : x = X := mul_right_cancel₀ h.y_pos.ne' h.area
  rcases lt_or_ge x (m + 1 / 2) with hx | hx
  · refine .inr (h.swap.undershoots_of_floor ?_ hn hm hx ?_)
    · rw [mul_comm, ← h.ratio, mul_comm]
    · rwa [mul_comm, mul_comm (roundHalfEven y : ℝ)]
  · -- both in the middle: then `4 * N` is an odd square
    have hxm : x = m + 1 / 2 := by linarith
    have hyn : y = n + 1 / 2 := by linarith
    have hmn : (m : ℝ) = n := by
      have := h.ratio
      rw [hxm, hyn] at this
      linarith
    have hmn' : m = n := by exact_mod_cast hmn
    rw [hxm, hyn, ← hmn] at hN
    have hodd : ((4 * (m * m + m) + 1 : ℤ) : ℝ) = (4 * N : ℤ) := by
      push_cast
      linarith
    have hodd' : 4 * (m * m + m) + 1 = 4 * (N : ℤ) := by exact_mod_cast hodd
    omega

/-- Scaling does not bring a number below the middle. -/
lemma half_lt (h : Scaled X Y x y m n) (hX : 1 / 2 < X) (hn : n < Y + 1) (hN : 1 ≤ X * Y) :
    1 / 2 < x := by
  have hm := h.m_pos'
  have hnpos := h.n_pos'
  have hmX : 1 / 2 ≤ m * X := by
    calc (1 / 2 : ℝ) ≤ 1 * X := by linarith
      _ ≤ m * X := mul_le_mul_of_nonneg_right hm h.X_pos.le
  have hlt : (n : ℝ) < 4 * (m * (X * Y)) := by
    rcases le_or_gt 1 Y with hY | hY
    · have : 1 / 2 * Y ≤ m * X * Y := mul_le_mul_of_nonneg_right hmX h.Y_pos.le
      linarith
    · have hn1 : (n : ℝ) ≤ 1 := by
        have hlt : (n : ℝ) < 2 := by linarith
        have hlt' : n < 2 := by exact_mod_cast hlt
        exact_mod_cast Int.lt_add_one_iff.mp hlt'
      have : (1 : ℝ) ≤ m * (X * Y) := one_le_mul_of_one_le_of_one_le hm hN
      linarith
  have hsq : n * (1 / 2 * (1 / 2)) < n * (x * x) := by
    calc n * (1 / 2 * (1 / 2)) = (n : ℝ) / 4 := by ring
      _ < m * (X * Y) := by linarith
      _ = n * (x * x) := by rw [← h.area, mul_left_comm, ← h.ratio]; ring
  exact lt_of_mul_self_lt_mul_self₀ h.x_pos.le (lt_of_mul_lt_mul_left hsq (by linarith))

/-- So it is not rounded to zero. -/
lemma one_le_round (h : Scaled X Y x y m n) (hm : m - 1 / 2 < X) (hn : n < Y + 1)
    (hN : 1 ≤ X * Y) : 1 ≤ roundHalfEven x := by
  have hX : 1 / 2 < X := by linarith [h.m_pos']
  have hpos : (0 : ℝ) < roundHalfEven x := by
    linarith [h.half_lt hX hn hN, le_roundHalfEven x]
  exact_mod_cast hpos

end Scaled

/-! ### The initial rounding -/

lemma ceil_eq_of_half_lt {q : ℝ} (h : 1 / 2 < q - ⌊q⌋) : ⌈q⌉ = ⌊q⌋ + 1 := by
  rw [Int.ceil_eq_iff]
  push_cast
  exact ⟨by linarith, (Int.lt_floor_add_one q).le⟩

variable {X Y : ℝ}

lemma initialRounding_apply (X Y : ℝ) : initialRounding X Y =
    if 1 / 2 < X - ⌊X⌋ then (⌈X⌉, ⌊Y⌋)
    else if 1 / 2 < Y - ⌊Y⌋ then (⌊X⌋, ⌈Y⌉) else (⌊X⌋, ⌊Y⌋) := by
  simp only [initialRounding, Nat.cast_ofNat]

/-- It is to the nearest integers, or down. -/
lemma initialRounding_bounds (X Y : ℝ) :
    ((initialRounding X Y).1 - 1 / 2 < X ∧ X < (initialRounding X Y).1 + 1) ∧
      ((initialRounding X Y).2 - 1 / 2 < Y ∧ Y < (initialRounding X Y).2 + 1) := by
  have hX := Int.floor_le X
  have hY := Int.floor_le Y
  have hX' := Int.lt_floor_add_one X
  have hY' := Int.lt_floor_add_one Y
  rw [initialRounding_apply]
  split_ifs with h1 h2
  · rw [ceil_eq_of_half_lt h1]
    push_cast
    exact ⟨⟨by linarith, by linarith⟩, by linarith, by linarith⟩
  · rw [ceil_eq_of_half_lt h2]
    push_cast
    exact ⟨⟨by linarith, by linarith⟩, by linarith, by linarith⟩
  · exact ⟨⟨by linarith, by linarith⟩, by linarith, by linarith⟩

/-- **The loop that goes down** ends below `N` after its first round. -/
lemma Scaled.undershoots {N : ℕ} (hN : X * Y = N) {x y : ℝ}
    (h : Scaled X Y x y (initialRounding X Y).1 (initialRounding X Y).2)
    (hprod : x * y < roundHalfEven x * roundHalfEven y) :
    Undershoots X Y (roundHalfEven x) (roundHalfEven y) ∨
      Undershoots Y X (roundHalfEven y) (roundHalfEven x) := by
  have hX := Int.floor_le X
  have hY := Int.floor_le Y
  have hX' := Int.lt_floor_add_one X
  have hY' := Int.lt_floor_add_one Y
  have hprod' : y * x < roundHalfEven y * roundHalfEven x := by
    rwa [mul_comm, mul_comm (roundHalfEven y : ℝ)]
  rw [initialRounding_apply] at h
  split_ifs at h with h1 h2
  · rw [ceil_eq_of_half_lt h1] at h
    refine .inl (h.undershoots_of_ceil ?_ ?_ hY hY' hprod) <;> push_cast <;> linarith
  · rw [ceil_eq_of_half_lt h2] at h
    refine .inr (h.swap.undershoots_of_ceil ?_ ?_ hX hX' hprod') <;> push_cast <;> linarith
  · rcases le_total (X * ⌊Y⌋) (Y * ⌊X⌋) with hratio | hratio
    · exact h.undershoots_of_floors hN hratio hX (not_lt.mp h1) hY (not_lt.mp h2) hprod
    · rw [mul_comm] at hN
      exact (h.swap.undershoots_of_floors hN hratio hY (not_lt.mp h2) hX (not_lt.mp h1) hprod').symm

/-! ### The grid -/

section Grid

variable {nx ny ndim : ℕ}

/-- The numbers before the initial rounding. -/
noncomputable def gridX (nx ny ndim : ℕ) : ℝ := √(ndim * (nx / ny : ℝ))

noncomputable def gridY (nx ny ndim : ℕ) : ℝ := √(ndim / (nx / ny : ℝ))

lemma initialGrid_eq : initialGrid nx ny ndim =
    initialRounding (gridX nx ny ndim) (gridY nx ny ndim) := rfl

lemma aspect_pos (hnx : 1 ≤ nx) (hny : 1 ≤ ny) : (0 : ℝ) < nx / ny :=
  div_pos (Nat.cast_pos.mpr hnx) (Nat.cast_pos.mpr hny)

lemma gridX_mul_gridY (hnx : 1 ≤ nx) (hny : 1 ≤ ny) :
    gridX nx ny ndim * gridY nx ny ndim = ndim := by
  have ha := aspect_pos hnx hny
  have hsq : ndim * (nx / ny : ℝ) * (ndim / (nx / ny : ℝ)) = ndim * ndim := by
    field_simp
  rw [gridX, gridY, ← Real.sqrt_mul (by positivity), hsq, Real.sqrt_mul_self (by positivity)]

/-- They are in the proportions of the domain. -/
lemma gridX_eq (hnx : 1 ≤ nx) (hny : 1 ≤ ny) :
    gridX nx ny ndim = nx / ny * gridY nx ny ndim := by
  have ha := aspect_pos hnx hny
  have hsq : ndim * (nx / ny : ℝ) = (nx / ny : ℝ) * (nx / ny) * (ndim / (nx / ny : ℝ)) := by
    field_simp
  rw [gridX, gridY, hsq, Real.sqrt_mul (by positivity), Real.sqrt_mul_self (by positivity)]

lemma gridX_pos (hnx : 1 ≤ nx) (hny : 1 ≤ ny) (hndim : 1 ≤ ndim) : 0 < gridX nx ny ndim :=
  Real.sqrt_pos.mpr (mul_pos (Nat.cast_pos.mpr hndim) (aspect_pos hnx hny))

lemma gridY_pos (hnx : 1 ≤ nx) (hny : 1 ≤ ny) (hndim : 1 ≤ ndim) : 0 < gridY nx ny ndim :=
  Real.sqrt_pos.mpr (div_pos (Nat.cast_pos.mpr hndim) (aspect_pos hnx hny))

/-- The factor that both numbers are scaled with. -/
noncomputable def gridScale (ndim : ℕ) (grid : ℤ × ℤ) : ℝ := √(ndim / (grid.1 * grid.2))

/-- Scaling positive numbers. -/
lemma scaled_grid (hnx : 1 ≤ nx) (hny : 1 ≤ ny) (hndim : 1 ≤ ndim) {grid : ℤ × ℤ}
    (hm : 1 ≤ grid.1) (hn : 1 ≤ grid.2) : Scaled (gridX nx ny ndim) (gridY nx ny ndim)
      (grid.1 * gridScale ndim grid) (grid.2 * gridScale ndim grid) grid.1 grid.2 := by
  have hm' : (0 : ℝ) < grid.1 := by exact_mod_cast hm
  have hn' : (0 : ℝ) < grid.2 := by exact_mod_cast hn
  have hd : (0 : ℝ) < ndim := by exact_mod_cast hndim
  have hs : 0 < gridScale ndim grid := Real.sqrt_pos.mpr (by positivity)
  refine ⟨gridX_pos hnx hny hndim, gridY_pos hnx hny hndim, by positivity, by positivity, hm, hn,
    mul_left_comm _ _ _, ?_⟩
  have hsq : gridScale ndim grid * gridScale ndim grid = ndim / (grid.1 * grid.2) :=
    Real.mul_self_sqrt (by positivity)
  rw [gridX_mul_gridY hnx hny, mul_mul_mul_comm, hsq]
  field_simp

/-- The comparison in the loop, by the numbers before they were rounded. -/
lemma lt_div_iff (hnx : 1 ≤ nx) (hny : 1 ≤ ny) (hndim : 1 ≤ ndim) {a b : ℤ} (hb : 0 < b) :
    (nx / ny : ℚ) < a / b ↔ gridX nx ny ndim * b < gridY nx ny ndim * a := by
  have hb' : (0 : ℝ) < b := by exact_mod_cast hb
  have hcast : (nx / ny : ℚ) < a / b ↔ (nx / ny : ℝ) < a / b := by
    rw [← Rat.cast_lt (K := ℝ)]
    push_cast
    rfl
  rw [hcast, lt_div_iff₀ hb', gridX_eq hnx hny, mul_comm (nx / ny : ℝ) (gridY nx ny ndim),
    mul_assoc, mul_lt_mul_iff_right₀ (gridY_pos hnx hny hndim)]

/-- One round down is too much. -/
lemma exists_descend (hnx : 1 ≤ nx) (hny : 1 ≤ ny) (hndim : 1 ≤ ndim) {grid : ℤ × ℤ}
    (hgrid : initialGrid nx ny ndim = grid) (hm : 1 ≤ grid.1) (hn : 1 ≤ grid.2)
    (hlt : ndim < (rescaledGrid ndim grid).1 * (rescaledGrid ndim grid).2) :
    ∃ g, descend (nx / ny) (rescaledGrid ndim grid) = some g ∧ g.1 * g.2 < ndim := by
  have h := scaled_grid hnx hny hndim hm hn
  have hN : gridX nx ny ndim * gridY nx ny ndim = ndim := gridX_mul_gridY hnx hny
  have hgrid' : rescaledGrid ndim grid = (roundHalfEven (grid.1 * gridScale ndim grid),
    roundHalfEven (grid.2 * gridScale ndim grid)) := rfl
  rw [hgrid'] at hlt ⊢
  dsimp only at hlt
  -- the product of the rounded numbers is above the one before rounding
  have hprod : grid.1 * gridScale ndim grid * (grid.2 * gridScale ndim grid) <
      roundHalfEven (grid.1 * gridScale ndim grid) *
        roundHalfEven (grid.2 * gridScale ndim grid) := by
    rw [h.area, hN]
    exact_mod_cast hlt
  have hbpos : 0 < roundHalfEven (grid.2 * gridScale ndim grid) := by
    have := h.round_pos_right hprod
    exact_mod_cast this
  rw [← hgrid, initialGrid_eq] at h
  have hor := h.undershoots hN
  rw [← initialGrid_eq, hgrid] at hor
  replace hor := hor hprod
  -- only the rounded numbers matter from here on
  generalize roundHalfEven (grid.1 * gridScale ndim grid) = a at hor ⊢
  generalize roundHalfEven (grid.2 * gridScale ndim grid) = b at hor hbpos ⊢
  rw [descend, if_neg hbpos.ne']
  rcases hor with ⟨hratio, hless⟩ | ⟨hratio, hless⟩
  · refine ⟨_, rfl, ?_⟩
    rw [if_pos ((lt_div_iff hnx hny hndim hbpos).mpr hratio)]
    rw [hN] at hless
    exact_mod_cast hless
  · refine ⟨_, rfl, ?_⟩
    rw [if_neg fun h => lt_asymm hratio ((lt_div_iff hnx hny hndim hbpos).mp h)]
    rw [mul_comm (gridY _ _ _), hN, mul_comm] at hless
    exact_mod_cast hless

/-- The scaled numbers are positive. -/
lemma rescaledGrid_pos (hnx : 1 ≤ nx) (hny : 1 ≤ ny) (hndim : 1 ≤ ndim) {grid : ℤ × ℤ}
    (hgrid : initialGrid nx ny ndim = grid) (hm : 1 ≤ grid.1) (hn : 1 ≤ grid.2) :
    1 ≤ (rescaledGrid ndim grid).1 ∧ 1 ≤ (rescaledGrid ndim grid).2 := by
  have h := scaled_grid hnx hny hndim hm hn
  obtain ⟨⟨hX, hX'⟩, hY, hY'⟩ := initialRounding_bounds (gridX nx ny ndim) (gridY nx ny ndim)
  rw [← initialGrid_eq, hgrid] at hX hX' hY hY'
  have hN : 1 ≤ gridX nx ny ndim * gridY nx ny ndim := by
    rw [gridX_mul_gridY hnx hny]
    exact_mod_cast hndim
  exact ⟨h.one_le_round hX (by linarith) hN,
    h.swap.one_le_round hY (by linarith) (by rwa [mul_comm])⟩

/-- The initial numbers are not negative. -/
lemma initialGrid_nonneg (nx ny ndim : ℕ) :
    0 ≤ (initialGrid nx ny ndim).1 ∧ 0 ≤ (initialGrid nx ny ndim).2 := by
  obtain ⟨⟨_, hX⟩, _, hY⟩ := initialRounding_bounds (gridX nx ny ndim) (gridY nx ny ndim)
  have hX0 : 0 ≤ gridX nx ny ndim := Real.sqrt_nonneg _
  have hY0 : 0 ≤ gridY nx ny ndim := Real.sqrt_nonneg _
  have h1 : (0 : ℝ) < ((initialGrid nx ny ndim).1 + 1 : ℤ) := by
    push_cast
    exact hX0.trans_lt hX
  have h2 : (0 : ℝ) < ((initialGrid nx ny ndim).2 + 1 : ℤ) := by
    push_cast
    exact hY0.trans_lt hY
  exact ⟨Int.lt_add_one_iff.mp (by exact_mod_cast h1), Int.lt_add_one_iff.mp (by exact_mod_cast h2)⟩

/-- A grid that has `ndim` points is not scaled. -/
lemma rescaledGrid_of_eq (hndim : 1 ≤ ndim) {grid : ℤ × ℤ} (h : grid.1 * grid.2 = ndim) :
    rescaledGrid ndim grid = grid := by
  have hcast : (grid.1 : ℝ) * grid.2 = ndim := by exact_mod_cast h
  have hd : (ndim : ℝ) ≠ 0 := by exact_mod_cast (by omega : ndim ≠ 0)
  have hround : ∀ m : ℤ, roundHalfEven (m : ℝ) = m := fun m =>
    roundHalfEven_eq (by linarith) (by linarith)
  simp only [rescaledGrid, hcast, div_self hd, Real.sqrt_one, mul_one, hround]

/-- **The grid dimensions**: the grid has all points exactly if neither number is rounded to
zero, and after scaling there are not more than `ndim` points. -/
theorem getGridDimensions_iff (hnx : 1 ≤ nx) (hny : 1 ≤ ny) (hndim : 1 ≤ ndim) :
    CoversIndices nx ny ndim ↔ RegularGrid nx ny ndim := by
  obtain ⟨hm0, hn0⟩ := initialGrid_nonneg nx ny ndim
  rw [regularGrid_iff]
  constructor
  · rintro ⟨rounds, mx, my, hget, hmx, hmy, hle⟩
    rw [getGridDimensions] at hget
    dsimp only at hget
    split_ifs at hget with hall hzero hup hdown
    · -- the rounded roots have all points already
      have hgrid := Option.some.inj (Option.some.inj hget)
      refine ⟨by rw [hgrid]; exact hmx, by rw [hgrid]; exact hmy, ?_⟩
      rw [rescaledGrid_of_eq hndim hall, hall]
    · exact absurd (Option.some.inj hget).symm (Option.some_ne_none _)
    all_goals
      have hm : 1 ≤ (initialGrid nx ny ndim).1 :=
        lt_of_le_of_ne hm0 fun h => hzero (by rw [← h, zero_mul])
      have hn : 1 ≤ (initialGrid nx ny ndim).2 :=
        lt_of_le_of_ne hn0 fun h => hzero (by rw [← h, mul_zero])
    · exact ⟨hm, hn, hup.le⟩
    · -- the loop goes down: its first round already ends it, below `ndim`
      obtain ⟨g, hg, hless⟩ := exists_descend hnx hny hndim rfl hm hn hdown
      have heq := eq_of_loop_of_step hget hdown hg (not_lt.mpr hless.le)
      rw [← heq] at hless
      exact absurd hle (not_le.mpr hless)
    · exact ⟨hm, hn, not_lt.mp hdown⟩
  · rintro ⟨hm, hn, hle⟩
    by_cases hall : (initialGrid nx ny ndim).1 * (initialGrid nx ny ndim).2 = ndim
    · refine ⟨0, _, _, ?_, hm, hn, hall.ge⟩
      rw [getGridDimensions, if_pos hall]
    have hzero : (initialGrid nx ny ndim).1 * (initialGrid nx ny ndim).2 ≠ 0 :=
      mul_ne_zero (by omega) (by omega)
    obtain ⟨ha, hb⟩ := rescaledGrid_pos hnx hny hndim rfl hm hn
    -- not above `ndim`: the loop goes up, or the grid is exact
    rcases hle.lt_or_eq with hup | heq
    · obtain ⟨rounds, g, hloop, hg⟩ := exists_ascend (nx / ny) ndim ha hb
      refine ⟨rounds, g.1, g.2, ?_, hg⟩
      rw [getGridDimensions, if_neg hall, if_neg hzero, if_pos hup, hloop]
    · refine ⟨0, _, _, ?_, ha, hb, heq.ge⟩
      rw [getGridDimensions, if_neg hall, if_neg hzero, if_neg heq.not_lt, if_neg heq.not_gt]

/-- A square of one point. -/
theorem getGridDimensions_one : CoversIndices 1 1 1 ↔ RegularGrid 1 1 1 :=
  getGridDimensions_iff le_rfl le_rfl le_rfl

/-- A domain four times as high as wide, and one point: `mx` is a half, and no rounding is up. -/
theorem not_coversIndices_fourByOne : ¬ CoversIndices 1 4 1 := by
  have hX : √((1 : ℕ) * ((1 : ℕ) / (4 : ℕ) : ℝ)) = 1 / 2 := by
    rw [Real.sqrt_eq_iff_mul_self_eq (by positivity) (by positivity)]
    norm_num
  have hY : √((1 : ℕ) / ((1 : ℕ) / (4 : ℕ) : ℝ)) = 2 := by
    rw [Real.sqrt_eq_iff_mul_self_eq (by positivity) (by positivity)]
    norm_num
  have hgrid : initialGrid 1 4 1 = (0, 2) := by
    rw [initialGrid, hX, hY, initialRounding_apply]
    norm_num
  rintro ⟨rounds, mx, my, hget, -⟩
  rw [getGridDimensions, hgrid] at hget
  simp at hget

end Grid

end Icesee
