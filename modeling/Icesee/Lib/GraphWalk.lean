import Mathlib.Algebra.Order.BigOperators.Ring.Finset
import Mathlib.Algebra.Order.Field.Basic
import Mathlib.Algebra.Order.Ring.Abs
import Mathlib.Data.Fintype.BigOperators
import Mathlib.Tactic.FieldSimp
import Mathlib.Tactic.Linarith
import Mathlib.Tactic.Ring

/-!
The lazy walk on a weighted graph, as a smoothing of fields.

A pass replaces the value at a vertex by a blend of the value and the weighted mean of its
neighbours (`lazyWalk`); at an isolated vertex the mean is `0`. With symmetric weights that
are not negative, and a blend between `0` and `1`, a pass

* keeps the sum weighted with the degrees (`sum_deg_lazyWalk`),
* keeps bounds on the absolute value (`abs_lazyWalk_le`),
* does not make the field rougher (`roughness_lazyWalk_le`): the walk is self-adjoint for the
  inner product with the degrees, and the Laplacian `q - walk q` is at most twice the identity.
-/

namespace GraphWalk

/-- Symmetric weights of the edges that are not negative. -/
structure Weights (ι K : Type) [Zero K] [LE K] where
  w : ι → ι → K
  symm : ∀ i j, w i j = w j i
  nonneg : ∀ i j, 0 ≤ w i j

namespace Weights

variable {ι K : Type} [Fintype ι] [Field K] [LinearOrder K] (W : Weights ι K)

/-- The degree of a vertex. -/
def deg (i : ι) : K := ∑ j, W.w i j

/-- The degree, and `1` at an isolated vertex. -/
def degSafe (i : ι) : K := if 0 < W.deg i then W.deg i else 1

/-- The mean of the neighbours. -/
def walk (q : ι → K) (i : ι) : K := (∑ j, W.w i j * q j) / W.degSafe i

/-- A pass with a blend. -/
def lazyWalk (b : K) (q : ι → K) (i : ι) : K := (1 - b) * q i + b * W.walk q i

/-- The inner product with the degrees. -/
def inner (u v : ι → K) : K := ∑ i, W.deg i * (u i * v i)

/-- How much the field varies along the edges. -/
def roughness (q : ι → K) : K := ∑ i, ∑ j, W.w i j * (q i - q j) ^ 2

/-- The difference between a field and the means of the neighbours. -/
def laplacian (q : ι → K) (i : ι) : K := q i - W.walk q i

variable {W} {q u v : ι → K} {b c : K} {i : ι}

/-! ### Degrees -/

section Degrees

variable [IsStrictOrderedRing K]

lemma deg_nonneg (i : ι) : 0 ≤ W.deg i := Finset.sum_nonneg fun j _ => W.nonneg i j

lemma degSafe_pos (i : ι) : 0 < W.degSafe i := by
  rw [degSafe]
  split_ifs with h
  · exact h
  · exact one_pos

/-- An isolated vertex has no weights. -/
lemma w_eq_zero (h : ¬ 0 < W.deg i) (j : ι) : W.w i j = 0 := by
  have hzero : W.deg i = 0 := le_antisymm (not_lt.mp h) (deg_nonneg i)
  exact (Finset.sum_eq_zero_iff_of_nonneg fun j _ => W.nonneg i j).mp hzero j (Finset.mem_univ j)

/-- The degree does not see the division at isolated vertices. -/
lemma deg_mul_walk (q : ι → K) (i : ι) : W.deg i * W.walk q i = ∑ j, W.w i j * q j := by
  rw [walk, degSafe]
  split_ifs with h
  · exact mul_div_cancel₀ _ h.ne'
  · have hdeg : W.deg i = 0 := le_antisymm (not_lt.mp h) (deg_nonneg i)
    simp [hdeg, w_eq_zero h]

omit [IsStrictOrderedRing K] in
/-- The columns have the sums of the rows. -/
lemma sum_sum_mul (q : ι → K) : ∑ i, ∑ j, W.w i j * q j = ∑ i, W.deg i * q i := by
  rw [Finset.sum_comm]
  refine Finset.sum_congr rfl fun j _ => ?_
  rw [deg, Finset.sum_mul]
  exact Finset.sum_congr rfl fun i _ => by rw [W.symm]

/-- **Conservation**: a pass keeps the sum weighted with the degrees. -/
theorem sum_deg_lazyWalk (b : K) (q : ι → K) :
    ∑ i, W.deg i * W.lazyWalk b q i = ∑ i, W.deg i * q i := by
  have hterm : ∀ i, W.deg i * W.lazyWalk b q i =
      (1 - b) * (W.deg i * q i) + b * ∑ j, W.w i j * q j := by
    intro i
    rw [← deg_mul_walk, lazyWalk]
    ring
  rw [Finset.sum_congr rfl fun i _ => hterm i, Finset.sum_add_distrib, ← Finset.mul_sum,
    ← Finset.mul_sum, sum_sum_mul]
  ring

/-! ### Bounds -/

lemma abs_walk_le (h : ∀ j, |q j| ≤ c) (i : ι) : |W.walk q i| ≤ c := by
  have hc : 0 ≤ c := (abs_nonneg _).trans (h i)
  have hsum : |∑ j, W.w i j * q j| ≤ W.deg i * c := by
    calc |∑ j, W.w i j * q j| ≤ ∑ j, |W.w i j * q j| := Finset.abs_sum_le_sum_abs _ _
      _ ≤ ∑ j, W.w i j * c := by
        refine Finset.sum_le_sum fun j _ => ?_
        rw [abs_mul, abs_of_nonneg (W.nonneg i j)]
        exact mul_le_mul_of_nonneg_left (h j) (W.nonneg i j)
      _ = W.deg i * c := by rw [deg, Finset.sum_mul]
  have hsafe : W.deg i ≤ W.degSafe i := by
    rw [degSafe]
    split_ifs with hd
    · exact le_rfl
    · exact (not_lt.mp hd).trans one_pos.le
  rw [walk, abs_div, abs_of_pos (degSafe_pos (W := W) i), div_le_iff₀ (degSafe_pos i), mul_comm]
  exact hsum.trans (mul_le_mul_of_nonneg_right hsafe hc)

/-- **Bounds**: a pass keeps a bound on the absolute values. -/
theorem abs_lazyWalk_le (hb : 0 ≤ b) (hb1 : b ≤ 1) (h : ∀ j, |q j| ≤ c) (i : ι) :
    |W.lazyWalk b q i| ≤ c := by
  calc |W.lazyWalk b q i| ≤ |(1 - b) * q i| + |b * W.walk q i| := abs_add_le _ _
    _ = (1 - b) * |q i| + b * |W.walk q i| := by
      rw [abs_mul, abs_mul, abs_of_nonneg (sub_nonneg.mpr hb1), abs_of_nonneg hb]
    _ ≤ (1 - b) * c + b * c :=
      add_le_add (mul_le_mul_of_nonneg_left (h i) (sub_nonneg.mpr hb1))
        (mul_le_mul_of_nonneg_left (abs_walk_le h i) hb)
    _ = c := by ring

/-! ### Roughness -/

lemma inner_walk (u v : ι → K) : W.inner u (W.walk v) = ∑ i, ∑ j, W.w i j * (u i * v j) := by
  refine Finset.sum_congr rfl fun i _ => ?_
  rw [mul_left_comm, deg_mul_walk, Finset.mul_sum]
  exact Finset.sum_congr rfl fun j _ => by ring

/-- **Symmetry** of the walk. -/
lemma inner_walk_comm (u v : ι → K) : W.inner u (W.walk v) = W.inner v (W.walk u) := by
  rw [inner_walk, inner_walk, Finset.sum_comm]
  refine Finset.sum_congr rfl fun j _ => Finset.sum_congr rfl fun i _ => ?_
  rw [W.symm]
  ring

omit [IsStrictOrderedRing K] in
lemma inner_comm (u v : ι → K) : W.inner u v = W.inner v u :=
  Finset.sum_congr rfl fun i _ => by ring

omit [IsStrictOrderedRing K] in
lemma inner_sub_right (u v v' : ι → K) :
    W.inner u (fun i => v i - v' i) = W.inner u v - W.inner u v' := by
  rw [inner, inner, inner, ← Finset.sum_sub_distrib]
  exact Finset.sum_congr rfl fun i _ => by ring

omit [IsStrictOrderedRing K] in
lemma inner_mul_right (u v : ι → K) : W.inner u (fun i => b * v i) = b * W.inner u v := by
  rw [inner, inner, Finset.mul_sum]
  exact Finset.sum_congr rfl fun i _ => by ring

lemma inner_self_nonneg (u : ι → K) : 0 ≤ W.inner u u :=
  Finset.sum_nonneg fun i _ => mul_nonneg (deg_nonneg i) (mul_self_nonneg _)

omit [IsStrictOrderedRing K] in
lemma inner_laplacian (u v : ι → K) :
    W.inner u (W.laplacian v) = W.inner u v - W.inner u (W.walk v) := inner_sub_right u v _

lemma inner_laplacian_comm (u v : ι → K) :
    W.inner u (W.laplacian v) = W.inner v (W.laplacian u) := by
  rw [inner_laplacian, inner_laplacian, inner_walk_comm, inner_comm u v]

omit [IsStrictOrderedRing K] in
lemma sum_row (q : ι → K) : ∑ i, ∑ j, W.w i j * (q i * q i) = W.inner q q := by
  refine Finset.sum_congr rfl fun i _ => ?_
  rw [deg, Finset.sum_mul]

omit [IsStrictOrderedRing K] in
lemma sum_column (q : ι → K) : ∑ i, ∑ j, W.w i j * (q j * q j) = W.inner q q :=
  sum_sum_mul fun j => q j * q j

/-- The roughness as a quadratic form. -/
lemma roughness_eq (q : ι → K) : W.roughness q = 2 * W.inner q (W.laplacian q) := by
  have hterm : ∀ i j, W.w i j * (q i - q j) ^ 2 = W.w i j * (q i * q i) + W.w i j * (q j * q j) -
      2 * (W.w i j * (q i * q j)) := fun i j => by ring
  simp only [roughness, hterm, Finset.sum_sub_distrib, Finset.sum_add_distrib, ← Finset.mul_sum]
  rw [sum_row, sum_column, ← inner_walk, inner_laplacian]
  ring

/-- The Laplacian is at most twice the identity. -/
lemma roughness_le (q : ι → K) : W.roughness q ≤ 4 * W.inner q q := by
  calc W.roughness q
      ≤ ∑ i, ∑ j, (2 * (W.w i j * (q i * q i)) + 2 * (W.w i j * (q j * q j))) := by
        refine Finset.sum_le_sum fun i _ => Finset.sum_le_sum fun j _ => ?_
        have hsq : (q i - q j) ^ 2 ≤ 2 * (q i * q i) + 2 * (q j * q j) := by
          nlinarith [sq_nonneg (q i + q j)]
        nlinarith [mul_le_mul_of_nonneg_left hsq (W.nonneg i j)]
    _ = 4 * W.inner q q := by
        simp only [Finset.sum_add_distrib, ← Finset.mul_sum]
        rw [sum_row, sum_column]
        ring

omit [IsStrictOrderedRing K] in
lemma lazyWalk_eq (b : K) (q : ι → K) :
    W.lazyWalk b q = fun i => q i - b * W.laplacian q i := by
  funext i
  rw [lazyWalk, laplacian]
  ring

omit [IsStrictOrderedRing K] in
lemma laplacian_lazyWalk (b : K) (q : ι → K) : W.laplacian (W.lazyWalk b q) =
    fun i => W.laplacian q i - b * W.laplacian (W.laplacian q) i := by
  have hwalk : ∀ i, W.walk (W.lazyWalk b q) i =
      W.walk q i - b * W.walk (W.laplacian q) i := by
    intro i
    rw [lazyWalk_eq]
    simp only [walk]
    rw [← mul_div_assoc, ← sub_div, Finset.mul_sum, ← Finset.sum_sub_distrib]
    exact congrArg (· / _) (Finset.sum_congr rfl fun j _ => by ring)
  funext i
  rw [laplacian, hwalk, lazyWalk_eq, laplacian, laplacian]
  simp only [laplacian]
  ring

/-- What a pass takes from the roughness. -/
lemma roughness_lazyWalk_add_le (b : K) (q : ι → K) :
    W.roughness (W.lazyWalk b q) ≤
      W.roughness q - 4 * (b * (1 - b)) * W.inner (W.laplacian q) (W.laplacian q) := by
  set l := W.laplacian q
  set m := W.laplacian l
  have hlm : W.inner l m = W.roughness l / 2 := by
    rw [roughness_eq]
    ring
  have hle : W.inner l m ≤ 2 * W.inner l l := by
    rw [hlm]
    linarith [roughness_le (W := W) l]
  have hqm : W.inner q m = W.inner l l := inner_laplacian_comm q l
  have hexpand : W.inner (W.lazyWalk b q) (W.laplacian (W.lazyWalk b q)) =
      W.inner q l - 2 * b * W.inner l l + b ^ 2 * W.inner l m := by
    rw [laplacian_lazyWalk, inner_sub_right, inner_mul_right, inner_comm _ l, inner_comm _ m,
      lazyWalk_eq, inner_sub_right, inner_sub_right, inner_mul_right, inner_mul_right,
      inner_comm l q, inner_comm m q, inner_comm m l, hqm]
    ring
  rw [roughness_eq, roughness_eq, hexpand]
  have hb2 : b ^ 2 * W.inner l m ≤ b ^ 2 * (2 * W.inner l l) :=
    mul_le_mul_of_nonneg_left hle (sq_nonneg b)
  linarith

/-- **Smoothing**: a pass does not make the field rougher. -/
theorem roughness_lazyWalk_le (hb : 0 ≤ b) (hb1 : b ≤ 1) (q : ι → K) :
    W.roughness (W.lazyWalk b q) ≤ W.roughness q := by
  have hpos : 0 ≤ 4 * (b * (1 - b)) * W.inner (W.laplacian q) (W.laplacian q) :=
    mul_nonneg (mul_nonneg (by norm_num) (mul_nonneg hb (sub_nonneg.mpr hb1)))
      (inner_self_nonneg _)
  linarith [roughness_lazyWalk_add_le (W := W) b q]

/-! ### Several passes -/

/-- What passes make of a field. -/
structure Smoother (W : Weights ι K) (q q' : ι → K) : Prop where
  conserved : ∑ i, W.deg i * q' i = ∑ i, W.deg i * q i
  bounded : ∀ c, (∀ i, |q i| ≤ c) → ∀ i, |q' i| ≤ c
  smoother : W.roughness q' ≤ W.roughness q

namespace Smoother

omit [IsStrictOrderedRing K] in
lemma refl (q : ι → K) : Smoother W q q := ⟨rfl, fun _ h => h, le_rfl⟩

omit [IsStrictOrderedRing K] in
lemma trans (h : Smoother W q u) (h' : Smoother W u v) : Smoother W q v where
  conserved := h'.conserved.trans h.conserved
  bounded c hc := h'.bounded c (h.bounded c hc)
  smoother := h'.smoother.trans h.smoother

/-- One pass. -/
lemma lazyWalk (hb : 0 ≤ b) (hb1 : b ≤ 1) (q : ι → K) : Smoother W q (W.lazyWalk b q) where
  conserved := sum_deg_lazyWalk b q
  bounded _ h := abs_lazyWalk_le hb hb1 h
  smoother := roughness_lazyWalk_le hb hb1 q

/-- **Any number of passes.** -/
theorem iterate (hb : 0 ≤ b) (hb1 : b ≤ 1) (q : ι → K) (n : ℕ) :
    Smoother W q ((W.lazyWalk b)^[n] q) := by
  induction n with
  | zero => exact refl q
  | succ n ih =>
      rw [Function.iterate_succ_apply']
      exact ih.trans (lazyWalk hb hb1 _)

end Smoother

end Degrees

end Weights

end GraphWalk
