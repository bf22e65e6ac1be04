import Icesee.Lib.ModLattice
import Mathlib.Tactic.Ring

/-!
The seeds of the steps.

Every rank reseeds its generator at every step (`reseed_for_step`), with a seed that is a
linear function of the base seed, the step and the rank, modulo `2 ^ 31 - 1`. The rows of the
Euclidean algorithm say for which numbers of ranks and steps no seed comes twice
(`distinctSeeds_iff`): with `39603` steps and `47998` ranks this is still the case.
-/

namespace Icesee

open ModLattice

/-- `reseed_for_step`. -/
def reseedForStep (baseSeed : ℤ) (rankWorld k : ℕ) : ℤ :=
  (baseSeed * 1315423911 + 2654435761 * (k + 1) + rankWorld) % (2 ^ 31 - 1)

/-- No two ranks or steps have the same seed. -/
def DistinctSeeds (baseSeed : ℤ) (ranks steps : ℕ) : Prop :=
  ∀ r k r' k' : ℕ, r < ranks → k < steps → r' < ranks → k' < steps →
    reseedForStep baseSeed r k = reseedForStep baseSeed r' k' → r = r' ∧ k = k'

/-- The rows of the Euclidean algorithm: a difference of the steps, and the difference of the
ranks at which the seeds meet again. -/
def seedRows : List (ℕ × ℕ) :=
  [(0, 2147483647), (1, 506952114), (4, 119675191), (17, 28251350), (72, 6669791), (305,
    1572186), (1292, 381047), (5473, 47998), (39603, 45061), (45076, 2937), (715743, 1006),
    (1476562, 925), (2192305, 81), (25591917, 34), (53376139, 13), (132344195, 8), (185720334,
    5), (318064529, 3), (503784863, 2), (821849392, 1), (2147483647, 0)]

lemma rows_seedRows : Rows (2 ^ 31 - 1) 2654435761 (-1) seedRows := by decide

lemma reseedForStep_eq_iff (baseSeed : ℤ) (r k r' k' : ℕ) :
    reseedForStep baseSeed r k = reseedForStep baseSeed r' k' ↔
      Pair (2 ^ 31 - 1) 2654435761 (k - k') (r' - r) := by
  rw [reseedForStep, reseedForStep, Int.emod_eq_emod_iff_emod_sub_eq_zero,
    ← Int.dvd_iff_emod_eq_zero, Pair]
  refine iff_of_eq (congrArg _ ?_)
  ring

/-- Differences of steps and ranks. -/
lemma distinctSeeds_iff_box (baseSeed : ℤ) (ranks steps : ℕ) :
    DistinctSeeds baseSeed ranks steps ↔ ∀ x y : ℤ, Pair (2 ^ 31 - 1) 2654435761 x y →
      |x| < steps → |y| < ranks → x = 0 ∧ y = 0 := by
  constructor
  · intro h x y hxy hx hy
    rw [abs_lt] at hx hy
    have hpair : Pair (2 ^ 31 - 1) 2654435761 (x.toNat - (-x).toNat) (y.toNat - (-y).toNat) := by
      rwa [Int.toNat_sub_toNat_neg, Int.toNat_sub_toNat_neg]
    obtain ⟨hr, hk⟩ := h (-y).toNat x.toNat y.toNat (-x).toNat (by omega) (by omega)
      (by omega) (by omega) ((reseedForStep_eq_iff _ _ _ _ _).mpr hpair)
    omega
  · intro h r k r' k' hr hk hr' hk' heq
    obtain ⟨hx, hy⟩ := h _ _ ((reseedForStep_eq_iff _ _ _ _ _).mp heq)
      (by rw [abs_lt]; omega) (by rw [abs_lt]; omega)
    omega

/-- **The seeds**: for every base seed and every number of ranks and steps, no seed comes twice
exactly if no row is smaller than both numbers. -/
theorem distinctSeeds_iff (baseSeed : ℤ) (ranks steps : ℕ) :
    DistinctSeeds baseSeed ranks steps ↔ ∀ row ∈ seedRows, steps ≤ row.1 ∨ ranks ≤ row.2 := by
  rw [distinctSeeds_iff_box]
  exact box_iff rows_seedRows (by decide) (by norm_num) rfl

end Icesee
