import Mathlib.Data.Matrix.Mul

/-!
The noise of the random fields.

`compute_noise_random_fields` draws a field for every block, correlates the blocks, and
flattens the result. Its callers add it to a state in which the points of a variable are
consecutive; the array that is flattened has the points as its rows, so that it is the
variables of a point that are consecutive (`noise_pointEntry`). `laidOutByVariable_iff` says
when this makes no difference.
-/

namespace Icesee

open Matrix

variable {K : Type} [Field K] {hdim numBlocks : ℕ}

/-- `gs.SRF(model, seed=seed)(pos)`, point by point. -/
abbrev RandomFieldGenerator (K : Type) : Type := ℕ → ℕ → K

namespace RandomFields

/-- The seed of block `i` of member `k`. -/
def seed (numBlocks k i : ℕ) : ℕ := k * numBlocks + i

/-- `Y`, with the points as its rows. -/
def fields (srf : RandomFieldGenerator K) (k hdim numBlocks : ℕ) :
    Matrix (Fin hdim) (Fin numBlocks) K :=
  of fun p i => srf (seed numBlocks k i) p

/-- `X.flatten()`, row by row. -/
def flatten {m n : ℕ} (X : Matrix (Fin m) (Fin n) K) : Fin (m * n) → K :=
  fun e => X e.divNat e.modNat

end RandomFields

open RandomFields

/-- `compute_noise_random_fields`. -/
def computeNoiseRandomFields (srf : RandomFieldGenerator K) (k hdim numBlocks : ℕ)
    (L_C : Matrix (Fin numBlocks) (Fin numBlocks) K) : Fin (hdim * numBlocks) → K :=
  flatten (fields srf k hdim numBlocks * L_Cᵀ)

namespace RandomFields

/-- Entry `v*hdim + p`, where the state has point `p` of variable `v`. -/
def blockEntry (v : Fin numBlocks) (p : Fin hdim) : Fin (hdim * numBlocks) :=
  ⟨v * hdim + p, by
    have := Nat.mul_le_mul_left hdim v.2
    rw [Nat.succ_eq_add_one, mul_add, mul_one, mul_comm] at this
    omega⟩

/-- Entry `p*num_blocks + v`. -/
def pointEntry (v : Fin numBlocks) (p : Fin hdim) : Fin (hdim * numBlocks) :=
  ⟨p * numBlocks + v, by
    have := Nat.mul_le_mul_right numBlocks p.2
    rw [Nat.succ_eq_add_one, add_mul, one_mul] at this
    omega⟩

/-- The correlated field of variable `v` at point `p`. -/
def correlatedField (srf : RandomFieldGenerator K) (k : ℕ)
    (L_C : Matrix (Fin numBlocks) (Fin numBlocks) K) (v : Fin numBlocks) (p : Fin hdim) : K :=
  ∑ i, L_C v i * srf (seed numBlocks k i) p

/-- For all fields and members, the noise has the layout of the state. -/
def LaidOutByVariable (hdim : ℕ) (L_C : Matrix (Fin numBlocks) (Fin numBlocks) K) : Prop :=
  ∀ (srf : RandomFieldGenerator K) (k : ℕ) (v : Fin numBlocks) (p : Fin hdim),
    computeNoiseRandomFields srf k hdim numBlocks L_C (blockEntry v p) =
      correlatedField srf k L_C v p

/-- Different members or blocks have different seeds. -/
def DistinctSeeds (numBlocks : ℕ) : Prop :=
  ∀ (k k' : ℕ) (i i' : Fin numBlocks), seed numBlocks k i = seed numBlocks k' i' → k = k' ∧ i = i'

/-! ### The entries of the noise -/

lemma div_mod_row {n i : ℕ} (hi : i < n) (k : ℕ) : (k * n + i) / n = k ∧ (k * n + i) % n = i := by
  rw [mul_comm]
  refine ⟨?_, ?_⟩
  · rw [Nat.mul_add_div (Nat.zero_lt_of_lt hi), Nat.div_eq_of_lt hi, add_zero]
  · rw [Nat.mul_add_mod, Nat.mod_eq_of_lt hi]

lemma distinctSeeds (numBlocks : ℕ) : DistinctSeeds numBlocks := by
  intro k k' i i' h
  obtain ⟨hdiv, hmod⟩ := div_mod_row i.2 k
  obtain ⟨hdiv', hmod'⟩ := div_mod_row i'.2 k'
  rw [seed, seed] at h
  rw [h] at hdiv hmod
  exact ⟨hdiv.symm.trans hdiv', Fin.ext (hmod.symm.trans hmod')⟩

variable {srf : RandomFieldGenerator K} {k : ℕ} {L_C : Matrix (Fin numBlocks) (Fin numBlocks) K}

/-- An entry of the noise, with its variable and its point. -/
lemma noise_apply (e : Fin (hdim * numBlocks)) :
    computeNoiseRandomFields srf k hdim numBlocks L_C e =
      correlatedField srf k L_C e.modNat e.divNat := by
  rw [computeNoiseRandomFields, flatten, Matrix.mul_apply, correlatedField]
  exact Finset.sum_congr rfl fun i _ => mul_comm _ _

/-- The variables of a point are consecutive. -/
lemma noise_pointEntry (v : Fin numBlocks) (p : Fin hdim) :
    computeNoiseRandomFields srf k hdim numBlocks L_C (pointEntry v p) =
      correlatedField srf k L_C v p := by
  obtain ⟨hdiv, hmod⟩ := div_mod_row v.2 (p : ℕ)
  have hpoint : (pointEntry v p).divNat = p := Fin.ext hdiv
  have hvar : (pointEntry v p).modNat = v := Fin.ext hmod
  rw [noise_apply, hpoint, hvar]

/-! ### The two layouts -/

/-- A single draw of one at a single point. -/
lemma correlatedField_single (v i : Fin numBlocks) (p p' : Fin hdim) :
    correlatedField (fun s q => if s = seed numBlocks 0 i ∧ q = (p : ℕ) then 1 else 0) 0 L_C v p' =
      if p' = p then L_C v i else 0 := by
  have hseed : ∀ j : Fin numBlocks, seed numBlocks 0 j = seed numBlocks 0 i ↔ j = i := fun j =>
    ⟨fun h => (distinctSeeds numBlocks 0 0 j i h).2, fun h => h ▸ rfl⟩
  simp only [correlatedField, hseed, Fin.val_inj, ite_and, mul_ite, mul_one, mul_zero,
    Finset.sum_ite_eq', Finset.mem_univ, if_true]

/-- Where the fields are always the same, so are the points and the rows, unless there is no
noise. -/
lemma eq_of_correlatedField_eq {v v' : Fin numBlocks} {p p' : Fin hdim}
    (h : ∀ srf : RandomFieldGenerator K,
      correlatedField srf 0 L_C v' p' = correlatedField srf 0 L_C v p)
    (hv : L_C v ≠ 0) : p' = p ∧ L_C v' = L_C v := by
  have hentry : ∀ i, (if p' = p then L_C v' i else 0) = L_C v i := by
    intro i
    have hi := h fun s q => if s = seed numBlocks 0 i ∧ q = (p : ℕ) then (1 : K) else 0
    rwa [correlatedField_single, correlatedField_single, if_pos rfl] at hi
  obtain ⟨i, hi⟩ := Function.ne_iff.mp hv
  have hp : p' = p := by
    by_contra hne
    have hzero := hentry i
    rw [if_neg hne] at hzero
    exact hi hzero.symm
  exact ⟨hp, funext fun j => (if_pos hp).symm.trans (hentry j)⟩

/-- The entries of a variable with noise are those of its points, and of variables with the
same noise. -/
lemma LaidOutByVariable.row {v : Fin numBlocks} (h : LaidOutByVariable hdim L_C)
    (hv : L_C v ≠ 0) (p : Fin hdim) :
    (v * hdim + p) / numBlocks = p ∧ L_C (blockEntry v p).modNat = L_C v := by
  have hentry : ∀ srf : RandomFieldGenerator K,
      correlatedField srf 0 L_C (blockEntry v p).modNat (blockEntry v p).divNat =
        correlatedField srf 0 L_C v p := fun srf => (noise_apply _).symm.trans (h srf 0 v p)
  obtain ⟨hpoint, hrow⟩ := eq_of_correlatedField_eq hentry hv
  exact ⟨congrArg Fin.val hpoint, hrow⟩

/-- With two points or more, the variable is the one in the middle. -/
lemma LaidOutByVariable.numBlocks_eq {v : Fin numBlocks} (h : LaidOutByVariable hdim L_C)
    (hdim2 : 1 < hdim) (hv : L_C v ≠ 0) : numBlocks = v * hdim + 1 := by
  obtain ⟨d, rfl⟩ : ∃ d, hdim = d + 1 := ⟨hdim - 1, by omega⟩
  have hpos : 0 < numBlocks := Fin.pos v
  have hfirst := (h.row hv ⟨0, Nat.succ_pos d⟩).1
  have hlast := (h.row hv ⟨d, Nat.lt_succ_self d⟩).1
  have hlt : v * (d + 1) < numBlocks := (Nat.div_eq_zero_iff_lt hpos).mp hfirst
  have hle : d * numBlocks ≤ v * (d + 1) + d := (Nat.le_div_iff_mul_le hpos).mp hlast.ge
  have hwide : v * (d + 1) ≤ d * (v * (d + 1)) :=
    Nat.le_mul_of_pos_left _ (Nat.lt_of_succ_lt_succ hdim2)
  by_contra hne
  have hge : v * (d + 1) + 2 ≤ numBlocks := by omega
  have hmul := Nat.mul_le_mul_left d hge
  rw [mul_add] at hmul
  omega

/-- The layouts are the same for one point or one variable. -/
lemma blockEntry_eq_pointEntry (h : hdim ≤ 1 ∨ numBlocks ≤ 1) (v : Fin numBlocks)
    (p : Fin hdim) : blockEntry v p = pointEntry v p := by
  have hv := v.2
  have hp := p.2
  refine Fin.ext ?_
  change (v : ℕ) * hdim + p = p * numBlocks + v
  rcases h with h | h
  · obtain rfl : hdim = 1 := by omega
    rw [show (p : ℕ) = 0 by omega]
    omega
  · obtain rfl : numBlocks = 1 := by omega
    rw [show (v : ℕ) = 0 by omega]
    omega

/-- **The layout of the noise** is the one of the state if and only if there is one point or
one variable, or no noise at all. The seeds are always distinct. -/
theorem laidOutByVariable_iff (hdim : ℕ) (L_C : Matrix (Fin numBlocks) (Fin numBlocks) K) :
    (LaidOutByVariable hdim L_C ∧ DistinctSeeds numBlocks) ↔
      hdim ≤ 1 ∨ numBlocks ≤ 1 ∨ L_C = 0 := by
  rw [and_iff_left (distinctSeeds numBlocks)]
  constructor
  · intro h
    by_contra hnot
    push Not at hnot
    obtain ⟨hpoints, hvars, hne⟩ := hnot
    obtain ⟨v, hv⟩ := Function.ne_iff.mp hne
    -- the second entry of this variable is one of the first variable
    have hnum := h.numBlocks_eq hpoints hv
    have hfirst : (blockEntry v ⟨1, hpoints⟩).modNat = ⟨0, Nat.zero_lt_of_lt hvars⟩ := by
      refine Fin.ext ?_
      change (v * hdim + 1) % numBlocks = 0
      rw [← hnum, Nat.mod_self]
    have hrow := (h.row hv ⟨1, hpoints⟩).2
    rw [hfirst] at hrow
    have hnum0 := h.numBlocks_eq hpoints (hrow.trans_ne hv)
    rw [zero_mul, zero_add] at hnum0
    exact hvars.ne' hnum0
  · intro h srf k v p
    rcases or_assoc.mpr h with hone | rfl
    · rw [blockEntry_eq_pointEntry hone, noise_pointEntry]
    · simp only [noise_apply, correlatedField, Matrix.zero_apply, zero_mul, Finset.sum_const_zero]

/-- Two uncorrelated variables at two points: the second entry is one of the second
variable. -/
theorem not_laidOutByVariable_two :
    ¬(LaidOutByVariable 2 (1 : Matrix (Fin 2) (Fin 2) ℚ) ∧ DistinctSeeds 2) := by
  rintro ⟨h, -⟩
  have hrow : (1 : Matrix (Fin 2) (Fin 2) ℚ) 0 ≠ 0 := by
    refine Function.ne_iff.mpr ⟨0, ?_⟩
    rw [Matrix.one_apply_eq]
    exact one_ne_zero
  exact absurd (h.numBlocks_eq Nat.one_lt_two hrow) (by decide)

end RandomFields

end Icesee
