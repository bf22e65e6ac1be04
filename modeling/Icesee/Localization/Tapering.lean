import Icesee.Analysis.Filters
import Icesee.Localization.GaspariCohn

/-!
Tapering matrices and adaptive radii.

`create_tapering_matrix` divides the distances by half of a scalar radius. With an array of
radii the multiplication comes after the division, so the distances are multiplied by the
radius, and the two branches agree only where the radius is one (`normalized_iff`).
`compute_adaptive_localization_radius` has three methods; `radiiPositive_iff` says when the
radii of each of them are positive numbers. A quotient by zero is `nan` or `inf`: the radii
are `Option`s, and `none` is what is not a number.
-/

namespace Icesee

open Finset

noncomputable section

variable {n N m : ℕ}

/-! ### The argument of the taper -/

/-- The points of a grid. -/
abbrev Grid (n : ℕ) : Type := Fin n → ℝ × ℝ

/-- `compute_euclidean_distance`. -/
def euclideanDistance (grid : Grid n) (i j : Fin n) : ℝ :=
  √(((grid i).1 - (grid j).1) ^ 2 + ((grid i).2 - (grid j).2) ^ 2)

/-- `localization_radius`: a scalar, or an array. -/
inductive LocalizationRadius
  | scalar (radius : ℝ)
  | array (radius : List ℝ)

/-- What the two functions raise. -/
inductive TaperError
  | unboundLocalError
  | valueError
  | indexError
  deriving DecidableEq

/-- `r` in `create_tapering_matrix`. An array that is too short leaves it without a value. -/
def normalizedDistance (grid : Grid n) : LocalizationRadius → Except TaperError (Fin n → Fin n → ℝ)
  | .scalar radius => .ok fun i j => euclideanDistance grid i j / (ratio 1 2 * radius)
  | .array radius =>
    if radius.length = n then
      .ok fun i j => euclideanDistance grid i j / ratio 1 2 * radius.getD i 0
    else if n < radius.length then
      let obsIndices := List.range n
      .ok fun i j => euclideanDistance grid i j / ratio 1 2 * radius.getD (obsIndices.getD i 0) 0
    else .error .unboundLocalError

/-- `create_tapering_matrix`, row by row. -/
def createTaperingMatrix (grid : Grid n) (radius : LocalizationRadius) :
    Except TaperError (Option (List ℝ)) := do
  let r ← normalizedDistance grid radius
  return gaspariCohn ((List.finRange n).flatMap fun i => (List.finRange n).map (r i))

/-- The taper is evaluated at the distance over half of the radius of the row, and hence for
a constant array at what it is evaluated at for the scalar, with the same matrix. -/
structure Normalized (grid : Grid n) (radius : List ℝ) : Prop where
  argument : normalizedDistance grid (.array radius) =
    .ok fun i j => euclideanDistance grid i j / (1 / 2 * radius.getD i 0)
  constant : ∀ a, (∀ i < n, radius.getD i 0 = a) →
    normalizedDistance grid (.array radius) = normalizedDistance grid (.scalar a)
  matrix : createTaperingMatrix grid (.array radius) =
    .ok (gaspariCohn ((List.finRange n).flatMap fun i => (List.finRange n).map fun j =>
      euclideanDistance grid i j / (1 / 2 * radius.getD i 0)))
  constant_matrix : ∀ a, (∀ i < n, radius.getD i 0 = a) →
    createTaperingMatrix grid (.array radius) = createTaperingMatrix grid (.scalar a)

/-- The argument of the taper decides. -/
lemma normalized_of_argument {grid : Grid n} {radius : List ℝ}
    (h : normalizedDistance grid (.array radius) =
      .ok fun i j => euclideanDistance grid i j / (1 / 2 * radius.getD i 0)) :
    Normalized grid radius := by
  have hconstant : ∀ a, (∀ i < n, radius.getD i 0 = a) →
      normalizedDistance grid (.array radius) = normalizedDistance grid (.scalar a) := by
    intro a ha
    rw [h, normalizedDistance, ratio, Nat.cast_one, Nat.cast_ofNat]
    refine congrArg Except.ok (funext fun i => funext fun j => ?_)
    rw [ha i i.2]
  refine ⟨h, hconstant, ?_, fun a ha => ?_⟩
  · rw [createTaperingMatrix, h]
    rfl
  · rw [createTaperingMatrix, createTaperingMatrix, hconstant a ha]

/-- Both branches for arrays compute the same. -/
lemma normalizedDistance_array {grid : Grid n} {radius : List ℝ} (h : n ≤ radius.length) :
    normalizedDistance grid (.array radius) =
      .ok fun i j => euclideanDistance grid i j / (1 / 2) * radius.getD i 0 := by
  simp only [normalizedDistance, ratio, Nat.cast_one, Nat.cast_ofNat]
  split_ifs with heq hlt
  · rfl
  · refine congrArg Except.ok (funext fun i => funext fun j => ?_)
    rw [List.getD_eq_getElem (List.range n) 0 (by simp), List.getElem_range]
  · omega

/-- Multiplying by a positive radius is dividing by it for the radius one only. -/
lemma div_half_mul_eq_iff {d a : ℝ} (ha : 0 < a) :
    d / (1 / 2) * a = d / (1 / 2 * a) ↔ d = 0 ∨ a = 1 := by
  have hsq : a * a = 1 ↔ a = 1 := by
    rw [mul_self_eq_one_iff, or_iff_left (by linarith)]
  rw [eq_div_iff (by positivity), ← hsq]
  constructor
  · intro h
    have hzero : d * (a * a - 1) = 0 := by linarith
    exact (mul_eq_zero.mp hzero).imp_right sub_eq_zero.mp
  · rintro (rfl | h)
    · simp
    · linear_combination d * h

/-- **The normalisation** is right for arrays exactly if every radius that meets a positive
distance is one. -/
lemma normalized_iff {grid : Grid n} {radius : List ℝ} (hlen : n ≤ radius.length)
    (hpos : ∀ a ∈ radius, 0 < a) :
    Normalized grid radius ↔
      ∀ i j : Fin n, euclideanDistance grid i j = 0 ∨ radius.getD i 0 = 1 := by
  have hentry : ∀ i : Fin n, 0 < radius.getD i 0 := by
    intro i
    rw [List.getD_eq_getElem _ _ (i.2.trans_le hlen)]
    exact hpos _ (List.getElem_mem _)
  have harg : normalizedDistance grid (.array radius) =
      .ok (fun i j => euclideanDistance grid i j / (1 / 2 * radius.getD i 0)) ↔
        ∀ i j : Fin n, euclideanDistance grid i j = 0 ∨ radius.getD i 0 = 1 := by
    rw [normalizedDistance_array hlen, Except.ok.injEq, funext_iff]
    refine forall_congr' fun i => ?_
    rw [funext_iff]
    exact forall_congr' fun j => div_half_mul_eq_iff (hentry i)
  exact ⟨fun h => harg.mp h.argument, fun h => normalized_of_argument (harg.mpr h)⟩

/-! ### Adaptive radii -/

/-- A quotient of arrays, at one entry. -/
def quotient (x y : ℝ) : Option ℝ := if y = 0 then none else some (x / y)

/-- `method`. -/
inductive AdaptiveMethod
  | variance
  | observationDensity
  | correlation

section Radii

variable (A : Matrix (Fin n) (Fin N) ℝ) (grid : Grid n) (baseRadius : ℝ)

/-- `np.var(ensemble, axis=1)`. -/
def ensembleVariance (i : Fin n) : ℝ := (∑ k, (A i k - ensembleMean A i) ^ 2) / N

/-- `np.cov(ensemble)`. -/
def covariance (i j : Fin n) : ℝ :=
  (∑ k, (A i k - ensembleMean A i) * (A j k - ensembleMean A j)) / ((N : ℝ) - 1)

/-- `np.corrcoef(ensemble, rowvar=True)` for more than one row. -/
def correlationMatrix (i j : Fin n) : Option ℝ :=
  let stddev := fun i => √(covariance A i i)
  (quotient (covariance A i j) (stddev i * stddev j)).map fun x => max (-1) (min 1 x)

/-- `1 / np.sqrt(Nens - 1)`. -/
def threshold (N : ℕ) : Option ℝ := quotient 1 √((N : ℝ) - 1)

/-- `correlation_matrix[i, j] < threshold`, which no `nan` meets. -/
def BelowThreshold (i j : Fin n) : Prop :=
  ∃ x ∈ correlationMatrix A i j, ∃ y ∈ threshold N, x < y

open Classical in
/-- `np.where(correlation_matrix[i, :] < threshold)[0]`. -/
def belowThreshold (i : Fin n) : List ℕ :=
  ((List.finRange n).filter fun j => BelowThreshold A i j).map Fin.val

/-- `obs_density`. -/
def obsDensity (i : Fin n) : Option ℝ :=
  if baseRadius = 0 then none
  else some (∑ j, Real.exp (-euclideanDistance grid i j ^ 2 / baseRadius ^ 2))

/-- `np.max`, with the `nan` that is in the array. -/
def maximum (f : Fin n → Option ℝ) : Option ℝ :=
  if ∀ i, (f i).isSome then some (⨆ i, (f i).getD 0) else none

/-- `compute_adaptive_localization_radius`. `np.max` of an empty array raises, and so does
the indexing of the number that `np.corrcoef` returns for a single row. -/
def computeAdaptiveLocalizationRadius :
    AdaptiveMethod → Except TaperError (Fin n → Option ℝ)
  | .variance =>
    if n = 0 then .error .valueError
    else .ok fun i => do
      let normalizedVariance ← quotient (ensembleVariance A i) (⨆ j, ensembleVariance A j)
      return baseRadius * (1 + normalizedVariance)
  | .observationDensity =>
    if n = 0 then .error .valueError
    else .ok fun i => do
      let normalizedDensity ← quotient (← obsDensity grid baseRadius i)
        (← maximum (obsDensity grid baseRadius))
      return baseRadius * (1 - normalizedDensity)
  | .correlation =>
    if n = 1 then .error .indexError
    else .ok fun i =>
      match (belowThreshold A i).min? with
      | none => some baseRadius
      | some j => some (baseRadius * j / n)

/-- Every radius is returned, and a positive number. -/
def RadiiPositive (method : AdaptiveMethod) : Prop :=
  ∃ radii, computeAdaptiveLocalizationRadius A grid baseRadius method = .ok radii ∧
    ∀ i, ∃ a, radii i = some a ∧ 0 < a

/-- When they are: there is a row with a variance; never; no point has a correlation below
the threshold with the first point. -/
def RadiiCondition : AdaptiveMethod → Prop
  | .variance => 0 < baseRadius ∧ ∃ i, ensembleVariance A i ≠ 0
  | .observationDensity => False
  | .correlation => n ≠ 1 ∧ ∀ i : Fin n, 0 < baseRadius ∧ ¬ BelowThreshold A i ⟨0, i.pos⟩

/-! ### The three methods -/

variable {A grid baseRadius}

/-- A radius that is computed from a quotient. -/
lemma exists_quotient_iff {x y : ℝ} {f : ℝ → ℝ} :
    (∃ a, (quotient x y >>= fun q => return f q) = some a ∧ 0 < a) ↔ y ≠ 0 ∧ 0 < f (x / y) := by
  rw [quotient]
  split_ifs with hy
  · simp [hy]
  · simp [hy]

lemma ensembleVariance_nonneg (i : Fin n) : 0 ≤ ensembleVariance A i :=
  div_nonneg (sum_nonneg fun _ _ => sq_nonneg _) N.cast_nonneg

lemma ensembleVariance_le (i : Fin n) : ensembleVariance A i ≤ ⨆ j, ensembleVariance A j :=
  le_ciSup (Finite.bddAbove_range (ensembleVariance A)) i

/-- With the variances the radii grow, unless there is no variance to compare with. -/
lemma radiiPositive_variance : RadiiPositive A grid baseRadius .variance ↔
    0 < baseRadius ∧ ∃ i, ensembleVariance A i ≠ 0 := by
  rw [RadiiPositive, computeAdaptiveLocalizationRadius]
  by_cases hn : n = 0
  · subst hn
    simp
  · simp only [if_neg hn, Except.ok.injEq, exists_eq_left', exists_quotient_iff]
    constructor
    · intro h
      have : Nonempty (Fin n) := ⟨⟨0, Nat.pos_of_ne_zero hn⟩⟩
      obtain ⟨i, hi⟩ := exists_eq_ciSup_of_finite (f := ensembleVariance A)
      obtain ⟨hsup, hradius⟩ := h i
      have hone : 0 < 1 + ensembleVariance A i / ⨆ j, ensembleVariance A j :=
        add_pos_of_pos_of_nonneg one_pos (div_nonneg (ensembleVariance_nonneg i)
          ((ensembleVariance_nonneg i).trans (ensembleVariance_le i)))
      exact ⟨pos_of_mul_pos_left hradius hone.le, i, hi ▸ hsup⟩
    · rintro ⟨hbase, i, hi⟩ j
      have hsup : 0 < ⨆ k, ensembleVariance A k :=
        (lt_of_le_of_ne (ensembleVariance_nonneg i) (Ne.symm hi)).trans_le (ensembleVariance_le i)
      exact ⟨hsup.ne', mul_pos hbase (add_pos_of_pos_of_nonneg one_pos
        (div_nonneg (ensembleVariance_nonneg j) hsup.le))⟩

/-- With the densities the radius is zero where the density is largest. -/
lemma not_radiiPositive_observationDensity :
    ¬ RadiiPositive A grid baseRadius .observationDensity := by
  rw [RadiiPositive, computeAdaptiveLocalizationRadius]
  by_cases hn : n = 0
  · simp [hn]
  · simp only [if_neg hn, Except.ok.injEq, exists_eq_left']
    intro h
    have : Nonempty (Fin n) := ⟨⟨0, Nat.pos_of_ne_zero hn⟩⟩
    obtain ⟨i, hi⟩ :=
      exists_eq_ciSup_of_finite (f := fun i => (obsDensity grid baseRadius i).getD 0)
    by_cases hbase : baseRadius = 0
    · obtain ⟨a, ha, -⟩ := h i
      simp [obsDensity, hbase] at ha
    · have hsome : ∀ j, (obsDensity grid baseRadius j).isSome := fun j => by
        simp [obsDensity, hbase]
      obtain ⟨x, hx⟩ := Option.isSome_iff_exists.mp (hsome i)
      have hmax : maximum (obsDensity grid baseRadius) = some x := by
        rw [maximum, if_pos hsome, ← hi, hx, Option.getD_some]
      have hradius := h i
      rw [hx, hmax] at hradius
      obtain ⟨hx0, hpos⟩ := (exists_quotient_iff (f := fun q => baseRadius * (1 - q))).mp hradius
      rw [div_self hx0, sub_self, mul_zero] at hpos
      exact lt_irrefl 0 hpos

/-- The first point is the one with the index `0`. -/
lemma zero_mem_belowThreshold {i : Fin n} :
    0 ∈ belowThreshold A i ↔ BelowThreshold A i ⟨0, i.pos⟩ := by
  simp only [belowThreshold, List.mem_map, List.mem_filter, List.mem_finRange, true_and,
    decide_eq_true_eq]
  constructor
  · rintro ⟨j, hj, h0⟩
    rwa [show (⟨0, i.pos⟩ : Fin n) = j from Fin.ext h0.symm]
  · exact fun h => ⟨_, h, rfl⟩

/-- With the correlations the radius is scaled by the first point below the threshold. -/
lemma radiiPositive_correlation : RadiiPositive A grid baseRadius .correlation ↔
    n ≠ 1 ∧ ∀ i : Fin n, 0 < baseRadius ∧ ¬ BelowThreshold A i ⟨0, i.pos⟩ := by
  rw [RadiiPositive, computeAdaptiveLocalizationRadius]
  by_cases hn : n = 1
  · simp [hn]
  · simp only [if_neg hn, Except.ok.injEq, exists_eq_left', and_iff_right hn]
    refine forall_congr' fun i => ?_
    have hn0 : (0 : ℝ) < n := Nat.cast_pos.mpr i.pos
    rw [← zero_mem_belowThreshold]
    cases hmin : (belowThreshold A i).min? with
    | none =>
        rw [List.min?_eq_none_iff.mp hmin]
        simp
    | some j =>
        obtain ⟨hj, hle⟩ := List.min?_eq_some_iff.mp hmin
        have hzero : 0 ∉ belowThreshold A i ↔ 0 < j := by
          refine ⟨fun h => Nat.pos_of_ne_zero fun h0 => h (h0 ▸ hj), fun h hmem => ?_⟩
          exact absurd (hle 0 hmem) (by omega)
        simp only [Option.some.injEq, exists_eq_left', hzero]
        rw [div_pos_iff_of_pos_right hn0]
        refine ⟨fun h => ?_, fun h => mul_pos h.1 (Nat.cast_pos.mpr h.2)⟩
        have hj0 : 0 < j := Nat.pos_of_ne_zero fun h0 => by simp [h0] at h
        exact ⟨pos_of_mul_pos_left h j.cast_nonneg, hj0⟩

/-- The radii of each method. -/
lemma radiiPositive_iff (method : AdaptiveMethod) :
    RadiiPositive A grid baseRadius method ↔ RadiiCondition A baseRadius method := by
  cases method with
  | variance => exact radiiPositive_variance
  | observationDensity => exact iff_false_intro not_radiiPositive_observationDensity
  | correlation => exact radiiPositive_correlation

/-- **Tapering distances**: with an array of radii the argument of the taper is right
exactly if every radius that meets a positive distance is one, and the adaptive radii are
positive numbers exactly under the condition of the method. -/
theorem tapering_iff (A : Matrix (Fin n) (Fin N) ℝ) (grid : Grid n) (baseRadius : ℝ)
    (method : AdaptiveMethod) {radius : List ℝ} (hlen : n ≤ radius.length)
    (hpos : ∀ a ∈ radius, 0 < a) :
    Normalized grid radius ∧ RadiiPositive A grid baseRadius method ↔
      (∀ i j : Fin n, euclideanDistance grid i j = 0 ∨ radius.getD i 0 = 1) ∧
        RadiiCondition A baseRadius method :=
  and_congr (normalized_iff hlen hpos) (radiiPositive_iff method)

end Radii

/-- Two points at distance two. -/
def twoPoints : Grid 2 := ![(0, 0), ((2 : ℕ), 0)]

/-- Two members that differ at the first point. -/
def twoStates : Matrix (Fin 2) (Fin 2) ℝ := ofInt !![0, 2; 0, 0]

/-- Radii of one, and a variance to compare with. -/
theorem tapering_unit_radii :
    Normalized twoPoints [1, 1] ∧ RadiiPositive twoStates twoPoints 1 .variance := by
  refine (tapering_iff twoStates twoPoints 1 .variance le_rfl
    (by simp)).mpr ⟨fun i j => .inr ?_, one_pos, 0, ?_⟩
  · fin_cases i <;> rfl
  · norm_num [ensembleVariance, ensembleMean, twoStates, ofInt, Fin.sum_univ_two]

/-- Radii of four are not what the distance is divided by, and the radius from the
densities is zero at one of the points. -/
theorem not_tapering_twoPoints : ¬ Normalized twoPoints [4, 4] ∧
    ¬ RadiiPositive twoStates twoPoints 1 .observationDensity := by
  refine ⟨fun h => ?_, not_radiiPositive_observationDensity⟩
  have hpos : ∀ a ∈ [(4 : ℝ), 4], 0 < a := by simp
  rcases (normalized_iff le_rfl hpos).mp h 0 1 with hzero | hone
  · norm_num [euclideanDistance, twoPoints] at hzero
  · norm_num at hone

end

end Icesee
