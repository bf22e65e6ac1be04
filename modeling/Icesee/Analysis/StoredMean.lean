import Mathlib.Data.List.GetD
import Icesee.Analysis.RowUpdate
import Icesee.Store.Ensemble

/-!
The mean that an analysis stores beside the ensemble.

With `compute_analysis_mean`, `compute_analysis_update` writes the updated ensemble to its
slice and, into the same column of the file of means, the mean of the prior ensemble
times `X5`. `storedMean_iff` says when that is the mean of what was written: the inflation
keeps the mean of every row, and the minimum thickness keeps it only where it does nothing.
-/

namespace Icesee

open VarBlocks Handler

variable {K : Type} [Field K] [LinearOrder K] {N : ℕ}

/-! ### The update and its mean -/

/-- The handler of a single rank, with what `compute_analysis_update` reads of `params` and
`kwargs`. -/
structure AnalysisConfig (K : Type) extends IOConfig where
  totalStateParamVars : ℕ
  numStateVars : ℕ
  vecInputs : List String
  inflationFactor : K
  vars_pos : 0 < totalStateParamVars
  oneRank : worldSize = 1

/-- `all_states`, from the columns that were read. -/
def allStates (states : List (ℕ → K)) : ℕ → Fin N → K := fun i j => states.getD j 0 i

namespace AnalysisConfig

variable (cfg : AnalysisConfig K) (X5 : Matrix (Fin cfg.nens) (Fin cfg.nens) K)
  (x : ℕ → Fin cfg.nens → K)

/-- `ndim` and `state_block_size`. -/
def ndim : ℕ := cfg.nd / cfg.totalStateParamVars

def stateBlockSize : ℕ := cfg.ndim * cfg.numStateVars

/-- `analysis_updates` before the minimum thickness. -/
def inflatedUpdates : ℕ → Fin cfg.nens → K :=
  inflateFrom cfg.inflationFactor cfg.stateBlockSize (dotX5 X5 x)

/-- `analysis_updates` as they are written. -/
def analysisUpdates : ℕ → Fin cfg.nens → K :=
  clampThickness UpdateParams.thicknessVars 1 cfg.ndim cfg.vecInputs (cfg.inflatedUpdates X5 x)

/-- `np.dot(all_states, np.sum(X5, axis=1)) / Nens`. -/
def analysisMean : ℕ → K := fun i => (∑ j, x i j * ∑ l, X5 j l) / cfg.nens

/-- `compute_analysis_update` with `compute_analysis_mean`, for this `X5`. -/
def computeAnalysisUpdate (k : ℕ) (h : Handler K) : Option (Handler K) :=
  computeAnalysisUpdateMean cfg.toIOConfig
    (fun _ states j i =>
      if hj : j < cfg.nens then cfg.analysisUpdates X5 (allStates states) i ⟨j, hj⟩ else 0)
    (fun _ states => cfg.analysisMean X5 (allStates states)) k h

/-- Column `t` of the means is the row-wise mean of the ensemble in slice `t`. -/
def StoredMean (h : Handler K) (t : ℕ) : Prop :=
  ∃ m ens, readMean cfg.toIOConfig t h = some m ∧ Holds cfg.toIOConfig h t ens ∧
    ∀ i < cfg.nd, m i = (∑ j : Fin cfg.nens, ens j i) / cfg.nens

/-- The minimum thickness does nothing. -/
def NothingRaised : Prop :=
  ∀ i < cfg.nd, Marked (IsThickness UpdateParams.thicknessVars cfg.vecInputs) cfg.ndim i →
    ∀ j, 1 ≤ cfg.inflatedUpdates X5 x i j

/-- The parameters of `UpdateParams`, on a single rank. -/
def ofParams (prm : UpdateParams K) (io : IOConfig) (hnd : 0 < prm.nd) : AnalysisConfig K where
  toIOConfig := { io with
    nd := prm.nd, nens := prm.nens, worldSize := 1, nd_pos := hnd, nens_pos := prm.nens_pos,
    worldSize_pos := Nat.one_pos }
  totalStateParamVars := prm.totalStateParamVars
  numStateVars := prm.numStateVars
  vecInputs := prm.vecInputs
  inflationFactor := prm.inflationFactor
  vars_pos := prm.vars_pos
  oneRank := rfl

/-- The update is the one of a rank that has all rows. -/
lemma analysisUpdates_ofParams (prm : UpdateParams K) (io : IOConfig) (hnd : 0 < prm.nd)
    (X5 : Matrix (Fin prm.nens) (Fin prm.nens) K) (x : ℕ → Fin prm.nens → K) :
    (ofParams prm io hnd).analysisUpdates X5 x = prm.computeAnalysisUpdate X5 prm.nd x := rfl

end AnalysisConfig

/-! ### The mean of a row -/

section Rows

omit [LinearOrder K]

/-- Inflation keeps the mean. -/
lemma rowMean_inflateRow (hN : (N : K) ≠ 0) (f : K) (a : Fin N → K) :
    rowMean (inflateRow f a) = rowMean a := by
  have hzero : ∑ j, (a j - rowMean a) = 0 := by
    rw [Finset.sum_sub_distrib, Finset.sum_const, Finset.card_univ, Fintype.card_fin,
      nsmul_eq_mul, rowMean, mul_div_cancel₀ _ hN, sub_self]
  have hsum : ∑ j, inflateRow f a j = ∑ j, a j := by
    simp only [inflateRow, Finset.sum_add_distrib, ← Finset.sum_mul, hzero, zero_mul, add_zero]
    rw [Finset.sum_const, Finset.card_univ, Fintype.card_fin, nsmul_eq_mul, rowMean,
      mul_div_cancel₀ _ hN]
  rw [rowMean, hsum, rowMean]

/-- The mean of a row times `X5` needs the row sums of `X5` only. -/
lemma rowMean_vecMul (X5 : Matrix (Fin N) (Fin N) K) (a : Fin N → K) :
    rowMean (Matrix.vecMul a X5) = (∑ j, a j * ∑ l, X5 j l) / N := by
  have hsum : ∑ l, Matrix.vecMul a X5 l = ∑ j, a j * ∑ l, X5 j l := by
    simp only [Matrix.vecMul, dotProduct, Finset.mul_sum]
    exact Finset.sum_comm
  rw [rowMean, hsum]

end Rows

/-- A minimum keeps the mean only where it does nothing. -/
lemma rowMean_clampRow_iff [IsStrictOrderedRing K] (hN : (N : K) ≠ 0) (c : K) (a : Fin N → K) :
    rowMean a = rowMean (clampRow c a) ↔ ∀ j, c ≤ a j := by
  have hle : ∀ j ∈ Finset.univ, a j ≤ clampRow c a j := fun j _ => le_max_left (a j) c
  rw [rowMean, rowMean, div_left_inj' hN, Finset.sum_eq_sum_iff_of_le hle]
  simp only [Finset.mem_univ, forall_true_left, clampRow, left_eq_sup]

namespace AnalysisConfig

variable {cfg : AnalysisConfig K} {X5 : Matrix (Fin cfg.nens) (Fin cfg.nens) K}
  {x : ℕ → Fin cfg.nens → K}

lemma nens_ne_zero [IsStrictOrderedRing K] : (cfg.nens : K) ≠ 0 :=
  Nat.cast_ne_zero.mpr cfg.nens_pos.ne'

/-- The mean that is stored is the mean before the minimum thickness. -/
lemma rowMean_inflatedUpdates [IsStrictOrderedRing K] (i : ℕ) :
    rowMean (cfg.inflatedUpdates X5 x i) = cfg.analysisMean X5 x i := by
  rw [inflatedUpdates, inflateFrom]
  split
  · rw [rowMean_inflateRow nens_ne_zero]
    exact rowMean_vecMul X5 (x i)
  · exact rowMean_vecMul X5 (x i)

/-- It is the mean of what is written if the minimum does nothing in this row. -/
lemma analysisMean_eq_iff [IsStrictOrderedRing K] (i : ℕ) :
    cfg.analysisMean X5 x i = rowMean (cfg.analysisUpdates X5 x i) ↔
      (Marked (IsThickness UpdateParams.thicknessVars cfg.vecInputs) cfg.ndim i →
        ∀ j, 1 ≤ cfg.inflatedUpdates X5 x i j) := by
  rw [← rowMean_inflatedUpdates, analysisUpdates, clampThickness_apply]
  split
  · rename_i hmarked
    rw [rowMean_clampRow_iff nens_ne_zero]
    exact (imp_iff_right hmarked).symm
  · rename_i hmarked
    exact iff_of_true rfl fun h => absurd h hmarked

/-! ### What is stored -/

omit [LinearOrder K] in
/-- The columns that were read are the ensemble. -/
lemma allStates_apply (ens : ℕ → ℕ → K) {i : ℕ} (hi : i < cfg.nd) :
    allStates ((List.range cfg.nens).map fun j => trim cfg.toIOConfig (ens j)) i =
      fun j : Fin cfg.nens => ens j i := by
  funext j
  have hlen :
      (j : ℕ) < ((List.range cfg.nens).map fun j => trim cfg.toIOConfig (ens j)).length := by
    simp
  rw [allStates, List.getD_eq_getElem _ _ hlen, List.getElem_map, List.getElem_range, trim,
    if_pos hi]

omit [LinearOrder K] in
/-- Rows with the same entries are updated alike. -/
lemma inflatedUpdates_congr (x' : ℕ → Fin cfg.nens → K) {i : ℕ} (h : x i = x' i) :
    cfg.inflatedUpdates X5 x i = cfg.inflatedUpdates X5 x' i := by
  simp only [inflatedUpdates, inflateFrom, dotX5, h]

/-- Where the updates are written and their mean is stored, the one is the mean of the
other if it is in every row. -/
lemma storedMean_iff_rows {h : Handler K} {t : ℕ}
    (hens : Holds cfg.toIOConfig h t fun j i =>
      if hj : j < cfg.nens then cfg.analysisUpdates X5 x i ⟨j, hj⟩ else 0)
    (hmean : readMean cfg.toIOConfig t h = some (trim cfg.toIOConfig (cfg.analysisMean X5 x))) :
    cfg.StoredMean h t ↔
      ∀ i < cfg.nd, cfg.analysisMean X5 x i = rowMean (cfg.analysisUpdates X5 x i) := by
  have hwritten : ∀ ens, Holds cfg.toIOConfig h t ens → ∀ i < cfg.nd,
      (∑ j : Fin cfg.nens, ens j i) / (cfg.nens : K) = rowMean (cfg.analysisUpdates X5 x i) := by
    intro ens hens' i hi
    rw [rowMean]
    refine congrArg (· / (cfg.nens : K)) (Finset.sum_congr rfl fun j _ => ?_)
    have heq := (hens' i hi j j.2).symm.trans (hens i hi j j.2)
    exact (Option.some.inj heq).trans (dif_pos j.2)
  constructor
  · rintro ⟨m, ens, hm, hens', heq⟩ i hi
    rw [hmean] at hm
    rw [← hwritten ens hens' i hi, ← heq i hi, ← Option.some.inj hm, trim, if_pos hi]
  · intro heq
    refine ⟨_, _, hmean, hens, fun i hi => ?_⟩
    rw [hwritten _ hens i hi, ← heq i hi, trim, if_pos hi]

/-- **The stored mean**: the update goes through, and the column that it stores is the mean
of the ensemble that it writes if and only if the minimum thickness does nothing. -/
theorem storedMean_iff [IsStrictOrderedRing K] (cfg : AnalysisConfig K)
    (X5 : Matrix (Fin cfg.nens) (Fin cfg.nens) K) {k : ℕ} (hk : k < cfg.nt) {h : Handler K}
    (ho : IsOpen cfg.toIOConfig (cfg.batchStart (cfg.targetSlice k)) h) {ens : ℕ → ℕ → K}
    (hens : Holds cfg.toIOConfig h (cfg.targetSlice k) ens) {means : ℕ → K}
    (hmeans : readMean cfg.toIOConfig (cfg.targetSlice k) h = some means) :
    ∃ h', cfg.computeAnalysisUpdate X5 k h = some h' ∧
      (cfg.StoredMean h' (cfg.targetSlice k) ↔ cfg.NothingRaised X5 fun i j => ens j i) := by
  obtain ⟨h', hupd, hens', hmean'⟩ := computeAnalysisUpdateMean_spec
    (fun _ states j i =>
      if hj : j < cfg.nens then cfg.analysisUpdates X5 (allStates states) i ⟨j, hj⟩ else 0)
    (fun _ states => cfg.analysisMean X5 (allStates states)) ho (cfg.targetSlice_lt hk) hens hmeans
  refine ⟨h', hupd, ?_⟩
  rw [storedMean_iff_rows hens' hmean', NothingRaised]
  refine forall_congr' fun i => forall_congr' fun hi => ?_
  rw [analysisMean_eq_iff]
  rw [inflatedUpdates_congr (fun i (j : Fin cfg.nens) => ens j i) (allStates_apply ens hi)]

/-! ### One row of thickness -/

/-- Two members of one row of thickness. -/
def twoThicknesses : AnalysisConfig ℚ where
  toIOConfig := { IOConfig.single 1 Nat.one_pos with nens := 2, nens_pos := Nat.two_pos }
  totalStateParamVars := 1
  numStateVars := 1
  vecInputs := ["h"]
  inflationFactor := 1
  vars_pos := Nat.one_pos
  oneRank := rfl

/-- A handler can hold every ensemble, with a column of means. -/
lemma exists_holds (cfg : IOConfig) {t : ℕ} (ht : t < cfg.nt) (ens : ℕ → ℕ → ℚ) :
    ∃ h, IsOpen cfg (cfg.batchStart t) h ∧ Holds cfg h t ens ∧
      ∃ means, readMean cfg t h = some means := by
  have hids : ∀ j ∈ List.range cfg.nens, j < cfg.nens := fun j hj => List.mem_range.mp hj
  have hne : List.range cfg.nens ≠ [] := by
    simpa using cfg.nens_pos.ne'
  have ho : IsOpen cfg 0 (init cfg (∅ : Directory ℚ)) := init_isOpen ∅
  obtain ⟨h₁, -, ho₁, hcell₁, -⟩ := writeMembers_spec .world ho ht hids hne ens
  have hens₁ : Holds cfg h₁ t ens := fun i hi j hj => by
    rw [hcell₁, if_pos ⟨rfl, hi, List.mem_range.mpr hj⟩]
  obtain ⟨ho₂, hcell₂, hmean₂⟩ := writeMean_spec (t := t) ho₁ fun _ => (0 : ℚ)
  exact ⟨_, ho₂, fun i hi j hj => by rw [hcell₂, hens₁ i hi j hj], _, hmean₂⟩

/-- Without inflation, and with the identity for `X5`, a row stays. -/
lemma inflatedUpdates_twoThicknesses (x : ℕ → Fin 2 → ℚ) (i : ℕ) :
    twoThicknesses.inflatedUpdates (1 : Matrix (Fin 2) (Fin 2) ℚ) x i = x i := by
  have hdot : dotX5 1 x i = x i := Matrix.vecMul_one _
  show (if _ ≤ i then inflateRow 1 (dotX5 1 x i) else dotX5 1 x i) = x i
  split
  · exact (inflateRow_eq_self (Or.inl rfl) _).trans hdot
  · exact hdot

/-- A thickness of two and of four. -/
theorem storedMean_thick : ∃ h h', twoThicknesses.computeAnalysisUpdate 1 0 h = some h' ∧
    twoThicknesses.StoredMean h' 0 := by
  obtain ⟨h, ho, hens, means, hmeans⟩ := exists_holds twoThicknesses.toIOConfig Nat.one_pos
    fun j _ => (2 * j + 2 : ℚ)
  obtain ⟨h', hupd, hiff⟩ := storedMean_iff twoThicknesses 1 Nat.one_pos ho hens hmeans
  refine ⟨h, h', hupd, hiff.mpr fun i _ _ j => ?_⟩
  have hj : (0 : ℚ) ≤ (j : ℕ) := Nat.cast_nonneg _
  have hrow := congrFun (inflatedUpdates_twoThicknesses (fun _ j => (2 * (j : ℕ) + 2 : ℚ)) i) j
  exact (by linarith : (1 : ℚ) ≤ 2 * (j : ℕ) + 2).trans_eq hrow.symm

/-- No thickness and one of four: the first member is raised. -/
theorem not_storedMean_thin : ∃ h h' : Handler ℚ,
    Holds twoThicknesses.toIOConfig h 0 (fun j _ => (4 * j : ℚ)) ∧
    twoThicknesses.computeAnalysisUpdate 1 0 h = some h' ∧ ¬ twoThicknesses.StoredMean h' 0 := by
  obtain ⟨h, ho, hens, means, hmeans⟩ := exists_holds twoThicknesses.toIOConfig Nat.one_pos
    fun j _ => (4 * j : ℚ)
  obtain ⟨h', hupd, hens', hmean'⟩ := computeAnalysisUpdateMean_spec
    (fun _ states j i => if hj : j < twoThicknesses.nens then
      twoThicknesses.analysisUpdates 1 (allStates states) i ⟨j, hj⟩ else 0)
    (fun _ states => twoThicknesses.analysisMean 1 (allStates states)) ho
    (twoThicknesses.targetSlice_lt Nat.one_pos) hens hmeans
  refine ⟨h, h', hens, hupd, fun hstored => ?_⟩
  have hrow := (storedMean_iff_rows hens' hmean').mp hstored 0 Nat.one_pos
  have hthick : Marked (IsThickness UpdateParams.thicknessVars twoThicknesses.vecInputs)
      twoThicknesses.ndim 0 := ⟨0, ⟨"h", rfl, by simp [UpdateParams.thicknessVars]⟩, by decide⟩
  have hread : allStates ((List.range twoThicknesses.nens).map fun j : ℕ =>
      trim twoThicknesses.toIOConfig fun _ => (4 * j : ℚ)) 0 =
      fun j : Fin twoThicknesses.nens => (4 * (j : ℕ) : ℚ) :=
    allStates_apply (fun j _ => (4 * j : ℚ)) Nat.one_pos
  have hle := (analysisMean_eq_iff 0).mp hrow hthick ⟨0, Nat.two_pos⟩
  rw [inflatedUpdates_congr (fun _ (j : Fin twoThicknesses.nens) => (4 * (j : ℕ) : ℚ)) hread]
    at hle
  have hfirst := hle.trans_eq (congrFun (inflatedUpdates_twoThicknesses
    (fun _ j => (4 * (j : ℕ) : ℚ)) 0) ⟨0, Nat.two_pos⟩)
  norm_num at hfirst

end AnalysisConfig

end Icesee
