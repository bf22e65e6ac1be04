import Icesee.Lib.VarBlocks
import Icesee.Store.Handler
import Mathlib.Data.Matrix.Mul
import Mathlib.Algebra.Order.Field.Rat
import Mathlib.Tactic

/-!
The analysis update of the rows that a rank holds.

Every rank multiplies its rows of the ensemble by `X5`, inflates the parameter rows
about their mean and, in two of the three updates, raises the rows of the thickness
variables to a minimum. Where the parameter rows and the variables begin is computed
* from the number of rows that the rank has (`compute_analysis_update`,
  `analysis_Denkf_update`, the common `blockUpdate`), or
* from all rows, for the rows that the rank has (`analysis_enkf_update`).

`globalUpdate` is what the ranks should have computed together. `blockUpdate_iff` and
`analysisEnkfUpdate_iff` say for which parameters and which split of the rows they do.
-/

namespace Icesee

open VarBlocks Tiling

variable {K : Type} [Field K] [LinearOrder K] {N : ℕ}

/-! ### Rows -/

/-- `np.dot(rows, X5)`. -/
def dotX5 (X5 : Matrix (Fin N) (Fin N) K) (x : ℕ → Fin N → K) : ℕ → Fin N → K :=
  fun i => Matrix.vecMul (x i) X5

/-- `np.mean` of a row. -/
def rowMean (a : Fin N → K) : K := (∑ j, a j) / N

/-- `mean_params + (row - mean_params) * inflation_factor`. -/
def inflateRow (f : K) (a : Fin N → K) : Fin N → K :=
  fun j => rowMean a + (a j - rowMean a) * f

/-- `np.maximum(row, c)`. -/
def clampRow (c : K) (a : Fin N → K) : Fin N → K := fun j => max (a j) c

/-- The inflation of `x[lo:, :]`. -/
def inflateFrom (f : K) (lo : ℕ) (x : ℕ → Fin N → K) : ℕ → Fin N → K :=
  fun i => if lo ≤ i then inflateRow f (x i) else x i

/-- Inflation of a row, then its minimum, where asked for. -/
def rowUpdate (f c : K) (inflated clamped : Prop) [Decidable inflated] [Decidable clamped]
    (a : Fin N → K) : Fin N → K :=
  let a := if inflated then inflateRow f a else a
  if clamped then clampRow c a else a

/-- The loop over `enumerate(vec_inputs)`: the rows `[i * ndim, i * ndim + ndim)` of every
variable with one of the names are raised to `c`. -/
def clampThickness (names : List String) (c : K) (ndim : ℕ) (vecInputs : List String)
    (x : ℕ → Fin N → K) : ℕ → Fin N → K :=
  vecInputs.zipIdx.foldl
    (fun x p =>
      if p.1 ∈ names then
        fun i => if p.2 * ndim ≤ i ∧ i < p.2 * ndim + ndim then clampRow c (x i) else x i
      else x) x

/-- Variable `i` has one of the names. -/
def IsThickness (names vecInputs : List String) (i : ℕ) : Prop :=
  ∃ var ∈ vecInputs[i]?, var ∈ names

instance (names vecInputs : List String) : DecidablePred (IsThickness names vecInputs) :=
  fun i => inferInstanceAs (Decidable (∃ var ∈ vecInputs[i]?, var ∈ names))

/-! ### The updates -/

/-- What the updates read of `params` and `model_kwargs`, and the sizes of the ensemble. -/
structure UpdateParams (K : Type) where
  nd : ℕ
  nens : ℕ
  totalStateParamVars : ℕ
  numStateVars : ℕ
  vecInputs : List String
  allObserved : List String
  inflationFactor : K
  nens_pos : 0 < nens
  vars_pos : 0 < totalStateParamVars
  vars_dvd : totalStateParamVars ∣ nd
  numStateVars_le : numStateVars ≤ totalStateParamVars

namespace UpdateParams

variable (prm : UpdateParams K)

/-- The update of the `localDim` rows of a rank, with the blocks computed from
`localDim`. -/
def blockUpdate (names : List String) (c : K) (X5 : Matrix (Fin prm.nens) (Fin prm.nens) K)
    (localDim : ℕ) (x : ℕ → Fin prm.nens → K) : ℕ → Fin prm.nens → K :=
  let updates := dotX5 X5 x
  let ndim := localDim / prm.totalStateParamVars
  let stateBlockSize := ndim * prm.numStateVars
  clampThickness names c ndim prm.vecInputs
    (inflateFrom prm.inflationFactor stateBlockSize updates)

/-- `THICKNESS_VARS` of `compute_analysis_update`. -/
def thicknessVars : List String :=
  ["h", "ice_thickness", "thickness", "ice_thick", "hi", "h_ice", "h_ice_thickness", "H"]

/-- `analysis_updates` of `compute_analysis_update`, with `min_thickness = 1`. -/
def computeAnalysisUpdate := prm.blockUpdate thicknessVars 1

/-- The names that `analysis_Denkf_update` compares with. -/
def thicknessVarsDenkf : List String := ["h", "thickness", "ice_thickness", "Thickness"]

/-- `analysis_vec` of `analysis_Denkf_update`. -/
def analysisDenkfUpdate := prm.blockUpdate thicknessVarsDenkf (1 / 100)

/-- The first row that `analysis_enkf_update` inflates. -/
def enkfParamsStart : ℕ := prm.nd / prm.allObserved.length * prm.numStateVars

/-- `analysis_vec` of `analysis_enkf_update`. The block size comes from all rows and the
number of observed variables; `none` is the `ZeroDivisionError`. -/
def analysisEnkfUpdate (X5 : Matrix (Fin prm.nens) (Fin prm.nens) K)
    (x : ℕ → Fin prm.nens → K) : Option (ℕ → Fin prm.nens → K) :=
  if prm.allObserved.length = 0 then none
  else some (inflateFrom prm.inflationFactor prm.enkfParamsStart (dotX5 X5 x))

/-- The first parameter row. -/
def paramsStart : ℕ := prm.nd / prm.totalStateParamVars * prm.numStateVars

/-- The update of all rows: inflation of the parameter rows, then the minimum of the
thickness variables. -/
def globalUpdate (names : List String) (c : K) (X5 : Matrix (Fin prm.nens) (Fin prm.nens) K)
    (x : ℕ → Fin prm.nens → K) (i : ℕ) : Fin prm.nens → K :=
  rowUpdate prm.inflationFactor c (prm.paramsStart ≤ i)
    (Marked (IsThickness names prm.vecInputs) (prm.nd / prm.totalStateParamVars) i)
    (Matrix.vecMul (x i) X5)

/-- The inflation of the parameter rows among all rows. -/
def globalInflation (X5 : Matrix (Fin prm.nens) (Fin prm.nens) K) (x : ℕ → Fin prm.nens → K) :
    ℕ → Fin prm.nens → K :=
  inflateFrom prm.inflationFactor prm.paramsStart (dotX5 X5 x)

/-- The rows that the ranks have computed with an update, one rank after the other. -/
def stacked {p : ℕ} (cuts : Cuts prm.nd p)
    (update : ℕ → (ℕ → Fin prm.nens → K) → ℕ → Fin prm.nens → K)
    (x : ℕ → Fin prm.nens → K) : ℕ → Fin prm.nens → K :=
  cuts.stack 0 fun r => update (cuts.size r) fun j => x (cuts.cut r + j)

/-- The ranks together compute what one rank computes, and what is computed for all rows,
for every ensemble and every `X5`. -/
structure RankIndependent {p : ℕ} (cuts : Cuts prm.nd p)
    (update : Matrix (Fin prm.nens) (Fin prm.nens) K → ℕ → (ℕ → Fin prm.nens → K) →
      ℕ → Fin prm.nens → K)
    (reference : Matrix (Fin prm.nens) (Fin prm.nens) K → (ℕ → Fin prm.nens → K) →
      ℕ → Fin prm.nens → K) : Prop where
  oneRank : ∀ X5 x, ∀ i < prm.nd, prm.stacked cuts (update X5) x i = update X5 prm.nd x i
  blocks : ∀ X5 x, ∀ i < prm.nd, prm.stacked cuts (update X5) x i = reference X5 x i

/-- No rank fails in `analysis_enkf_update`, and the ranks together inflate the parameter
rows. -/
def EnkfRankIndependent {p : ℕ} (cuts : Cuts prm.nd p) : Prop :=
  ∃ update : Matrix (Fin prm.nens) (Fin prm.nens) K → (ℕ → Fin prm.nens → K) →
      ℕ → Fin prm.nens → K,
    (∀ X5 x, prm.analysisEnkfUpdate X5 x = some (update X5 x)) ∧
    prm.RankIndependent cuts (fun X5 _ => update X5) prm.globalInflation

end UpdateParams

/-! ### One row -/

omit [Field K] in
lemma clampRow_idem (c : K) (a : Fin N → K) : clampRow c (clampRow c a) = clampRow c a := by
  funext j
  simp [clampRow]

/-- The variables of a list with one more name. -/
lemma marked_append {names l : List String} {var : String} {ndim i : ℕ} :
    Marked (IsThickness names (l ++ [var])) ndim i ↔
      Marked (IsThickness names l) ndim i ∨
        (var ∈ names ∧ l.length * ndim ≤ i ∧ i < l.length * ndim + ndim) := by
  simp only [Marked, IsThickness, Option.mem_def]
  constructor
  · rintro ⟨m, ⟨w, hw, hn⟩, hrow⟩
    obtain hlt | hge := lt_or_ge m l.length
    · rw [List.getElem?_append_left hlt] at hw
      exact Or.inl ⟨m, ⟨w, hw, hn⟩, hrow⟩
    · obtain ⟨hlen, hget⟩ := List.getElem?_eq_some_iff.mp hw
      rw [List.length_append, List.length_singleton] at hlen
      obtain rfl : m = l.length := by omega
      rw [List.getElem?_concat_length] at hw
      exact Or.inr ⟨by rwa [Option.some.inj hw], hrow⟩
  · rintro (⟨m, ⟨w, hw, hn⟩, hrow⟩ | ⟨hn, hrow⟩)
    · have hlt : m < l.length := (List.getElem?_eq_some_iff.mp hw).1
      exact ⟨m, ⟨w, by rw [List.getElem?_append_left hlt, hw], hn⟩, hrow⟩
    · exact ⟨l.length, ⟨var, List.getElem?_concat_length, hn⟩, hrow⟩

omit [Field K] in
/-- One more variable. -/
lemma clampThickness_append (names : List String) (c : K) (ndim : ℕ) (l : List String)
    (var : String) (x : ℕ → Fin N → K) (i : ℕ) :
    clampThickness names c ndim (l ++ [var]) x i =
      if var ∈ names ∧ l.length * ndim ≤ i ∧ i < l.length * ndim + ndim then
        clampRow c (clampThickness names c ndim l x i)
      else clampThickness names c ndim l x i := by
  rw [clampThickness, List.zipIdx_append, List.foldl_append, ← clampThickness]
  simp only [List.zipIdx_singleton, List.foldl_cons, List.foldl_nil, Nat.zero_add]
  by_cases hvar : var ∈ names <;> simp [hvar]

omit [Field K] in
/-- **The loop over the variables** raises the rows of the thickness variables. -/
lemma clampThickness_apply (names : List String) (c : K) (ndim : ℕ) (vecInputs : List String)
    (x : ℕ → Fin N → K) (i : ℕ) :
    clampThickness names c ndim vecInputs x i =
      if Marked (IsThickness names vecInputs) ndim i then clampRow c (x i) else x i := by
  induction vecInputs using List.reverseRecOn with
  | nil => simp [clampThickness, Marked, IsThickness]
  | append_singleton l var ih =>
      rw [clampThickness_append, ih, if_congr marked_append rfl rfl]
      split_ifs with hvar hl hor hor hl
      · exact clampRow_idem c _
      · exact absurd (Or.inl hl) hor
      · rfl
      · exact absurd (Or.inr hvar) hor
      · rfl
      · tauto
      · tauto
      · rfl

/-! ### What a row can tell -/

section Row

omit [LinearOrder K] in
/-- A row without spread has nothing to inflate. -/
lemma inflateRow_zero (f : K) : inflateRow f (0 : Fin N → K) = 0 := by
  funext j
  simp [inflateRow, rowMean]

omit [LinearOrder K] in
/-- Neither has a single member, and the factor `1` does nothing. -/
lemma inflateRow_eq_self {f : K} (h : f = 1 ∨ N = 1) (a : Fin N → K) : inflateRow f a = a := by
  funext j
  rcases h with rfl | rfl
  · simp [inflateRow]
  · obtain rfl : j = 0 := Subsingleton.elim _ _
    simp [inflateRow, rowMean]

variable [IsStrictOrderedRing K]

/-- A row in which one member sticks out of a high level. -/
def spike (f c : K) (j₀ : Fin N) : Fin N → K := fun j => c + |f| + if j = j₀ then 1 else 0

lemma inflateRow_spike (f c : K) (j₀ j : Fin N) : inflateRow f (spike f c j₀) j =
    c + |f| + 1 / N + ((if j = j₀ then 1 else 0) - 1 / N) * f := by
  have hN : (N : K) ≠ 0 := Nat.cast_ne_zero.mpr (Fin.pos j).ne'
  have hmean : rowMean (spike f c j₀) = c + |f| + 1 / N := by
    simp only [rowMean, spike, Finset.sum_add_distrib, Finset.sum_const, Finset.card_univ,
      Fintype.card_fin, nsmul_eq_mul, Finset.sum_ite_eq', Finset.mem_univ, if_true]
    field_simp
  rw [inflateRow, hmean, spike]
  ring

/-- The high level is out of the reach of the minimum, also after inflation. -/
lemma clampRow_spike (f c : K) (j₀ : Fin N) : clampRow c (spike f c j₀) = spike f c j₀ := by
  funext j
  refine max_eq_left ?_
  have hite : (0 : K) ≤ if j = j₀ then 1 else 0 := by split_ifs <;> simp
  have := abs_nonneg f
  rw [spike]
  linarith

lemma clampRow_inflateRow_spike (f c : K) (j₀ : Fin N) :
    clampRow c (inflateRow f (spike f c j₀)) = inflateRow f (spike f c j₀) := by
  funext j
  refine max_eq_left ?_
  have hN : (1 : K) ≤ N := by exact_mod_cast Fin.pos j
  have hinv : 0 < 1 / (N : K) := by positivity
  have hinv1 : 1 / (N : K) ≤ 1 := by rw [div_le_one (by linarith)]; exact hN
  have hdev : |(if j = j₀ then (1 : K) else 0) - 1 / N| ≤ 1 := by
    rw [abs_le]
    split_ifs <;> constructor <;> linarith
  have hprod : -|f| ≤ ((if j = j₀ then (1 : K) else 0) - 1 / N) * f := by
    calc -|f| ≤ -(|(if j = j₀ then (1 : K) else 0) - 1 / N| * |f|) :=
          neg_le_neg (mul_le_of_le_one_left (abs_nonneg f) hdev)
      _ = -|((if j = j₀ then (1 : K) else 0) - 1 / N) * f| := by rw [abs_mul]
      _ ≤ ((if j = j₀ then (1 : K) else 0) - 1 / N) * f := neg_abs_le _
  rw [inflateRow_spike]
  linarith

/-- Inflation shows on the spike. -/
lemma inflateRow_spike_ne {f : K} (hf : f ≠ 1) (hN : N ≠ 1) (c : K) (j₀ : Fin N) :
    inflateRow f (spike f c j₀) ≠ spike f c j₀ := by
  intro h
  have hj := congrFun h j₀
  have hN0 : (N : K) ≠ 0 := Nat.cast_ne_zero.mpr (Fin.pos j₀).ne'
  have hN1 : (N : K) - 1 ≠ 0 := sub_ne_zero.mpr (by exact_mod_cast hN)
  have hprod : ((N : K) - 1) * (f - 1) = 0 := by
    rw [inflateRow_spike, spike, if_pos rfl] at hj
    field_simp at hj
    linear_combination hj
  rcases mul_eq_zero.mp hprod with h0 | h0
  · exact hN1 h0
  · exact hf (sub_eq_zero.mp h0)

variable {f c : K} {I C I' C' : Prop} [Decidable I] [Decidable C] [Decidable I'] [Decidable C']

omit [IsStrictOrderedRing K] in
lemma rowUpdate_zero (hc : 0 < c) :
    rowUpdate f c I C (0 : Fin N → K) = fun _ => if C then c else 0 := by
  funext j
  by_cases hC : C <;> simp [rowUpdate, inflateRow_zero, clampRow, hC, hc.le]

lemma rowUpdate_spike (j₀ : Fin N) : rowUpdate f c I C (spike f c j₀) =
    if I then inflateRow f (spike f c j₀) else spike f c j₀ := by
  by_cases hI : I <;>
    simp [rowUpdate, hI, clampRow_spike, clampRow_inflateRow_spike]

/-- **Telling rows apart**: two updates of a row agree on all rows exactly if both raise
it or none does, and both inflate it or none does, where inflation shows at all. -/
lemma rowUpdate_eq_iff (hc : 0 < c) (hN : 0 < N) :
    (∀ a : Fin N → K, rowUpdate f c I C a = rowUpdate f c I' C' a) ↔
      ((f = 1 ∨ N = 1) ∨ (I ↔ I')) ∧ (C ↔ C') := by
  constructor
  · intro h
    have hzero := congrFun (h 0) ⟨0, hN⟩
    rw [rowUpdate_zero hc, rowUpdate_zero hc] at hzero
    have hC : C ↔ C' := by
      by_cases hC : C <;> by_cases hC' : C' <;> simp [hC, hC', hc.ne, hc.ne'] at hzero ⊢
    refine ⟨or_iff_not_imp_left.mpr fun hno => ?_, hC⟩
    rw [not_or] at hno
    have hspike := h (spike f c ⟨0, hN⟩)
    rw [rowUpdate_spike, rowUpdate_spike] at hspike
    have hne := inflateRow_spike_ne hno.1 hno.2 c ⟨0, hN⟩
    refine ⟨fun hI => ?_, fun hI' => ?_⟩
    · by_contra hI'
      rw [if_pos hI, if_neg hI'] at hspike
      exact hne hspike
    · by_contra hI
      rw [if_neg hI, if_pos hI'] at hspike
      exact hne hspike.symm
  · rintro ⟨hfN | hI, hC⟩ a
    · simp only [rowUpdate, inflateRow_eq_self hfN, ite_self, hC]
    · simp only [rowUpdate, hI, hC]

end Row

namespace UpdateParams

variable {prm : UpdateParams K} {p : ℕ} {cuts : Cuts prm.nd p}

/-! ### Local flags and global flags -/

/-- A flag that a rank computes for its row `j` from the number of its rows is the flag of
that row among all rows, on every rank and for one rank with all rows. -/
def Agrees (cuts : Cuts prm.nd p) (F : ℕ → ℕ → Prop) (F₀ : ℕ → Prop) : Prop :=
  (∀ r < p, ∀ j < cuts.size r, F (cuts.size r) j ↔ F₀ (cuts.cut r + j)) ∧
    ∀ i < prm.nd, F prm.nd i ↔ F₀ i

section Flags

variable {c : K} {I C : ℕ → ℕ → Prop} {I₀ C₀ : ℕ → Prop}
  [∀ L, DecidablePred (I L)] [∀ L, DecidablePred (C L)] [DecidablePred I₀] [DecidablePred C₀]
  {update : Matrix (Fin prm.nens) (Fin prm.nens) K → ℕ → (ℕ → Fin prm.nens → K) →
    ℕ → Fin prm.nens → K}
  {reference : Matrix (Fin prm.nens) (Fin prm.nens) K → (ℕ → Fin prm.nens → K) →
    ℕ → Fin prm.nens → K}

/-- Updates row by row: every row of the ensembles that there are, at every place. -/
lemma rankIndependent_iff_rows
    (hupdate : ∀ X5 L x i, update X5 L x i =
      rowUpdate prm.inflationFactor c (I L i) (C L i) (Matrix.vecMul (x i) X5))
    (hreference : ∀ X5 x i, reference X5 x i =
      rowUpdate prm.inflationFactor c (I₀ i) (C₀ i) (Matrix.vecMul (x i) X5)) :
    prm.RankIndependent cuts update reference ↔
      (∀ r < p, ∀ j < cuts.size r, ∀ a : Fin prm.nens → K,
        rowUpdate prm.inflationFactor c (I (cuts.size r) j) (C (cuts.size r) j) a =
          rowUpdate prm.inflationFactor c (I₀ (cuts.cut r + j)) (C₀ (cuts.cut r + j)) a) ∧
      ∀ i < prm.nd, ∀ a : Fin prm.nens → K,
        rowUpdate prm.inflationFactor c (I prm.nd i) (C prm.nd i) a =
          rowUpdate prm.inflationFactor c (I₀ i) (C₀ i) a := by
  have hstack : ∀ X5 x, ∀ r < p, ∀ j < cuts.size r,
      prm.stacked cuts (update X5) x (cuts.cut r + j) =
        rowUpdate prm.inflationFactor c (I (cuts.size r) j) (C (cuts.size r) j)
          (Matrix.vecMul (x (cuts.cut r + j)) X5) := fun X5 x r hr j hj => by
    rw [stacked, cuts.stack_apply _ _ hr hj, hupdate]
  constructor
  · rintro ⟨hone, hblocks⟩
    -- an ensemble of equal rows has that row at every place
    refine ⟨fun r hr j hj a => ?_, fun i hi a => ?_⟩
    · have h := hblocks 1 (fun _ => a) _ (cuts.cut_add_lt hr hj)
      rwa [hstack 1 _ r hr j hj, hreference, Matrix.vecMul_one] at h
    · have h := (hone 1 (fun _ => a) i hi).symm.trans (hblocks 1 (fun _ => a) i hi)
      rwa [hupdate, hreference, Matrix.vecMul_one] at h
  · rintro ⟨hrow, hall⟩
    have hblocks : ∀ X5 x, ∀ i < prm.nd,
        prm.stacked cuts (update X5) x i = reference X5 x i := by
      intro X5 x i hi
      obtain ⟨r, hr, j, hj, rfl⟩ := cuts.exists_block hi
      rw [hstack X5 x r hr j hj, hrow r hr j hj, hreference]
    refine ⟨fun X5 x i hi => ?_, hblocks⟩
    rw [hblocks X5 x i hi, hreference, hupdate, hall i hi]

/-- **Rank independence is a matter of the flags**: updates that inflate and raise rows by
flags are independent of the ranks exactly if the flags agree, the one for inflation
only where inflation shows. -/
lemma rankIndependent_iff [IsStrictOrderedRing K] (hc : 0 < c)
    (hupdate : ∀ X5 L x i, update X5 L x i =
      rowUpdate prm.inflationFactor c (I L i) (C L i) (Matrix.vecMul (x i) X5))
    (hreference : ∀ X5 x i, reference X5 x i =
      rowUpdate prm.inflationFactor c (I₀ i) (C₀ i) (Matrix.vecMul (x i) X5)) :
    prm.RankIndependent cuts update reference ↔
      ((prm.inflationFactor = 1 ∨ prm.nens = 1) ∨ Agrees cuts I I₀) ∧ Agrees cuts C C₀ := by
  simp only [rankIndependent_iff_rows hupdate hreference, rowUpdate_eq_iff hc prm.nens_pos]
  constructor
  · rintro ⟨hrow, hall⟩
    refine ⟨or_iff_not_imp_left.mpr fun hno => ⟨fun r hr j hj => ?_, fun i hi => ?_⟩,
      fun r hr j hj => (hrow r hr j hj).2, fun i hi => (hall i hi).2⟩
    · exact (hrow r hr j hj).1.resolve_left hno
    · exact (hall i hi).1.resolve_left hno
  · rintro ⟨hI, hC⟩
    exact ⟨fun r hr j hj => ⟨hI.imp_right fun h => h.1 r hr j hj, hC.1 r hr j hj⟩,
      fun i hi => ⟨hI.imp_right fun h => h.2 i hi, hC.2 i hi⟩⟩

end Flags

omit [Field K] [LinearOrder K] in
/-- The blocks of a rank are where they are among all rows if they are aligned. -/
lemma agrees_marked_iff (T : ℕ → Prop) :
    Agrees cuts (fun L => Marked T (L / prm.totalStateParamVars))
      (Marked T (prm.nd / prm.totalStateParamVars)) ↔
        Aligned cuts prm.totalStateParamVars T :=
  ⟨fun h => h.1, fun h => ⟨h, fun _ _ => Iff.rfl⟩⟩

omit [Field K] [LinearOrder K] in
/-- The parameter rows are the rows behind the blocks of the state variables. -/
lemma agrees_params_iff :
    Agrees cuts (fun L i => L / prm.totalStateParamVars * prm.numStateVars ≤ i)
      (prm.paramsStart ≤ ·) ↔ Aligned cuts prm.totalStateParamVars (· < prm.numStateVars) := by
  rw [← agrees_marked_iff]
  simp only [Agrees, paramsStart, ← not_marked_lt_iff, not_iff_not]

/-! ### Updates with blocks from the rows of the rank -/

/-- The condition for the blocks: one rank has all rows, or the thickness variables are
found by every rank and, where inflation shows, there are no state variables, or only
state variables and `total_state_param_vars` divides the rows of every rank. -/
def BlockCondition (prm : UpdateParams K) (names : List String) (cuts : Cuts prm.nd p) : Prop :=
  OneBlock cuts ∨
    (NoneMarked cuts prm.totalStateParamVars (IsThickness names prm.vecInputs) ∨
      AllMarked cuts prm.totalStateParamVars (IsThickness names prm.vecInputs) ∨
      LastMarked cuts prm.totalStateParamVars (IsThickness names prm.vecInputs)) ∧
    ((prm.inflationFactor = 1 ∨ prm.nens = 1) ∨ prm.numStateVars = 0 ∨
      (prm.numStateVars = prm.totalStateParamVars ∧
        ∀ r < p, prm.totalStateParamVars ∣ cuts.size r))

/-- An update with blocks from the rows of the rank, row by row. -/
lemma blockUpdate_apply (names : List String) (c : K)
    (X5 : Matrix (Fin prm.nens) (Fin prm.nens) K) (L : ℕ) (x : ℕ → Fin prm.nens → K) (i : ℕ) :
    prm.blockUpdate names c X5 L x i = rowUpdate prm.inflationFactor c
      (L / prm.totalStateParamVars * prm.numStateVars ≤ i)
      (Marked (IsThickness names prm.vecInputs) (L / prm.totalStateParamVars) i)
      (Matrix.vecMul (x i) X5) := by
  rw [blockUpdate, clampThickness_apply]
  rfl

/-- **Blocks from the rows of the rank**: the split of the rows does not matter exactly
under the condition. -/
theorem blockUpdate_iff [IsStrictOrderedRing K] {names : List String} {c : K} (hc : 0 < c)
    (hp : 0 < p) : prm.RankIndependent cuts (prm.blockUpdate names c) (prm.globalUpdate names c) ↔
      prm.BlockCondition names cuts := by
  have hflags : prm.RankIndependent cuts (prm.blockUpdate names c) (prm.globalUpdate names c) ↔ _ :=
    rankIndependent_iff hc (fun X5 L x i => blockUpdate_apply names c X5 L x i) fun _ _ _ => rfl
  rw [hflags, agrees_params_iff, agrees_marked_iff,
    aligned_lt_iff prm.vars_dvd prm.vars_pos hp prm.numStateVars_le,
    aligned_iff prm.vars_dvd prm.vars_pos hp, BlockCondition, or_left_comm, ← or_and_left]
  exact or_congr_right and_comm

/-! ### The full-parallel update -/

omit [Field K] [LinearOrder K] in
/-- The first rank of `partition_1d` has the most rows. -/
lemma size_partitionCuts_le {n r : ℕ} (hp : 0 < p) :
    (partitionCuts n p hp).size r ≤ (partitionCuts n p hp).size 0 := by
  rw [size_partitionCuts, size_partitionCuts]
  split_ifs <;> omega

/-- **The full-parallel update**: with the windows of `partition_1d` the number of ranks
does not matter exactly if one rank has all rows, or every rank finds the thickness
variables and the parameter rows. -/
theorem computeAnalysisUpdate_iff [IsStrictOrderedRing K] (prm : UpdateParams K) (hp : 0 < p) :
    prm.RankIndependent (partitionCuts prm.nd p hp) prm.computeAnalysisUpdate
        (prm.globalUpdate thicknessVars 1) ↔
      OneBlock (partitionCuts prm.nd p hp) ∨
        (NoneMarked (partitionCuts prm.nd p hp) prm.totalStateParamVars
            (IsThickness thicknessVars prm.vecInputs) ∨
          AllMarked (partitionCuts prm.nd p hp) prm.totalStateParamVars
            (IsThickness thicknessVars prm.vecInputs)) ∧
        ((prm.inflationFactor = 1 ∨ prm.nens = 1) ∨ prm.numStateVars = 0 ∨
          (prm.numStateVars = prm.totalStateParamVars ∧
            ∀ r < p, prm.totalStateParamVars ∣ (partitionCuts prm.nd p hp).size r)) := by
  have hlast : LastMarked (partitionCuts prm.nd p hp) prm.totalStateParamVars
      (IsThickness thicknessVars prm.vecInputs) → OneBlock (partitionCuts prm.nd p hp) :=
    fun h => h.oneBlock fun _ _ => size_partitionCuts_le hp
  rw [computeAnalysisUpdate, blockUpdate_iff zero_lt_one hp, BlockCondition]
  refine ⟨?_, Or.imp_right (And.imp_left (Or.imp_right Or.inl))⟩
  rintro (hone | ⟨hnone | hall | hl, hinfl⟩)
  · exact Or.inl hone
  · exact Or.inr ⟨Or.inl hnone, hinfl⟩
  · exact Or.inr ⟨Or.inr hall, hinfl⟩
  · exact Or.inl (hlast hl)

/-- Two variables of two rows on two ranks. -/
def twoVars (vecInputs allObserved : List String) (numStateVars : ℕ) (h : numStateVars ≤ 2)
    (inflationFactor : ℚ) : UpdateParams ℚ where
  nd := 4
  nens := 2
  totalStateParamVars := 2
  numStateVars := numStateVars
  vecInputs := vecInputs
  allObserved := allObserved
  inflationFactor := inflationFactor
  nens_pos := Nat.two_pos
  vars_pos := Nat.two_pos
  vars_dvd := ⟨2, rfl⟩
  numStateVars_le := h

/-- Two velocities, two rows on either rank: inflation and all. -/
theorem computeAnalysisUpdate_two_ranks :
    (twoVars ["u", "v"] [] 2 le_rfl 2).RankIndependent (partitionCuts 4 2 Nat.two_pos)
      (twoVars ["u", "v"] [] 2 le_rfl 2).computeAnalysisUpdate
      ((twoVars ["u", "v"] [] 2 le_rfl 2).globalUpdate thicknessVars 1) := by
  have hnone : ∀ i, ¬ IsThickness thicknessVars ["u", "v"] i := by
    rintro (_ | _ | i) <;> simp [IsThickness, thicknessVars]
  refine (computeAnalysisUpdate_iff (twoVars ["u", "v"] [] 2 le_rfl 2) Nat.two_pos).mpr
    (Or.inr ⟨Or.inl ⟨fun i _ => hnone i, fun _ _ _ i _ => hnone i⟩, Or.inr (Or.inr ⟨rfl, ?_⟩)⟩)
  decide

/-- A thickness and a mass balance on two ranks: rank `1` takes its first row, which is
the first one of the mass balance, for thickness. -/
theorem not_rankIndependent_two_ranks :
    ¬ (twoVars ["h", "smb"] [] 1 one_le_two 1).RankIndependent (partitionCuts 4 2 Nat.two_pos)
      (twoVars ["h", "smb"] [] 1 one_le_two 1).computeAnalysisUpdate
      ((twoVars ["h", "smb"] [] 1 one_le_two 1).globalUpdate thicknessVars 1) := by
  intro h
  have hrow := congrFun (h.oneRank 1 0 2 (by decide)) ⟨0, Nat.two_pos⟩
  revert hrow
  decide +kernel

/-! ### The partial-parallel updates -/

omit [Field K] [LinearOrder K] in
lemma paramsStart_le : prm.paramsStart ≤ prm.nd := by
  calc prm.paramsStart ≤ prm.nd / prm.totalStateParamVars * prm.totalStateParamVars :=
        Nat.mul_le_mul_left _ prm.numStateVars_le
    _ ≤ prm.nd := Nat.div_mul_le_self _ _

omit [Field K] [LinearOrder K] in
/-- A row number for all rows, applied to the rows of every rank, is the right one if
nothing is beyond it, or if everything is, or if one rank has all rows. -/
lemma agrees_start_iff {s s₀ : ℕ} (hs₀ : s₀ ≤ prm.nd) :
    Agrees cuts (fun _ i => s ≤ i) (s₀ ≤ ·) ↔
      (s₀ = prm.nd ∧ prm.nd ≤ s) ∨ (s = s₀ ∧ (s₀ = 0 ∨ OneBlock cuts)) := by
  constructor
  · rintro ⟨hrow, hall⟩
    obtain rfl | hlt := hs₀.eq_or_lt
    · refine Or.inl ⟨rfl, not_lt.mp fun hs => ?_⟩
      have := (hall s hs).mp le_rfl
      omega
    · have hle : s ≤ s₀ := (hall s₀ hlt).mpr le_rfl
      have hge : s₀ ≤ s := (hall s (by omega)).mp le_rfl
      obtain rfl : s = s₀ := le_antisymm hle hge
      refine Or.inr ⟨rfl, or_iff_not_imp_left.mpr fun hpos => ?_⟩
      -- the rank with row `s` has no rows before it, and no rank comes after it
      obtain ⟨r, hr, j, hj, hrj⟩ := cuts.exists_block hlt
      have hj_le := (hrow r hr j hj).mpr (by omega)
      refine ⟨r, hr, le_antisymm (cuts.size_le hr) (not_lt.mp fun hsize => ?_)⟩
      obtain ⟨r', hr', hsize', hcut'⟩ := cuts.exists_next hr (by omega)
      have := (hrow r' hr' 0 hsize').mpr (by omega)
      omega
  · rintro (⟨rfl, hs⟩ | ⟨rfl, rfl | ⟨r₀, hr₀, hsize⟩⟩)
    · refine ⟨fun r hr j hj => iff_of_false ?_ ?_, fun i hi => iff_of_false ?_ ?_⟩
      all_goals first | have := cuts.cut_add_lt hr hj; omega | omega
    · exact ⟨fun _ _ _ _ => by simp, fun _ _ => Iff.rfl⟩
    · refine ⟨fun r hr j hj => ?_, fun _ _ => Iff.rfl⟩
      obtain ⟨rfl, hcut⟩ := OneBlock.eq hr₀ hsize hr hj
      rw [hcut, Nat.zero_add]

omit [LinearOrder K] in
/-- With something observed, the update does not fail and there is no choice. -/
lemma enkfRankIndependent_iff_of_update : prm.EnkfRankIndependent cuts ↔
    prm.allObserved ≠ [] ∧ prm.RankIndependent cuts
      (fun X5 _ x => inflateFrom prm.inflationFactor prm.enkfParamsStart (dotX5 X5 x))
      prm.globalInflation := by
  constructor
  · rintro ⟨update, hupdate, h⟩
    have hne : prm.allObserved.length ≠ 0 := fun h0 => by
      have h1 := hupdate 0 0
      rw [analysisEnkfUpdate, if_pos h0] at h1
      simp at h1
    obtain rfl : update = fun X5 x =>
        inflateFrom prm.inflationFactor prm.enkfParamsStart (dotX5 X5 x) := by
      funext X5 x
      have h1 := hupdate X5 x
      rw [analysisEnkfUpdate, if_neg hne] at h1
      exact (Option.some.inj h1).symm
    exact ⟨fun h0 => hne (h0 ▸ rfl), h⟩
  · rintro ⟨hne, h⟩
    refine ⟨_, fun X5 x => ?_, h⟩
    rw [analysisEnkfUpdate, if_neg fun h0 => hne (List.length_eq_zero_iff.mp h0)]

/-- **`analysis_enkf_update`**: the ranks inflate the parameter rows exactly if something is
observed and, where inflation shows, there are no parameter rows and none is taken for
one, or the block size is right and there are no state rows or one rank has all rows. -/
theorem enkfRankIndependent_iff [IsStrictOrderedRing K] :
    prm.EnkfRankIndependent cuts ↔ prm.allObserved ≠ [] ∧
      ((prm.inflationFactor = 1 ∨ prm.nens = 1) ∨
        (prm.paramsStart = prm.nd ∧ prm.nd ≤ prm.enkfParamsStart) ∨
        (prm.enkfParamsStart = prm.paramsStart ∧ (prm.paramsStart = 0 ∨ OneBlock cuts))) := by
  have hflags : prm.RankIndependent cuts
      (fun X5 _ x => inflateFrom prm.inflationFactor prm.enkfParamsStart (dotX5 X5 x))
      prm.globalInflation ↔ _ :=
    rankIndependent_iff zero_lt_one
      (fun X5 _ x i => (rfl : _ = rowUpdate prm.inflationFactor 1 (prm.enkfParamsStart ≤ i) False
        (Matrix.vecMul (x i) X5)))
      fun X5 x i => (rfl : _ = rowUpdate prm.inflationFactor 1 (prm.paramsStart ≤ i) False
        (Matrix.vecMul (x i) X5))
  have hfalse : Agrees cuts (fun _ _ => False) fun _ => False :=
    ⟨fun _ _ _ _ => Iff.rfl, fun _ _ => Iff.rfl⟩
  rw [enkfRankIndependent_iff_of_update, hflags, agrees_start_iff paramsStart_le,
    and_iff_left hfalse]

/-- **The partial-parallel updates**, for every split of the rows into consecutive blocks. -/
theorem partialUpdates_iff [IsStrictOrderedRing K] (prm : UpdateParams K)
    (cuts : Cuts prm.nd p) (hp : 0 < p) :
    (prm.EnkfRankIndependent cuts ↔ prm.allObserved ≠ [] ∧
      ((prm.inflationFactor = 1 ∨ prm.nens = 1) ∨
        (prm.paramsStart = prm.nd ∧ prm.nd ≤ prm.enkfParamsStart) ∨
        (prm.enkfParamsStart = prm.paramsStart ∧ (prm.paramsStart = 0 ∨ OneBlock cuts)))) ∧
    (prm.RankIndependent cuts prm.analysisDenkfUpdate
        (prm.globalUpdate thicknessVarsDenkf (1 / 100)) ↔
      prm.BlockCondition thicknessVarsDenkf cuts) :=
  ⟨enkfRankIndependent_iff, blockUpdate_iff (by norm_num) hp⟩

/-- Both hold for two velocities that are observed. -/
theorem partialUpdates_two_ranks :
    (twoVars ["u", "v"] ["u", "v"] 2 le_rfl 2).EnkfRankIndependent
        (partitionCuts 4 2 Nat.two_pos) ∧
      (twoVars ["u", "v"] ["u", "v"] 2 le_rfl 2).RankIndependent (partitionCuts 4 2 Nat.two_pos)
        (twoVars ["u", "v"] ["u", "v"] 2 le_rfl 2).analysisDenkfUpdate
        ((twoVars ["u", "v"] ["u", "v"] 2 le_rfl 2).globalUpdate thicknessVarsDenkf (1 / 100)) := by
  have hnone : ∀ i, ¬ IsThickness thicknessVarsDenkf ["u", "v"] i := by
    rintro (_ | _ | i) <;> simp [IsThickness, thicknessVarsDenkf]
  obtain ⟨henkf, hdenkf⟩ := partialUpdates_iff (twoVars ["u", "v"] ["u", "v"] 2 le_rfl 2)
    (partitionCuts 4 2 Nat.two_pos) Nat.two_pos
  refine ⟨henkf.mpr ⟨List.cons_ne_nil _ _, Or.inr (Or.inl ⟨rfl, le_rfl⟩)⟩,
    hdenkf.mpr (Or.inr ⟨Or.inl ⟨fun i _ => hnone i, fun _ _ _ i _ => hnone i⟩,
      Or.inr (Or.inr ⟨rfl, ?_⟩)⟩)⟩
  decide

/-- A thickness that is observed and a mass balance that is not, on two ranks: the block
size `4` is that of one variable, so no rank inflates anything, and with blocks from its
own rows rank `1` takes a row of the mass balance for thickness. -/
theorem not_partialUpdates_two_ranks :
    ¬ (twoVars ["h", "smb"] ["h"] 1 one_le_two 2).EnkfRankIndependent
        (partitionCuts 4 2 Nat.two_pos) ∧
      ¬ (twoVars ["h", "smb"] ["h"] 1 one_le_two 2).RankIndependent
        (partitionCuts 4 2 Nat.two_pos)
        (twoVars ["h", "smb"] ["h"] 1 one_le_two 2).analysisDenkfUpdate
        ((twoVars ["h", "smb"] ["h"] 1 one_le_two 2).globalUpdate thicknessVarsDenkf
          (1 / 100)) := by
  refine ⟨fun h => ?_, fun h => ?_⟩
  · have hrow := congrFun ((enkfRankIndependent_iff_of_update.mp h).2.blocks 1
      (fun _ j => j.val) 2 (by decide)) ⟨0, Nat.two_pos⟩
    revert hrow
    decide +kernel
  · have hrow := congrFun (h.oneRank 1 0 2 (by decide)) ⟨0, Nat.two_pos⟩
    revert hrow
    decide +kernel

end UpdateParams

end Icesee
