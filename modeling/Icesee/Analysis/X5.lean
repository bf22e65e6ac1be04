import Icesee.Analysis.Filters
import Icesee.Analysis.X5Inputs

/-!
`X5`: the two implementations of the ensemble transform, and the estimate they give.

`EnKF_X5` runs in the partial mode and `compute_X5_modified` in the full mode. Both
invert the leading squares of the singular values in one loop, `invertLoop`, with a
test that the second one guards against a sum of zero; there the quotient of the first
one is not a number and fails its test. `enkfX5_eq` says that they return the same
matrix. `mean_enkfX5` gives the analysis mean, in which the covariance of the observation
errors does not occur, and `estimate_eq_iff` compares it with the serial filter.
-/

namespace Icesee

open Matrix Gain

/-! ### The loop over the singular values -/

section Loop

variable {K : Type} [Field K] (keep : K → Bool)

/-- `nrsigma` and `sig` after the loop, from `sigsum1` on: entries are inverted as long as
the test allows it, and the others are set to zero. -/
def invertLoop : K → List K → ℕ × List K
  | _, [] => (0, [])
  | sigsum1, s :: rest =>
    if keep sigsum1 then
      let r := invertLoop (sigsum1 + s) rest
      (r.1 + 1, 1 / s :: r.2)
    else (0, (s :: rest).map fun _ => 0)

variable {keep}

/-- The first `nrsigma` entries are inverted. -/
lemma invertLoop_getD (a : K) (l : List K) (i : ℕ) : (invertLoop keep a l).2.getD i 0 =
    if i < (invertLoop keep a l).1 then 1 / l.getD i 0 else 0 := by
  induction l generalizing a i with
  | nil => rfl
  | cons s rest ih =>
      rw [invertLoop]
      split
      · cases i with
        | zero => rfl
        | succ i => simpa using ih (a + s) i
      · show ((s :: rest).map fun _ => 0).getD i 0 = 0
        rw [List.getD_eq_getElem?_getD, List.getElem?_map]
        cases (s :: rest)[i]? <;> rfl

variable [LinearOrder K]

/-- `sigsum1 / sigsum < 0.999` in `EnKF_X5`: `0.0 / 0.0` is not a number. -/
def quotientBelow (sigsum sigsum1 : K) : Bool :=
  decide (sigsum ≠ 0 ∧ sigsum1 / sigsum < 999 / 1000)

/-- `sig` after the loop of `EnKF_X5`. -/
def enkfSig (sig : List K) : List K := (invertLoop (quotientBelow sig.sum) 0 sig).2

/-- `sig` after the loop of `compute_X5_modified`. -/
def modifiedSig (sig : List K) : List K :=
  if sig.sum = 0 then sig.map fun _ => 0
  else (invertLoop (fun sigsum1 => decide (sigsum1 / sig.sum < 999 / 1000)) 0 sig).2

/-- The guard does what the failing test does. -/
lemma modifiedSig_eq (sig : List K) : modifiedSig sig = enkfSig sig := by
  rw [modifiedSig, enkfSig]
  split
  · next hsum =>
    cases sig with
    | nil => rfl
    | cons s rest =>
        rw [invertLoop, if_neg]
        simp [quotientBelow, hsum]
  · next hsum =>
    congr 2
    funext sigsum1
    simp [quotientBelow, hsum]

variable [IsStrictOrderedRing K]

/-- The loop inverts positive entries only, if they are sorted and not negative. -/
lemma invertLoop_pos {sigsum a : K} {l : List K} (hsum : a + l.sum = sigsum)
    (hsorted : l.Pairwise (· ≥ ·)) (hnonneg : ∀ s ∈ l, 0 ≤ s) {i : ℕ}
    (hi : i < (invertLoop (quotientBelow sigsum) a l).1) : 0 < l.getD i 0 := by
  induction l generalizing a i with
  | nil => simp [invertLoop] at hi
  | cons s rest ih =>
      rw [invertLoop] at hi
      split at hi
      · next hkeep =>
        obtain ⟨hle, hrest⟩ := List.pairwise_cons.mp hsorted
        have hnonneg' := fun x hx => hnonneg x (List.mem_cons_of_mem s hx)
        cases i with
        | zero =>
            -- a zero would be followed by zeros, and the sum would be complete
            refine (hnonneg s List.mem_cons_self).lt_of_ne fun hs => ?_
            have hzero : rest.sum = 0 := List.sum_eq_zero fun x hx =>
              le_antisymm (hs ▸ hle x hx) (hnonneg' x hx)
            obtain ⟨hne, hlt⟩ := of_decide_eq_true hkeep
            rw [List.sum_cons, ← hs, hzero, add_zero, add_zero] at hsum
            rw [hsum, div_self hne] at hlt
            norm_num at hlt
        | succ i =>
            exact ih (by rw [← hsum, List.sum_cons, add_assoc]) hrest hnonneg'
              (Nat.lt_of_succ_lt_succ hi)
      · exact absurd hi (Nat.not_lt_zero i)

end Loop

/-! ### The two implementations -/

section Transform

variable {K : Type} [Field K] {m nd N c : ℕ}

/-- `X4`, by `X1`, `X2` and `X3`. -/
def x4 (u : Matrix (Fin m) (Fin (min m N)) K) (sig : List K) (dprime : Matrix (Fin m) (Fin c) K)
    (haprime : Matrix (Fin m) (Fin N) K) : Matrix (Fin N) (Fin c) K :=
  let x1 : Matrix (Fin (min m N)) (Fin m) K := of fun i j => sig.getD i 0 * u j i
  let x2 := x1 * dprime
  let x3 := u * x2
  haprimeᵀ * x3

/-- The squares of the singular values. -/
def sigSquared (s : SVD (Fin m) (Fin (min m N)) (Fin N) K) : List K :=
  List.ofFn fun i => s.sig i ^ 2

/-- The departures of the members in `H`, and the same innovation for each of them. -/
def x5Inputs (H : Matrix (Fin m) (Fin nd) K) (A : Matrix (Fin nd) (Fin N) K) (y : Fin nd → K) :
    X5Utils K m N where
  dprime := of fun i _ => (H *ᵥ y - H *ᵥ ensembleMean A) i
  eta := H * perturbations A
  haprime := H * perturbations A

/-- The full mode distributes these inputs over the ranks. -/
lemma computeX5Utils_eq_x5Inputs {p : ℕ} (cuts : Tiling.Cuts nd p)
    (H : Matrix (Fin m) (Fin nd) K) (A : Matrix (Fin nd) (Fin N) K) (y : Fin nd → K)
    (rank : Fin p) : computeX5Utils cuts H y (ensembleMean A) A rank = x5Inputs H A y := by
  have heta : H * perturbations A = of fun i j => (H * A) i j - (H *ᵥ ensembleMean A) i := by
    rw [perturbations_eq, Matrix.mul_sub]
    rfl
  rw [computeX5Utils_eq, x5Inputs, heta]
  rfl

/-- A column of `X4` does not depend on the other columns. -/
lemma x4_apply (u : Matrix (Fin m) (Fin (min m N)) K) (sig : List K) (e : Fin m → K)
    (haprime : Matrix (Fin m) (Fin N) K) (i : Fin N) (j : Fin c) :
    x4 u sig (of fun r _ => e r) haprime i j =
      (haprimeᵀ *ᵥ (u *ᵥ ((of fun k r => sig.getD k 0 * u r k) *ᵥ e))) i := rfl

/-- An operator does not see entries in columns of zeros. -/
lemma mulVec_getD (H : Matrix (Fin m) (Fin nd) K) {huObs : Fin nd → Option K} {y : Fin nd → K}
    (hsel : ∀ k, huObs k = none → ∀ r, H r k = 0) (hy : ∀ k v, huObs k = some v → y k = v) :
    (H *ᵥ fun k => (huObs k).getD 0) = H *ᵥ y := by
  funext r
  show ∑ k, H r k * (huObs k).getD 0 = ∑ k, H r k * y k
  refine Finset.sum_congr rfl fun k _ => ?_
  cases hk : huObs k with
  | none => rw [hsel k hk r, zero_mul, zero_mul]
  | some v => rw [hy k v hk, Option.getD_some]

variable [LinearOrder K]
  (svd : Matrix (Fin m) (Fin N) K → SVD (Fin m) (Fin (min m N)) (Fin N) K)

/-- `EnKF_X5` under `use_ensemble_pertubations`, where an entry that is not a number is
`none`. The column `X4` is broadcast against the identity. -/
def enkfX5 (H : Matrix (Fin m) (Fin nd) K) (ensemble : Matrix (Fin nd) (Fin N) K)
    (huObs : Fin nd → Option K) : Matrix (Fin N) (Fin N) K :=
  let yFull := fun i => (huObs i).getD 0
  let d := H *ᵥ yFull
  let eta := H * perturbations ensemble
  let dprime : Matrix (Fin m) (Fin 1) K := of fun i _ => d i - (H *ᵥ ensembleMean ensemble) i
  let haprime := eta
  let s := svd (haprime + eta)
  let x4 := x4 s.u (enkfSig (sigSquared s)) dprime haprime
  of fun i j => x4 i 0 + (1 : Matrix (Fin N) (Fin N) K) i j

/-- `compute_X5_modified`, on what `compute_X5_utils_` returns. -/
def computeX5Modified (utils : X5Utils K m N) : Matrix (Fin N) (Fin N) K :=
  let s := svd (utils.haprime + utils.eta)
  x4 s.u (modifiedSig (sigSquared s)) utils.dprime utils.haprime + 1

variable {svd}

/-- The two implementations agree where they see the same observations. -/
lemma enkfX5_eq_of_obs (H : Matrix (Fin m) (Fin nd) K) (A : Matrix (Fin nd) (Fin N) K)
    {huObs : Fin nd → Option K} {y : Fin nd → K}
    (hd : (H *ᵥ fun i => (huObs i).getD 0) = H *ᵥ y) :
    enkfX5 svd H A huObs = computeX5Modified svd (x5Inputs H A y) := by
  ext i j
  rw [enkfX5, hd, computeX5Modified, modifiedSig_eq]
  rfl

/-- **Partial and full mode** return the same `X5`, for observations that may have gaps
outside of the columns that the operator sees. -/
theorem enkfX5_eq (svd : Matrix (Fin m) (Fin N) K → SVD (Fin m) (Fin (min m N)) (Fin N) K)
    (H : Matrix (Fin m) (Fin nd) K) (A : Matrix (Fin nd) (Fin N) K) {huObs : Fin nd → Option K}
    {y : Fin nd → K} (hsel : ∀ k, huObs k = none → ∀ r, H r k = 0)
    (hy : ∀ k v, huObs k = some v → y k = v) :
    enkfX5 svd H A huObs = computeX5Modified svd (x5Inputs H A y) :=
  enkfX5_eq_of_obs H A (mulVec_getD H hsel hy)

/-- Every rank of the full mode has the `X5` of the partial mode. -/
theorem computeX5Modified_computeX5Utils {p : ℕ} (cuts : Tiling.Cuts nd p)
    (H : Matrix (Fin m) (Fin nd) K) (A : Matrix (Fin nd) (Fin N) K) {huObs : Fin nd → Option K}
    {y : Fin nd → K} (hsel : ∀ k, huObs k = none → ∀ r, H r k = 0)
    (hy : ∀ k v, huObs k = some v → y k = v) (rank : Fin p) :
    computeX5Modified svd (computeX5Utils cuts H y (ensembleMean A) A rank) =
      enkfX5 svd H A huObs := by
  rw [computeX5Utils_eq_x5Inputs, enkfX5_eq_of_obs H A (mulVec_getD H hsel hy)]

/-- Two rows of four members. -/
def twoRows : Matrix (Fin 2) (Fin 4) ℚ := !![1, 1, -1, -1; 5, 0, 2, 1]

/-- The decomposition of twice the perturbations of the first row. -/
def firstRowSVD : SVD (Fin 1) (Fin (min 1 4)) (Fin 4) ℚ where
  u _ _ := 1
  sig _ := 4
  vt _ j := ![1 / 2, 1 / 2, -1 / 2, -1 / 2] j

/-- The first row is observed, and the second one has no observation. -/
theorem enkfX5_eq_first_row :
    enkfX5 (fun _ => firstRowSVD) !![1, 0] twoRows ![some 3, none] =
      computeX5Modified (fun _ => firstRowSVD) (x5Inputs !![1, 0] twoRows ![3, 7]) := by
  refine enkfX5_eq (fun _ => firstRowSVD) !![1, 0] twoRows ?_ ?_
  · intro k hk r
    fin_cases r
    fin_cases k
    · simp at hk
    · rfl
  · intro k v hk
    fin_cases k
    · simpa using hk
    · simp at hk

end Transform

/-! ### Weights -/

section Weights

variable {K : Type} [Field K] {m nd N : ℕ} {H : Matrix (Fin m) (Fin nd) K}
  {A : Matrix (Fin nd) (Fin N) K}

/-- The perturbations of the members cancel. -/
lemma perturbations_mulVec_one (hN : (N : K) ≠ 0) : (perturbations A *ᵥ fun _ => 1) = 0 := by
  have h := ensembleMean_perturbations hN A
  rw [ensembleMean_eq] at h
  exact (smul_eq_zero.mp h).resolve_left (inv_ne_zero hN)

/-- Weights that are seen through the observed perturbations cancel. -/
lemma sum_observed_weights (hN : (N : K) ≠ 0) (z : Fin m → K) :
    ∑ j, ((H * perturbations A)ᵀ *ᵥ z) j = 0 := by
  have hone : ((H * perturbations A) *ᵥ fun _ => 1) = 0 := by
    rw [← mulVec_mulVec, perturbations_mulVec_one hN, mulVec_zero]
  calc ∑ j, ((H * perturbations A)ᵀ *ᵥ z) j
      = (fun _ => 1) ⬝ᵥ ((H * perturbations A)ᵀ *ᵥ z) := by simp [dotProduct]
    _ = 0 := by rw [dotProduct_mulVec, vecMul_transpose, hone, zero_dotProduct]

/-- Weights that cancel act on the perturbations alone. -/
lemma mulVec_eq_perturbations {w : Fin N → K} (hw : ∑ j, w j = 0) :
    A *ᵥ w = perturbations A *ᵥ w := by
  rw [perturbations_eq, sub_mulVec]
  funext i
  show _ = _ - ∑ j, ensembleMean A i * w j
  rw [← Finset.mul_sum, hw, mul_zero, sub_zero]

end Weights

/-! ### The estimate -/

section Estimate

variable {m nd N : ℕ}

lemma sigSquared_getD (s : SVD (Fin m) (Fin (min m N)) (Fin N) ℝ) (i : Fin (min m N)) :
    (sigSquared s).getD i 0 = s.sig i ^ 2 := by
  rw [sigSquared, List.getD_eq_getElem?_getD, List.getElem?_ofFn, dif_pos i.isLt]
  rfl

/-- The values between the left vectors in `X5`. -/
noncomputable def keptInverses (s : SVD (Fin m) (Fin (min m N)) (Fin N) ℝ)
    (i : Fin (min m N)) : ℝ :=
  (enkfSig (sigSquared s)).getD i 0

/-- The weights of the members in the increment, for the decomposition `s` and the
innovation `e`. -/
noncomputable def x5Weights (H : Matrix (Fin m) (Fin nd) ℝ) (A : Matrix (Fin nd) (Fin N) ℝ)
    (s : SVD (Fin m) (Fin (min m N)) (Fin N) ℝ) (e : Fin m → ℝ) : Fin N → ℝ :=
  (H * perturbations A)ᵀ *ᵥ (s.reassemble (keptInverses s) *ᵥ e)

/-- `X5` adds the same weights to every column of the identity. -/
lemma enkfX5_eq_weights (svd : Matrix (Fin m) (Fin N) ℝ → SVD (Fin m) (Fin (min m N)) (Fin N) ℝ)
    (H : Matrix (Fin m) (Fin nd) ℝ) (A : Matrix (Fin nd) (Fin N) ℝ) (huObs : Fin nd → Option ℝ) :
    enkfX5 svd H A huObs = (of fun i _ =>
      x5Weights H A (svd (H * perturbations A + H * perturbations A))
        ((H *ᵥ fun k => (huObs k).getD 0) - H *ᵥ ensembleMean A) i) + 1 := by
  set s := svd (H * perturbations A + H * perturbations A) with hs
  have hx1 : (of fun (k : Fin (min m N)) r => (enkfSig (sigSquared s)).getD k 0 * s.u r k) =
      diagonal (keptInverses s) * s.uᵀ := by
    ext k r
    rw [diagonal_mul]
    rfl
  ext i j
  rw [enkfX5, x5Weights, SVD.reassemble, ← mulVec_mulVec, ← mulVec_mulVec, mulVec_mulVec _ _ s.uᵀ,
    ← hx1]
  rfl

variable {obs : LinearObs nd m} {A : Matrix (Fin nd) (Fin N) ℝ}
  {svd : Matrix (Fin m) (Fin N) ℝ → SVD (Fin m) (Fin (min m N)) (Fin N) ℝ}

/-- What the parallel modes decompose: twice the observed perturbations. -/
noncomputable def haprimeEta (obs : LinearObs nd m) (A : Matrix (Fin nd) (Fin N) ℝ) :
    Matrix (Fin m) (Fin N) ℝ :=
  obs.observed A + obs.observed A

/-- The truncation keeps every non-zero singular value. -/
def KeepsNonzero (s : SVD (Fin m) (Fin (min m N)) (Fin N) ℝ) : Prop :=
  ∀ i, s.sig i ≠ 0 → keptInverses s i ≠ 0

/-- A singular value that is kept is inverted. -/
lemma KeepsNonzero.inverts {s : SVD (Fin m) (Fin (min m N)) (Fin N) ℝ} (h : KeepsNonzero s)
    (i : Fin (min m N)) (hi : s.sig i ≠ 0) : s.sig i ^ 2 * keptInverses s i = 1 := by
  have hkept := h i hi
  rw [keptInverses, enkfSig, invertLoop_getD] at hkept ⊢
  split at hkept
  · next hlt =>
    rw [if_pos hlt, sigSquared_getD]
    exact mul_one_div_cancel (pow_ne_zero 2 hi)
  · exact absurd rfl hkept

/-- **The estimate of the parallel modes**: the covariance of the observation errors does
not occur. -/
theorem mean_enkfX5 (hN : (N : ℝ) ≠ 0) {huObs : Fin nd → Option ℝ}
    (hd : (obs.h *ᵥ fun k => (huObs k).getD 0) = obs.observationVec) :
    ensembleMean (A * enkfX5 svd obs.h A huObs) =
      ensembleMean A + perturbations A *ᵥ ((obs.observed A)ᵀ *ᵥ
        ((svd (haprimeEta obs A)).reassemble (keptInverses (svd (haprimeEta obs A))) *ᵥ
          obs.departure A)) := by
  rw [enkfX5_eq_weights, hd, Matrix.mul_add, Matrix.mul_one, ensembleMean_add, ensembleMean_mul,
    ensembleMean_const hN, x5Weights, mulVec_eq_perturbations (sum_observed_weights hN _), add_comm]
  rfl

/-- The generalised inverse has the ensemble weights of `x` where the departure is four
times what is observed of `x`. -/
lemma reassemble_weights_iff (hsvd : IsSVD (haprimeEta obs A) (svd (haprimeEta obs A)))
    (hkeep : KeepsNonzero (svd (haprimeEta obs A))) (e x : Fin m → ℝ) :
    (obs.observed A)ᵀ *ᵥ ((svd (haprimeEta obs A)).reassemble
        (keptInverses (svd (haprimeEta obs A))) *ᵥ e) = (obs.observed A)ᵀ *ᵥ x ↔
      (obs.observed A)ᵀ *ᵥ e =
        (4 : ℝ) • (obs.observed A)ᵀ *ᵥ ((obs.observed A * (obs.observed A)ᵀ) *ᵥ x) := by
  have hdouble : haprimeEta obs A = (2 : ℝ) • obs.observed A := by rw [haprimeEta, two_smul]
  have hpinv := hsvd.pinv_weights_eq_iff hkeep.inverts e x
  rw [hdouble, transpose_smul, smul_mulVec, smul_mulVec, smul_mulVec, smul_mulVec,
    smul_right_inj two_ne_zero, smul_right_inj two_ne_zero, Matrix.smul_mul, Matrix.mul_smul,
    smul_smul, smul_mulVec, mulVec_smul, show (2 : ℝ) * 2 = 4 by norm_num] at hpinv
  rw [hdouble]
  exact hpinv

/-- The parallel and the serial estimate, in terms of the weighted departure. -/
lemma estimate_eq_iff_weighted (hN : 2 ≤ N) {huObs : Fin nd → Option ℝ}
    (hd : (obs.h *ᵥ fun k => (huObs k).getD 0) = obs.observationVec)
    (hsvd : IsSVD (haprimeEta obs A) (svd (haprimeEta obs A)))
    (hkeep : KeepsNonzero (svd (haprimeEta obs A))) :
    ensembleMean (A * enkfX5 svd obs.h A huObs) =
        ensembleMean (obs.enkfAnalysis (covModel A) 0 A) ↔
      ((N : ℝ) - 1) • (obs.observed A)ᵀ *ᵥ (obs.covObs *ᵥ obs.weighted A ((N : ℝ) - 1)) =
        (3 : ℝ) • (obs.observed A)ᵀ *ᵥ
          ((obs.observed A * (obs.observed A)ᵀ) *ᵥ obs.weighted A ((N : ℝ) - 1)) := by
  have hcast : (2 : ℝ) ≤ N := by exact_mod_cast hN
  have hN0 : (N : ℝ) ≠ 0 := by linarith
  have hk : 0 < (N : ℝ) - 1 := by linarith
  have hserial : ensembleMean (obs.enkfAnalysis (covModel A) 0 A) =
      ensembleMean A + obs.increment A ((N : ℝ) - 1) := by
    rw [LinearObs.mean_enkfAnalysis hN0, covModel, one_div, LinearObs.gain_mulVec hk]
  -- the departure is the weighted one, under `(N - 1) R` and under the observed spread
  have hdep : (obs.observed A)ᵀ *ᵥ obs.departure A =
      ((N : ℝ) - 1) • (obs.observed A)ᵀ *ᵥ (obs.covObs *ᵥ obs.weighted A ((N : ℝ) - 1)) +
        (obs.observed A)ᵀ *ᵥ
          ((obs.observed A * (obs.observed A)ᵀ) *ᵥ obs.weighted A ((N : ℝ) - 1)) := by
    rw [← mulVec_smul, ← mulVec_add, ← LinearObs.departure_eq obs A hk]
  have hinj := mulVec_transpose_inj obs.h (perturbations A)
    ((svd (haprimeEta obs A)).reassemble (keptInverses (svd (haprimeEta obs A))) *ᵥ
      obs.departure A) (obs.weighted A ((N : ℝ) - 1))
  -- the kept inverses solve for four times the observed spread
  rw [mean_enkfX5 hN0 hd, hserial, add_right_inj]
  calc _ ↔ (obs.observed A)ᵀ *ᵥ obs.departure A = (4 : ℝ) • (obs.observed A)ᵀ *ᵥ
        ((obs.observed A * (obs.observed A)ᵀ) *ᵥ obs.weighted A ((N : ℝ) - 1)) :=
        hinj.trans (reassemble_weights_iff hsvd hkeep _ _)
    _ ↔ _ := by rw [hdep, show (4 : ℝ) = 3 + 1 by norm_num, add_smul, one_smul, add_left_inj]

/-- **Parallel and serial estimate** agree if and only if the error covariance weighs the
serial innovation three times as much as the forecast covariance, seen through the
observed perturbations. -/
theorem estimate_eq_iff (obs : LinearObs nd m) (A : Matrix (Fin nd) (Fin N) ℝ) (hN : 2 ≤ N)
    {huObs : Fin nd → Option ℝ} (hd : (obs.h *ᵥ fun k => (huObs k).getD 0) = obs.observationVec)
    (hsvd : IsSVD (haprimeEta obs A) (svd (haprimeEta obs A)))
    (hkeep : KeepsNonzero (svd (haprimeEta obs A))) :
    ensembleMean (A * enkfX5 svd obs.h A huObs) =
        ensembleMean (obs.enkfAnalysis (covModel A) 0 A) ↔
      (obs.h * perturbations A)ᵀ *ᵥ (obs.covObs *ᵥ obs.innovationWeights A) =
        (3 : ℝ) • (obs.h * perturbations A)ᵀ *ᵥ
          ((obs.h * covModel A * obs.hᵀ) *ᵥ obs.innovationWeights A) := by
  have hcast : (2 : ℝ) ≤ N := by exact_mod_cast hN
  have hk : 0 < (N : ℝ) - 1 := by linarith
  have hcov : covModel A = ((N : ℝ) - 1)⁻¹ • (perturbations A * (perturbations A)ᵀ) := by
    rw [covModel, one_div]
  rw [estimate_eq_iff_weighted hN hd hsvd hkeep, LinearObs.innovationWeights_eq obs hk hcov, hcov,
    LinearObs.observed_covariance, mulVec_smul, mulVec_smul, mulVec_smul, smul_mulVec, smul_smul,
    mul_inv_cancel₀ hk.ne', one_smul]
  rfl

/-! ### One observed row -/

/-- One state of four members. -/
def spreadRow : Matrix (Fin 1) (Fin 4) ℤ := !![1, 1, -1, -1]

/-- The state is observed, with error variance `r`. -/
noncomputable def observeRow (r : ℝ) (hr : 0 < r) : LinearObs 1 1 :=
  ⟨1, fun _ => 1, r • 1, PosDef.one.smul hr⟩

/-- The decomposition of twice the perturbations. -/
noncomputable def spreadRowSVD : SVD (Fin 1) (Fin (min 1 4)) (Fin 4) ℝ where
  u _ _ := 1
  sig _ := (4 : ℤ)
  vt _ j := spreadRow 0 j / (2 : ℤ)

variable {r : ℝ} (hr : 0 < r)

lemma observed_spreadRow : (observeRow r hr).observed (ofInt spreadRow) = ofInt spreadRow := by
  rw [LinearObs.observed, perturbations_ofInt (by decide)]
  exact Matrix.one_mul _

lemma gram_spreadRow : ofInt spreadRow * (ofInt spreadRow)ᵀ = (4 : ℝ) • 1 := by
  have hgram : spreadRow * spreadRowᵀ = diagonal fun _ => 4 := by decide
  show ofInt spreadRow * ofInt spreadRowᵀ = _
  rw [ofInt_mul, hgram, ofInt_diagonal, ← diagonal_one, ← diagonal_smul]
  congr 1
  funext i
  norm_num

lemma isSVD_spreadRow : IsSVD (haprimeEta (observeRow r hr) (ofInt spreadRow)) spreadRowSVD := by
  have hsub : Subsingleton (Fin (min 1 4)) := inferInstanceAs (Subsingleton (Fin 1))
  -- the row has square length `4`, so its half is a unit vector
  have hrow : ∑ j, spreadRow 0 j * spreadRow 0 j = 4 := by decide
  refine ⟨?_, ?_, fun _ => by norm_num [spreadRowSVD], fun _ _ _ => le_rfl, ?_⟩
  · ext i j
    obtain rfl := Subsingleton.elim i j
    show ∑ k : Fin 1, (1 : ℝ) * 1 = (1 : Matrix _ _ ℝ) i i
    rw [Fin.sum_univ_one, Matrix.one_apply_eq, mul_one]
  · ext i j
    obtain rfl := Subsingleton.elim i j
    have hcast : ∑ j, (spreadRow 0 j : ℝ) * spreadRow 0 j = 4 := by exact_mod_cast hrow
    calc (spreadRowSVD.vt * spreadRowSVD.vtᵀ) i i
        = ∑ j, 1 / 4 * ((spreadRow 0 j : ℝ) * spreadRow 0 j) := by
          rw [Matrix.mul_apply]
          refine Finset.sum_congr rfl fun j _ => ?_
          show (spreadRow 0 j : ℝ) / (2 : ℤ) * (spreadRow 0 j / (2 : ℤ)) = _
          push_cast
          ring
      _ = (1 : Matrix _ _ ℝ) i i := by
          rw [← Finset.mul_sum, hcast, Matrix.one_apply_eq]
          norm_num
  · rw [haprimeEta, observed_spreadRow]
    ext i j
    obtain rfl := Subsingleton.elim 0 i
    calc (spreadRowSVD.u * diagonal spreadRowSVD.sig * spreadRowSVD.vt) 0 j
        = ∑ k : Fin 1, 1 * (4 : ℤ) * ((spreadRow 0 j : ℝ) / (2 : ℤ)) := by
          rw [Matrix.mul_apply]
          refine Finset.sum_congr rfl fun k _ => ?_
          rw [mul_diagonal]
          rfl
      _ = (spreadRow 0 j : ℝ) + spreadRow 0 j := by
          rw [Fin.sum_univ_one]
          push_cast
          ring

lemma keepsNonzero_spreadRow : KeepsNonzero spreadRowSVD := by
  intro i _
  have hsig : sigSquared spreadRowSVD = [16] := by
    show [((4 : ℤ) : ℝ) ^ 2] = [16]
    norm_num
  have hkept : enkfSig [(16 : ℝ)] = [1 / 16] := by
    rw [enkfSig, invertLoop, if_pos]
    · rfl
    · norm_num [quotientBelow]
  obtain rfl : i = (0 : Fin 1) := Subsingleton.elim (α := Fin 1) i 0
  rw [keptInverses, hsig, hkept]
  norm_num

/-- What the operator sees of a full observation. -/
lemma observeRow_obs : ((observeRow r hr).h *ᵥ fun k => ((fun _ => some 1) k : Option ℝ).getD 0) =
    (observeRow r hr).observationVec := Matrix.one_mulVec _

/-- Error variance `4`, three times the forecast variance: the estimates agree. -/
theorem estimate_eq_variance_four :
    ensembleMean (ofInt spreadRow * enkfX5 (fun _ => spreadRowSVD) (observeRow 4 four_pos).h
        (ofInt spreadRow) fun _ => some 1) =
      ensembleMean ((observeRow 4 four_pos).enkfAnalysis (covModel (ofInt spreadRow)) 0
        (ofInt spreadRow)) := by
  refine (estimate_eq_iff (observeRow 4 four_pos) (ofInt spreadRow) (by norm_num)
    (observeRow_obs four_pos) (isSVD_spreadRow four_pos) keepsNonzero_spreadRow).mpr ?_
  have hcov : (observeRow 4 four_pos).covObs = (3 : ℝ) • ((observeRow 4 four_pos).h *
      covModel (ofInt spreadRow) * (observeRow 4 four_pos).hᵀ) := by
    show (4 : ℝ) • 1 = (3 : ℝ) • (1 * covModel (ofInt spreadRow) * 1ᵀ)
    rw [covModel, perturbations_ofInt (by decide), gram_spreadRow, Matrix.one_mul, transpose_one,
      Matrix.mul_one, smul_smul, smul_smul]
    norm_num
  rw [hcov, smul_mulVec, mulVec_smul]

/-- Error variance `1`: they do not. -/
theorem estimate_ne_variance_one :
    ensembleMean (ofInt spreadRow * enkfX5 (fun _ => spreadRowSVD) (observeRow 1 one_pos).h
        (ofInt spreadRow) fun _ => some 1) ≠
      ensembleMean ((observeRow 1 one_pos).enkfAnalysis (covModel (ofInt spreadRow)) 0
        (ofInt spreadRow)) := by
  intro h
  rw [estimate_eq_iff_weighted (by norm_num) (observeRow_obs one_pos) (isSVD_spreadRow one_pos)
    keepsNonzero_spreadRow, observed_spreadRow, gram_spreadRow] at h
  have hdep := LinearObs.departure_eq (observeRow 1 one_pos) (ofInt spreadRow)
    (k := ((4 : ℕ) : ℝ) - 1) (by norm_num)
  rw [observed_spreadRow, gram_spreadRow] at hdep
  -- one equation makes the single weight `w 0` zero, the other `1/7`
  set w := (observeRow 1 one_pos).weighted (ofInt spreadRow) (((4 : ℕ) : ℝ) - 1)
  have hcov : (observeRow 1 one_pos).covObs *ᵥ w = w := by
    show ((1 : ℝ) • (1 : Matrix (Fin 1) (Fin 1) ℝ)) *ᵥ w = w
    rw [one_smul, one_mulVec]
  have hone : (observeRow 1 one_pos).departure (ofInt spreadRow) 0 = 1 := by
    rw [LinearObs.departure, ensembleMean_ofInt (by decide), mulVec_zero, sub_zero]
    rfl
  have hseen : ∀ v : Fin 1 → ℝ, ((ofInt spreadRow)ᵀ *ᵥ v) 0 = v 0 := by
    intro v
    simp [mulVec, dotProduct, ofInt, spreadRow]
  have hweight := congrFun h 0
  rw [hcov, smul_mulVec, one_mulVec, mulVec_smul] at hweight
  have hsum := congrFun hdep 0
  rw [hcov, smul_mulVec, one_mulVec, hone] at hsum
  simp only [Pi.smul_apply, Pi.add_apply, smul_eq_mul, hseen] at hweight hsum
  norm_num at hweight hsum
  linarith

end Estimate

end Icesee
