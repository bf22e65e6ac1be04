import Icesee.Analysis.Truncation

/-!
What a multiplication with `X5` does to an ensemble.

The columns of `X5 - 1` are one vector of weights that cancel, so every member moves by
the same increment and no perturbation changes (`enkfX5_effect`). Seen through the
operator the increment is a quarter of the innovation, projected onto the retained left
vectors (`mulVec_x5Weights`): the observed perturbations count twice in what is
decomposed.
-/

namespace Icesee

open Matrix Gain

variable {m nd N : ℕ} {H : Matrix (Fin m) (Fin nd) ℝ} {A : Matrix (Fin nd) (Fin N) ℝ}

/-! ### The retained left vectors -/

section Retained

variable {s : SVD (Fin m) (Fin (min m N)) (Fin N) ℝ}

/-- `nrsigma`. -/
noncomputable def nrsigma (s : SVD (Fin m) (Fin (min m N)) (Fin N) ℝ) : ℕ :=
  (invertLoop (quotientBelow (sigSquared s).sum) 0 (sigSquared s)).1

/-- The first `nrsigma` columns of `U`. -/
noncomputable def retained (s : SVD (Fin m) (Fin (min m N)) (Fin N) ℝ) :
    Matrix (Fin m) {i : Fin (min m N) // (i : ℕ) < nrsigma s} ℝ :=
  s.u.submatrix id Subtype.val

/-- The eigenvalues of a decomposition are sorted and not negative. -/
lemma sigSquared_sorted {M : Matrix (Fin m) (Fin N) ℝ} (h : IsSVD M s) :
    (sigSquared s).Pairwise (· ≥ ·) ∧ ∀ x ∈ sigSquared s, 0 ≤ x := by
  refine ⟨List.pairwise_ofFn.mpr fun i j hij => ?_, fun x hx => ?_⟩
  · exact pow_le_pow_left₀ (h.nonneg j) (h.antitone hij.le) 2
  · obtain ⟨i, rfl⟩ := List.mem_ofFn.mp hx
    exact sq_nonneg _

/-- An eigenvalue and the value that replaces it cancel if it is retained. -/
lemma sig_mul_keptInverses {M : Matrix (Fin m) (Fin N) ℝ} (h : IsSVD M s) (i : Fin (min m N)) :
    s.sig i ^ 2 * keptInverses s i = if (i : ℕ) < nrsigma s then 1 else 0 := by
  obtain ⟨hsorted, hnonneg⟩ := sigSquared_sorted h
  rw [keptInverses, enkfSig, invertLoop_getD, sigSquared_getD]
  split_ifs with hi hlt hlt
  · have hpos := invertLoop_pos (zero_add _) hsorted hnonneg hi
    rw [sigSquared_getD] at hpos
    exact mul_one_div_cancel hpos.ne'
  · exact absurd hi hlt
  · exact absurd hlt hi
  · exact mul_zero _

/-- The indicator of the retained vectors between the left vectors is their projection. -/
lemma reassemble_indicator : (s.reassemble fun i => if (i : ℕ) < nrsigma s then 1 else 0) =
    retained s * (retained s)ᵀ := by
  ext i j
  rw [SVD.reassemble, Matrix.mul_apply, Matrix.mul_apply]
  calc _ = ∑ k : Fin (min m N), if (k : ℕ) < nrsigma s then s.u i k * s.u j k else 0 := by
        refine Finset.sum_congr rfl fun k _ => ?_
        rw [mul_diagonal, transpose_apply, mul_ite, mul_one, mul_zero, ite_mul, zero_mul]
    _ = ∑ k : {k : Fin (min m N) // (k : ℕ) < nrsigma s}, s.u i k * s.u j k := by
        rw [← Finset.sum_filter]
        exact Finset.sum_subtype _ (fun k => by rw [Finset.mem_filter_univ]) _

end Retained

/-! ### The increment -/

/-- **The increment in the observations**: a quarter of the innovation, projected. -/
lemma mulVec_x5Weights {s : SVD (Fin m) (Fin (min m N)) (Fin N) ℝ}
    (h : IsSVD (H * perturbations A + H * perturbations A) s) (e : Fin m → ℝ) :
    (H * perturbations A) *ᵥ x5Weights H A s e =
      (1 / 4 : ℝ) • ((retained s * (retained s)ᵀ) *ᵥ e) := by
  have hgram : (4 : ℝ) • (H * perturbations A * (H * perturbations A)ᵀ) =
      s.reassemble fun i => s.sig i ^ 2 := by
    rw [← h.mul_transpose, ← two_smul ℝ (H * perturbations A), transpose_smul, Matrix.smul_mul,
      Matrix.mul_smul, smul_smul, show (2 : ℝ) * 2 = 4 by norm_num]
  have hproj : (4 : ℝ) • (H * perturbations A * (H * perturbations A)ᵀ) *
      s.reassemble (keptInverses s) = retained s * (retained s)ᵀ := by
    rw [hgram, h.reassemble_mul, ← reassemble_indicator]
    congr 1
    funext i
    exact sig_mul_keptInverses h i
  rw [x5Weights, mulVec_mulVec, mulVec_mulVec, ← hproj, Matrix.smul_mul, smul_mulVec, smul_smul,
    show (1 / 4 : ℝ) * 4 = 1 by norm_num, one_smul]

/-- A shift of all members leaves the perturbations alone. -/
lemma perturbations_add_const (hN : (N : ℝ) ≠ 0) (x : Fin nd → ℝ) :
    perturbations (A + of fun i _ => x i) = perturbations A := by
  ext i j
  show A i j + x i - ensembleMean (A + of fun i _ => x i) i = A i j - ensembleMean A i
  rw [ensembleMean_add, ensembleMean_const hN, Pi.add_apply]
  ring

/-- `y_i = np.sum(X5, axis=1)` and `(1/Nens)*(ensemble_vec @ y_i)`, the mean of the analysis
in the partial driver. -/
noncomputable def analysisMean (A : Matrix (Fin nd) (Fin N) ℝ) (x5 : Matrix (Fin N) (Fin N) ℝ) :
    Fin nd → ℝ :=
  (1 / (N : ℝ)) • A *ᵥ fun i => ∑ j, x5 i j

/-- The driver computes the mean of the members after the update. -/
lemma analysisMean_eq (x5 : Matrix (Fin N) (Fin N) ℝ) :
    analysisMean A x5 = ensembleMean (A * x5) := by
  have hrow : (fun i => ∑ j, x5 i j) = x5 *ᵥ fun _ => 1 := by
    funext i
    simp [mulVec, dotProduct]
  rw [analysisMean, ensembleMean_eq, hrow, mulVec_mulVec, one_div]

/-- The retained vectors are those of the shortest prefix of eigenvalues that reaches 99.9
percent of their sum. -/
lemma isShortestPrefix_nrsigma {M : Matrix (Fin m) (Fin N) ℝ}
    {s : SVD (Fin m) (Fin (min m N)) (Fin N) ℝ} (h : IsSVD M s) :
    IsShortestPrefix (sigSquared s) (nrsigma s) := by
  obtain ⟨-, hnonneg⟩ := sigSquared_sorted h
  rcases (List.sum_nonneg hnonneg).eq_or_lt' with hzero | hpos
  · -- the test is false at once, and nothing has to be reached
    have hnone : nrsigma s = 0 := by
      rw [nrsigma, hzero]
      cases sigSquared s with
      | nil => rfl
      | cons a rest => simp [invertLoop, quotientBelow]
    rw [hnone]
    exact ⟨Nat.zero_le _, by simp [hzero], fun k hk => absurd hk (Nat.not_lt_zero k)⟩
  · exact isShortestPrefix_invertLoop hnonneg hpos

/-- What an `X5` does to the ensemble `A`, with the weights `w`, the innovation `e` and the
decomposition `s`. -/
structure X5Effect (H : Matrix (Fin m) (Fin nd) ℝ) (A : Matrix (Fin nd) (Fin N) ℝ)
    (s : SVD (Fin m) (Fin (min m N)) (Fin N) ℝ) (e : Fin m → ℝ) (x5 : Matrix (Fin N) (Fin N) ℝ)
    (w : Fin N → ℝ) : Prop where
  eq_weights : x5 = 1 + vecMulVec w fun _ => 1
  sum_weights : ∑ i, w i = 0
  sum_column : ∀ j, ∑ i, x5 i j = 1
  member : ∀ i j, (A * x5) i j = A i j + (A *ᵥ w) i
  perturbations : perturbations (A * x5) = perturbations A
  mean : analysisMean A x5 = ensembleMean A + A *ᵥ w
  shortest : IsShortestPrefix (sigSquared s) (nrsigma s)
  observed : H *ᵥ (A *ᵥ w) = (1 / 4 : ℝ) • ((retained s * (retained s)ᵀ) *ᵥ e)

/-- **What the update does**: every member moves by `A *ᵥ w`, with weights that cancel, and
the operator sees a quarter of the innovation of this move, projected onto the vectors of the
shortest prefix that reaches 99.9 percent. -/
theorem enkfX5_effect (hN : 0 < N)
    (svd : Matrix (Fin m) (Fin N) ℝ → SVD (Fin m) (Fin (min m N)) (Fin N) ℝ)
    (hsvd : IsSVD (H * perturbations A + H * perturbations A)
      (svd (H * perturbations A + H * perturbations A))) (huObs : Fin nd → Option ℝ) :
    ∃ w, X5Effect H A (svd (H * perturbations A + H * perturbations A))
      ((H *ᵥ fun k => (huObs k).getD 0) - H *ᵥ ensembleMean A) (enkfX5 svd H A huObs) w := by
  have hN0 : (N : ℝ) ≠ 0 := Nat.cast_ne_zero.mpr hN.ne'
  set s := svd (H * perturbations A + H * perturbations A)
  set e := (H *ᵥ fun k => (huObs k).getD 0) - H *ᵥ ensembleMean A
  have hsum : ∑ i, x5Weights H A s e i = 0 := sum_observed_weights hN0 _
  -- `X5` adds one vector of weights to every column
  have hx5 : enkfX5 svd H A huObs = (of fun i _ => x5Weights H A s e i) + 1 :=
    enkfX5_eq_weights svd H A huObs
  have hmul : A * enkfX5 svd H A huObs = A + of fun i _ => (A *ᵥ x5Weights H A s e) i := by
    rw [hx5, Matrix.mul_add, Matrix.mul_one, add_comm]
    rfl
  refine ⟨x5Weights H A s e, ?_, hsum, fun j => ?_, fun i j => ?_, ?_, ?_,
    isShortestPrefix_nrsigma hsvd, ?_⟩
  · rw [hx5, add_comm]
    ext i j
    simp [vecMulVec_apply]
  · simp [hx5, Finset.sum_add_distrib, hsum, Matrix.one_apply]
  · rw [hmul]
    rfl
  · rw [hmul, perturbations_add_const hN0]
  · rw [analysisMean_eq, hmul, ensembleMean_add, ensembleMean_const hN0]
  · rw [mulVec_eq_perturbations hsum, mulVec_mulVec, mulVec_x5Weights hsvd]

/-- The spread row: one retained vector, and an increment of a quarter. -/
theorem enkfX5_effect_spreadRow : ∃ w, X5Effect 1 (ofInt spreadRow) spreadRowSVD
    (((1 : Matrix (Fin 1) (Fin 1) ℝ) *ᵥ fun _ => (some (1 : ℝ)).getD 0) -
      (1 : Matrix (Fin 1) (Fin 1) ℝ) *ᵥ ensembleMean (ofInt spreadRow))
    (enkfX5 (fun _ => spreadRowSVD) 1 (ofInt spreadRow) fun _ => some 1) w :=
  enkfX5_effect (Nat.succ_pos 3) (fun _ => spreadRowSVD) (isSVD_spreadRow (r := 1) one_pos)
    fun _ => some 1

end Icesee
