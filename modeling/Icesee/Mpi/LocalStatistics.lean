import Mathlib.Algebra.BigOperators.Field
import Mathlib.Algebra.BigOperators.WithTop
import Mathlib.Data.PNat.Basic
import Icesee.Analysis.X5Inputs
import Icesee.Lib.Gain

/-!
The analysis methods of the `ParallelManager` that reduce statistics of the local members.

Every rank has some of the members and computes the mean, the covariance or the gain of
these alone, each with the size of its own part; `Allreduce` adds them up.
`localStatistics` says when the sums are the statistics of all members: for the means the
sizes of the parts must be uncorrelated with their means, and with more than one rank the
covariances and the gains add up only where they vanish.
-/

namespace Icesee

open Matrix Gain

/-! ### The methods -/

section Methods

variable {K : Type} [Field K] [DecidableEq K] {ι : Type} [Fintype ι] {d m : ℕ}

/-- A quotient of floats; `⊤` stands for `nan` and `inf`. -/
def floatDiv (x y : K) : WithTop K := if y = 0 then ⊤ else (x / y : K)

/-- `np.mean(ensemble, axis=1)`. -/
def meanOver (ensemble : Matrix (Fin d) ι K) : Fin d → K :=
  fun i => (∑ k, ensemble i k) / (Fintype.card ι : K)

/-- The covariance of the members in the rows, around a given mean. -/
def centeredCovariance (ensemble : Matrix ι (Fin d) K) (mean : Fin d → K) :
    Matrix (Fin d) (Fin d) (WithTop K) :=
  let centered := ensemble - of fun _ => mean
  (centeredᵀ * centered).map fun x => floatDiv x ((Fintype.card ι : K) - 1)

/-- The gain of the anomalies in the rows. A covariance of one member is not a number, and
then no entry of the gain is one. -/
noncomputable def anomalyGain (ensemble : Matrix ι (Fin d) ℝ) (obsCov : Matrix (Fin m) (Fin m) ℝ)
    (obsOp : Matrix (Fin m) (Fin d) ℝ) : Matrix (Fin d) (Fin m) (WithTop ℝ) :=
  let cov := ((Fintype.card ι : ℝ) - 1)⁻¹ • (ensembleᵀ * ensemble)
  (cov * obsOpᵀ * (obsOp * cov * obsOpᵀ + obsCov)⁻¹).map fun x =>
    if (Fintype.card ι : ℝ) - 1 = 0 then ⊤ else (x : WithTop ℝ)

variable {p : ℕ+} (n : Fin p → ℕ+)

/-- `compute_mean_from_local_matrix`, of the members in the columns. -/
def computeMeanFromLocalMatrix (ensemble : ∀ rank, Matrix (Fin d) (Fin (n rank)) K) : Fin d → K :=
  let globalMean := allreduce fun rank => meanOver (ensemble rank)
  fun i => globalMean i / (p : ℕ)

/-- `compute_covariance`. -/
def computeCovariance (ensemble : ∀ rank, Matrix (Fin (n rank)) (Fin d) K) (mean : Fin d → K) :
    Matrix (Fin d) (Fin d) (WithTop K) :=
  allreduce fun rank => centeredCovariance (ensemble rank) mean

/-- `compute_kalman_gain`. -/
noncomputable def computeKalmanGain (ensemble : ∀ rank, Matrix (Fin (n rank)) (Fin d) ℝ)
    (obsCov : Matrix (Fin m) (Fin m) ℝ) (obsOp : Matrix (Fin m) (Fin d) ℝ) :
    Matrix (Fin d) (Fin m) (WithTop ℝ) :=
  allreduce fun rank => anomalyGain (ensemble rank) obsCov obsOp

end Methods

/-- A covariance of observation errors. -/
structure ObsCovariance (m : ℕ) where
  cov : Matrix (Fin m) (Fin m) ℝ
  posDef : cov.PosDef

variable {p : ℕ+} {d m : ℕ} {n : Fin p → ℕ+} (E : ∀ rank, Matrix (Fin d) (Fin (n rank)) ℝ)

/-! ### The number of members -/

lemma card_members (n : Fin p → ℕ+) :
    (Fintype.card (Σ rank, Fin (n rank)) : ℝ) = ∑ rank, ((n rank : ℕ) : ℝ) := by
  rw [Fintype.card_sigma]
  simp only [Fintype.card_fin, Nat.cast_sum]

lemma size_pos (rank : Fin p) : (0 : ℝ) < (n rank : ℕ) := Nat.cast_pos.mpr (n rank).pos

/-- With two ranks, no part has all members. -/
lemma size_lt_members (n : Fin p → ℕ+) (hp : p ≠ 1) (rank : Fin p) :
    ((n rank : ℕ) : ℝ) < ∑ rank, ((n rank : ℕ) : ℝ) := by
  have hlt : 1 < (p : ℕ) := lt_of_le_of_ne p.pos fun h => hp (PNat.coe_eq_one_iff.mp h.symm)
  obtain ⟨s, hs⟩ := Fintype.exists_ne_of_one_lt_card (by rwa [Fintype.card_fin]) rank
  exact Finset.single_lt_sum (f := fun r => ((n r : ℕ) : ℝ)) hs (Finset.mem_univ rank)
    (Finset.mem_univ s) (size_pos s) fun _ _ _ => (size_pos _).le

lemma one_lt_members (n : Fin p → ℕ+) (hp : p ≠ 1) :
    (0 : ℝ) < ∑ rank, ((n rank : ℕ) : ℝ) - 1 := by
  have hone : (1 : ℝ) ≤ (n ⟨0, p.pos⟩ : ℕ) := Nat.one_le_cast.mpr (n ⟨0, p.pos⟩).pos
  exact sub_pos.mpr (hone.trans_lt (size_lt_members n hp ⟨0, p.pos⟩))

lemma size_sub_one_eq_zero {k : ℕ+} : ((k : ℕ) : ℝ) - 1 = 0 ↔ ¬2 ≤ k := by
  rw [sub_eq_zero, Nat.cast_eq_one, PNat.coe_eq_one_iff, ← PNat.coe_le_coe, PNat.val_ofNat,
    ← PNat.coe_eq_one_iff]
  have := k.pos
  omega

lemma size_sub_one_pos {k : ℕ+} (hk : 2 ≤ k) : 0 < ((k : ℕ) : ℝ) - 1 := by
  have htwo : 2 ≤ (k : ℕ) := PNat.coe_le_coe _ _ |>.mpr hk
  exact sub_pos.mpr (Nat.one_lt_cast.mpr htwo)

/-! ### The mean -/

/-- **The mean**: right if the sizes of the parts and their means are uncorrelated. -/
lemma computeMeanFromLocalMatrix_eq_iff : computeMeanFromLocalMatrix n E = meanOver (stack E) ↔
    ∀ i, ∑ rank, ((p : ℕ) * (n rank : ℕ) - ∑ s, ((n s : ℕ) : ℝ)) * meanOver (E rank) i = 0 := by
  have hpart : ∀ rank i, ((n rank : ℕ) : ℝ) * meanOver (E rank) i = ∑ k, E rank i k := by
    intro rank i
    rw [meanOver, Fintype.card_fin, mul_div_cancel₀ _ (size_pos rank).ne']
  have hall : ∀ i, meanOver (stack E) i =
      (∑ rank, ((n rank : ℕ) : ℝ) * meanOver (E rank) i) / ∑ rank, ((n rank : ℕ) : ℝ) := by
    intro i
    rw [meanOver, card_members, Fintype.sum_sigma]
    simp only [hpart]
    rfl
  have hp : ((p : ℕ) : ℝ) ≠ 0 := Nat.cast_ne_zero.mpr p.ne_zero
  have hN : ∑ rank, ((n rank : ℕ) : ℝ) ≠ 0 :=
    (Finset.sum_pos (fun _ _ => size_pos _) ⟨⟨0, p.pos⟩, Finset.mem_univ _⟩).ne'
  rw [funext_iff]
  refine forall_congr' fun i => ?_
  have hsum : computeMeanFromLocalMatrix n E i = (∑ rank, meanOver (E rank) i) / (p : ℕ) :=
    congrArg (· / ((p : ℕ) : ℝ)) (Finset.sum_apply i _ _)
  rw [hall, hsum, div_eq_div_iff hp hN]
  simp only [sub_mul, Finset.sum_sub_distrib, sub_eq_zero, mul_assoc, ← Finset.mul_sum]
  rw [mul_comm, mul_comm _ ((p : ℕ) : ℝ)]
  exact eq_comm

lemma meanOver_const {ι : Type} [Fintype ι] [Nonempty ι] (c : ℝ) (i : Fin d) :
    meanOver (of fun _ (_ : ι) => c) i = c := by
  rw [meanOver]
  simp only [of_apply, Finset.sum_const, Finset.card_univ, nsmul_eq_mul]
  exact mul_div_cancel_left₀ c (Nat.cast_ne_zero.mpr Fintype.card_ne_zero)

/-- Only equal parts have the right mean whatever the members are. -/
theorem computeMeanFromLocalMatrix_forall_iff (n : Fin p → ℕ+) :
    (∀ E : ∀ rank, Matrix (Fin d) (Fin (n rank)) ℝ,
      computeMeanFromLocalMatrix n E = meanOver (stack E)) ↔
    d = 0 ∨ ∀ rank, (p : ℕ) * n rank = ∑ s, (n s : ℕ) := by
  simp only [computeMeanFromLocalMatrix_eq_iff]
  have hcast : ∀ rank, ((p : ℕ) * (n rank : ℕ) - ∑ s, ((n s : ℕ) : ℝ) = 0 ↔
      (p : ℕ) * n rank = ∑ s, (n s : ℕ)) := by
    intro rank
    rw [sub_eq_zero]
    norm_cast
  constructor
  · refine fun h => d.eq_zero_or_pos.imp_right fun hd rank => (hcast rank).mp ?_
    -- the members of one part are `1`, and all others are `0`
    have hsum := h (fun r => of fun _ _ => if r = rank then 1 else 0) ⟨0, hd⟩
    simp only [meanOver_const] at hsum
    rwa [Finset.sum_eq_single rank (fun r _ hne => by rw [if_neg hne, mul_zero])
      (fun h => absurd (Finset.mem_univ rank) h), if_pos rfl, mul_one] at hsum
  · rintro (rfl | hequal) E i
    · exact i.elim0
    · exact Finset.sum_eq_zero fun rank _ => by
        rw [(hcast rank).mpr (hequal rank), zero_mul]

/-! ### The covariance -/

/-- With one rank, a sum over the ranks has one term. -/
lemma sum_one_rank {α : Type} [AddCommMonoid α] (hp : p = 1) (x : Fin p → α) :
    ∑ rank, x rank = x ⟨0, p.pos⟩ := by
  refine Fintype.sum_eq_single _ fun rank hne => absurd (Fin.ext ?_) hne
  have hlt : (rank : ℕ) < 1 := PNat.coe_eq_one_iff.mpr hp ▸ rank.2
  exact Nat.lt_one_iff.mp hlt

lemma floatDiv_of_ne {x y : ℝ} (hy : y ≠ 0) : floatDiv x y = (x / y : ℝ) := if_neg hy

lemma floatDiv_eq_top {x y : ℝ} : floatDiv x y = ⊤ ↔ y = 0 := by
  rw [floatDiv]
  split_ifs with hy
  · exact iff_of_true rfl hy
  · exact iff_of_false (WithTop.coe_ne_top) hy

/-- The products of the deviations of the members in the columns. -/
def deviations {ι : Type} [Fintype ι] (A : Matrix (Fin d) ι ℝ) (mean : Fin d → ℝ)
    (i j : Fin d) : ℝ := ∑ k, (A i k - mean i) * (A j k - mean j)

lemma centeredCovariance_apply {ι : Type} [Fintype ι] (A : Matrix (Fin d) ι ℝ) (mean : Fin d → ℝ)
    (i j : Fin d) : centeredCovariance Aᵀ mean i j =
      floatDiv (deviations A mean i j) ((Fintype.card ι : ℝ) - 1) := rfl

lemma deviations_self_nonneg {ι : Type} [Fintype ι] (A : Matrix (Fin d) ι ℝ) (mean : Fin d → ℝ)
    (i : Fin d) : 0 ≤ deviations A mean i i := Finset.sum_nonneg fun _ _ => mul_self_nonneg _

lemma deviations_self_eq_zero {ι : Type} [Fintype ι] {A : Matrix (Fin d) ι ℝ} {mean : Fin d → ℝ}
    {i : Fin d} (h : deviations A mean i i = 0) (k : ι) : A i k = mean i := by
  have hzero := (Finset.sum_eq_zero_iff_of_nonneg fun k _ => mul_self_nonneg _).mp h k
    (Finset.mem_univ k)
  exact sub_eq_zero.mp (mul_self_eq_zero.mp hzero)

lemma computeCovariance_apply (mean : Fin d → ℝ) (i j : Fin d) :
    computeCovariance n (fun rank => (E rank)ᵀ) mean i j =
      ∑ rank, floatDiv (deviations (E rank) mean i j) ((n rank : ℕ) - 1) := by
  rw [computeCovariance, allreduce, Matrix.sum_apply]
  simp only [centeredCovariance_apply, Fintype.card_fin]

/-- A part with one member leaves no number in the covariance. -/
lemma computeCovariance_apply_eq_top {rank : Fin p} (hlt : ¬2 ≤ n rank) (mean : Fin d → ℝ)
    (i j : Fin d) : computeCovariance n (fun rank => (E rank)ᵀ) mean i j = ⊤ := by
  rw [computeCovariance_apply]
  exact WithTop.sum_eq_top.mpr
    ⟨rank, Finset.mem_univ rank, floatDiv_eq_top.mpr (size_sub_one_eq_zero.mpr hlt)⟩

lemma centeredCovariance_stack (mean : Fin d → ℝ) (i j : Fin d) :
    centeredCovariance (stack E)ᵀ mean i j =
      floatDiv (∑ rank, deviations (E rank) mean i j) (∑ rank, ((n rank : ℕ) : ℝ) - 1) := by
  rw [centeredCovariance_apply, card_members, deviations, Fintype.sum_sigma]
  rfl

/-- **The covariance**: right with one rank, or if there are no deviations. -/
lemma computeCovariance_eq_iff (mean : Fin d → ℝ) :
    computeCovariance n (fun rank => (E rank)ᵀ) mean = centeredCovariance (stack E)ᵀ mean ↔
      p = 1 ∨ (d = 0 ∨ ∀ rank, 2 ≤ n rank) ∧ ∀ rank i k, E rank i k = mean i := by
  rw [← Matrix.ext_iff]
  simp only [centeredCovariance_stack]
  constructor
  · refine fun h => or_iff_not_imp_left.mpr fun hp => ?_
    have hN := one_lt_members n hp
    -- one entry is enough to see that every part has two members
    have hsize : ∀ _ : Fin d, ∀ rank, 2 ≤ n rank := by
      intro i rank
      by_contra hlt
      have htop := computeCovariance_apply_eq_top E hlt mean i i
      exact hN.ne' (floatDiv_eq_top.mp ((h i i).symm.trans htop))
    simp only [computeCovariance_apply] at h
    refine ⟨d.eq_zero_or_pos.imp_right fun hd => hsize ⟨0, hd⟩, fun rank i => ?_⟩
    have hpos : ∀ r, 0 < ((n r : ℕ) : ℝ) - 1 := fun r => size_sub_one_pos (hsize i r)
    have hdiag := h i i
    simp only [floatDiv_of_ne hN.ne', floatDiv_of_ne (hpos _).ne'] at hdiag
    rw [← WithTop.coe_sum, WithTop.coe_inj, Finset.sum_div, ← sub_eq_zero,
      ← Finset.sum_sub_distrib] at hdiag
    have hfactor : ∀ r, 0 < (((n r : ℕ) : ℝ) - 1)⁻¹ - (∑ rank, ((n rank : ℕ) : ℝ) - 1)⁻¹ :=
      fun r => sub_pos.mpr
        (inv_strictAnti₀ (hpos r) (sub_lt_sub_right (size_lt_members n hp r) 1))
    have hterm : ∀ r, deviations (E r) mean i i / ((n r : ℕ) - 1) -
        deviations (E r) mean i i / (∑ rank, ((n rank : ℕ) : ℝ) - 1) =
          deviations (E r) mean i i *
            ((((n r : ℕ) : ℝ) - 1)⁻¹ - (∑ rank, ((n rank : ℕ) : ℝ) - 1)⁻¹) := by
      intro r
      rw [mul_sub, div_eq_mul_inv, div_eq_mul_inv]
    simp only [hterm] at hdiag
    have hzero := (Finset.sum_eq_zero_iff_of_nonneg fun r _ =>
      mul_nonneg (deviations_self_nonneg (E r) mean i) (hfactor r).le).mp hdiag rank
        (Finset.mem_univ rank)
    exact deviations_self_eq_zero ((mul_eq_zero_iff_right (hfactor rank).ne').mp hzero)
  · intro h i j
    rw [computeCovariance_apply]
    rcases eq_or_ne p 1 with hp | hp
    · simp only [sum_one_rank hp]
    · obtain ⟨hd | hsize, hmean⟩ := h.resolve_left hp
      · subst hd
        exact i.elim0
      · have hzero : ∀ rank, deviations (E rank) mean i j = 0 := fun rank =>
          Finset.sum_eq_zero fun k _ => by rw [hmean rank i k, sub_self, zero_mul]
        simp only [hzero, Finset.sum_const_zero, floatDiv_of_ne (one_lt_members n hp).ne',
          floatDiv_of_ne (size_sub_one_pos (hsize _)).ne', zero_div, ← WithTop.coe_sum]

/-! ### The gain -/

lemma anomalyGain_eq {ι : Type} [Fintype ι] (A : Matrix (Fin d) ι ℝ) (R : ObsCovariance m)
    (obsOp : Matrix (Fin m) (Fin d) ℝ) (hpos : 0 < (Fintype.card ι : ℝ) - 1) :
    anomalyGain Aᵀ R.cov obsOp =
      (A * (obsOp * A)ᵀ * (innovation R.cov (obsOp * A) ((Fintype.card ι : ℝ) - 1))⁻¹).map
        ((↑) : ℝ → WithTop ℝ) := by
  rw [anomalyGain]
  simp only [if_neg hpos.ne']
  generalize (Fintype.card ι : ℝ) - 1 = c at hpos
  have hinn : obsOp * (c⁻¹ • (A * Aᵀ)) * obsOpᵀ + R.cov =
      c⁻¹ • innovation R.cov (obsOp * A) c := by
    rw [innovation, smul_add, smul_smul, inv_mul_cancel₀ hpos.ne', one_smul, transpose_mul,
      Matrix.mul_smul, Matrix.smul_mul, add_comm]
    simp only [Matrix.mul_assoc]
  rw [transpose_transpose, hinn, inv_smul_innovation R.posDef hpos, Matrix.smul_mul,
    Matrix.smul_mul, Matrix.mul_smul, smul_smul, inv_mul_cancel₀ hpos.ne', one_smul,
    transpose_mul]
  simp only [Matrix.mul_assoc]

/-- A gain has no number in it if it comes from one member. -/
lemma anomalyGain_apply_of_eq_zero {ι : Type} [Fintype ι] (A : Matrix ι (Fin d) ℝ)
    (obsCov : Matrix (Fin m) (Fin m) ℝ) (obsOp : Matrix (Fin m) (Fin d) ℝ)
    (h : (Fintype.card ι : ℝ) - 1 = 0) (i : Fin d) (j : Fin m) :
    anomalyGain A obsCov obsOp i j = ⊤ := if_pos h

/-- With two members in every part the gain is the sum of the local ones. -/
lemma computeKalmanGain_of_two_le (R : ObsCovariance m) (obsOp : Matrix (Fin m) (Fin d) ℝ)
    (hsize : ∀ rank, 2 ≤ n rank) : computeKalmanGain n (fun rank => (E rank)ᵀ) R.cov obsOp =
      (∑ rank, E rank * (obsOp * E rank)ᵀ *
        (innovation R.cov (obsOp * E rank) ((n rank : ℕ) - 1))⁻¹).map ((↑) : ℝ → WithTop ℝ) := by
  have hlocal : ∀ rank, anomalyGain (E rank)ᵀ R.cov obsOp = (E rank * (obsOp * E rank)ᵀ *
      (innovation R.cov (obsOp * E rank) ((n rank : ℕ) - 1))⁻¹).map ((↑) : ℝ → WithTop ℝ) := by
    intro rank
    rw [anomalyGain_eq (E rank) R obsOp
      (by rw [Fintype.card_fin]; exact size_sub_one_pos (hsize rank)), Fintype.card_fin]
  ext i j
  rw [computeKalmanGain, allreduce, Matrix.sum_apply, map_apply, Matrix.sum_apply,
    WithTop.coe_sum]
  simp only [hlocal, map_apply]

/-- A part with one member leaves no number in the gain. -/
lemma computeKalmanGain_apply_eq_top {rank : Fin p} (hlt : ¬2 ≤ n rank)
    (obsCov : Matrix (Fin m) (Fin m) ℝ) (obsOp : Matrix (Fin m) (Fin d) ℝ) (i : Fin d)
    (j : Fin m) : computeKalmanGain n (fun rank => (E rank)ᵀ) obsCov obsOp i j = ⊤ := by
  rw [computeKalmanGain, allreduce, Matrix.sum_apply]
  refine WithTop.sum_eq_top.mpr ⟨rank, Finset.mem_univ rank, ?_⟩
  refine anomalyGain_apply_of_eq_zero _ _ _ ?_ _ _
  rw [Fintype.card_fin]
  exact size_sub_one_eq_zero.mpr hlt

/-- **The gain**: right with one rank, or if nothing is observed of the anomalies. -/
lemma computeKalmanGain_eq_iff (R : ObsCovariance m) (obsOp : Matrix (Fin m) (Fin d) ℝ) :
    computeKalmanGain n (fun rank => (E rank)ᵀ) R.cov obsOp =
        anomalyGain (stack E)ᵀ R.cov obsOp ↔
      p = 1 ∨ (d = 0 ∨ m = 0 ∨ ∀ rank, 2 ≤ n rank) ∧ ∀ rank, obsOp * E rank = 0 := by
  rcases eq_or_ne p 1 with hp | hp
  · refine iff_of_true ?_ (.inl hp)
    have hcard := (card_members n).trans (sum_one_rank hp fun rank => ((n rank : ℕ) : ℝ))
    have hgram := (stack_mul_transpose E E).trans (sum_one_rank hp fun rank => E rank * (E rank)ᵀ)
    simp only [computeKalmanGain, allreduce, sum_one_rank hp, anomalyGain, transpose_transpose,
      hcard, hgram, Fintype.card_fin]
  rw [or_iff_right hp]
  -- with several ranks the sums over the ranks have other denominators than the one gain
  have hN : 0 < (Fintype.card (Σ rank, Fin (n rank)) : ℝ) - 1 :=
    (card_members n).symm ▸ one_lt_members n hp
  rw [anomalyGain_eq (stack E) R obsOp hN]
  rcases d.eq_zero_or_pos with hd | hd
  · subst hd
    refine iff_of_true (Matrix.ext fun i => i.elim0) ⟨.inl rfl, fun rank => ?_⟩
    ext i k
    rw [mul_apply, Finset.univ_eq_empty, Finset.sum_empty, Matrix.zero_apply]
  rcases m.eq_zero_or_pos with hm | hm
  · subst hm
    exact iff_of_true (Matrix.ext fun _ j => j.elim0)
      ⟨.inr (.inl rfl), fun rank => Matrix.ext fun j => j.elim0⟩
  rw [or_iff_right hd.ne', or_iff_right hm.ne']
  by_cases hsize : ∀ rank, 2 ≤ n rank
  · have hpos : ∀ r, 0 < ((n r : ℕ) : ℝ) - 1 := fun r => size_sub_one_pos (hsize r)
    have hlt : ∀ r, ((n r : ℕ) : ℝ) - 1 < (Fintype.card (Σ rank, Fin (n rank)) : ℝ) - 1 :=
      fun r => (card_members n).symm ▸ sub_lt_sub_right (size_lt_members n hp r) 1
    rw [computeKalmanGain_of_two_le E R obsOp hsize,
      (map_injective WithTop.coe_injective).eq_iff, sum_gain_eq_iff obsOp E R.posDef hpos hlt,
      and_iff_right hsize]
  · refine iff_of_false (fun h => ?_) fun h => hsize h.1
    -- a rank with a single member divides by zero
    obtain ⟨rank, hrank⟩ := not_forall.mp hsize
    have hentry := congrFun (congrFun h ⟨0, hd⟩) ⟨0, hm⟩
    rw [computeKalmanGain_apply_eq_top E hrank, map_apply] at hentry
    exact WithTop.coe_ne_top hentry.symm

/-- **The distributed statistics.** For every split of the members over the ranks: the means
add up if the sizes of the parts and their means are uncorrelated, and with more than one
rank the covariances and the gains only where they vanish. -/
theorem localStatistics (n : Fin p → ℕ+) (E : ∀ rank, Matrix (Fin d) (Fin (n rank)) ℝ)
    (R : ObsCovariance m) (obsOp : Matrix (Fin m) (Fin d) ℝ) :
    (computeMeanFromLocalMatrix n E = meanOver (stack E) ↔ ∀ i, ∑ rank,
      ((p : ℕ) * (n rank : ℕ) - ∑ s, ((n s : ℕ) : ℝ)) * meanOver (E rank) i = 0) ∧
    (computeCovariance n (fun rank => (E rank)ᵀ) (meanOver (stack E)) =
        centeredCovariance (stack E)ᵀ (meanOver (stack E)) ↔
      p = 1 ∨ (d = 0 ∨ ∀ rank, 2 ≤ n rank) ∧ ∀ rank i k, E rank i k = meanOver (stack E) i) ∧
    (computeKalmanGain n (fun rank => (E rank)ᵀ) R.cov obsOp =
        anomalyGain (stack E)ᵀ R.cov obsOp ↔
      p = 1 ∨ (d = 0 ∨ m = 0 ∨ ∀ rank, 2 ≤ n rank) ∧ ∀ rank, obsOp * E rank = 0) :=
  ⟨computeMeanFromLocalMatrix_eq_iff E, computeCovariance_eq_iff E _,
    computeKalmanGain_eq_iff E R obsOp⟩

/-! ### Two members and three -/

def twoAndThree (rank : Fin (2 : ℕ+)) : ℕ+ := if (rank : ℕ) = 0 then 2 else 3

/-- The members of the first rank are `0` and those of the second are `1`. -/
def zerosAndOnes (rank : Fin (2 : ℕ+)) : Matrix (Fin 1) (Fin (twoAndThree rank)) ℝ :=
  of fun _ _ => ((rank : ℕ) : ℝ)

/-- A single observation, with error variance `1`. -/
noncomputable def unitCovariance : ObsCovariance 1 := ⟨1, PosDef.one⟩

lemma zerosAndOnes_apply (rank : Fin (2 : ℕ+)) (i : Fin 1) (k : Fin (twoAndThree rank)) :
    zerosAndOnes rank i k = (rank : ℕ) := rfl

lemma meanOver_zerosAndOnes (rank : Fin (2 : ℕ+)) (i : Fin 1) :
    meanOver (zerosAndOnes rank) i = (rank : ℕ) := by
  have hne : ((twoAndThree rank : ℕ) : ℝ) ≠ 0 := (size_pos rank).ne'
  simp [meanOver, zerosAndOnes, hne]

/-- On five members all three methods miss. -/
theorem localStatistics_zerosAndOnes :
    computeMeanFromLocalMatrix twoAndThree zerosAndOnes ≠ meanOver (stack zerosAndOnes) ∧
    computeCovariance twoAndThree (fun rank => (zerosAndOnes rank)ᵀ)
        (meanOver (stack zerosAndOnes)) ≠
      centeredCovariance (stack zerosAndOnes)ᵀ (meanOver (stack zerosAndOnes)) ∧
    computeKalmanGain twoAndThree (fun rank => (zerosAndOnes rank)ᵀ) unitCovariance.cov 1 ≠
      anomalyGain (stack zerosAndOnes)ᵀ unitCovariance.cov 1 := by
  have hp : (2 : ℕ+) ≠ 1 := by decide
  refine ⟨fun h => ?_, fun h => ?_, fun h => ?_⟩
  · have hsum := (computeMeanFromLocalMatrix_eq_iff zerosAndOnes).mp h 0
    simp only [meanOver_zerosAndOnes] at hsum
    have htwo : ∀ x : Fin (2 : ℕ+) → ℝ, ∑ rank, x rank = x ⟨0, by decide⟩ + x ⟨1, by decide⟩ :=
      fun x => Fin.sum_univ_two x
    rw [htwo, htwo] at hsum
    norm_num [twoAndThree] at hsum
  · have hmean := ((computeCovariance_eq_iff zerosAndOnes _).mp h).resolve_left hp
    have hzero := hmean.2 ⟨0, by decide⟩ 0 ⟨0, by decide⟩
    have hone := hmean.2 ⟨1, by decide⟩ 0 ⟨0, by decide⟩
    have heq := hzero.trans hone.symm
    rw [zerosAndOnes_apply, zerosAndOnes_apply] at heq
    exact Nat.zero_ne_one (Nat.cast_inj.mp heq)
  · have hgain := ((computeKalmanGain_eq_iff zerosAndOnes unitCovariance 1).mp h).resolve_left hp
    have hone := congrFun (congrFun (hgain.2 ⟨1, by decide⟩) 0) ⟨0, by decide⟩
    rw [Matrix.one_mul, zerosAndOnes_apply, Matrix.zero_apply] at hone
    exact Nat.one_ne_zero (Nat.cast_eq_zero.mp hone)

end Icesee
