import Mathlib.Algebra.BigOperators.Fin
import Mathlib.Data.Matrix.Basic
import Mathlib.Analysis.Real.Sqrt
import Icesee.Store.PhysicalFixes

/-!
The bed relaxation of `parallel_write_ensemble_scattered`.

The bed that is written is moved from the one of the step before towards the analysis, by a
factor that is made from the time step, the model error and the product of all entries of
`X5`. The factor is capped from above only; `relaxBeds_row` says what is written, and
`between_iff` when it is between the prior and the analysis.
-/

namespace Icesee

/-- What the bed relaxation reads from `model_kwargs` and `params`, with the defaults of the
source. -/
structure RelaxationArgs (N : ℕ) where
  timestep : ℕ
  dt : ℝ
  sigQ : List ℝ
  rho : ℝ := 1
  initialBedBias : ℝ := (15 : ℕ) / (10000 : ℕ)
  X5 : Option (Matrix (Fin N) (Fin N) ℝ) := none
  bedObsSnapshot : List ℝ := []
  bedRelaxationFactor : ℝ := (5 : ℕ) / (100 : ℕ)

namespace RelaxationArgs

variable {N : ℕ} (args : RelaxationArgs N)

/-- `do_bed_snap`, with `np.isclose(t, bed_snap, rtol=0, atol=1e-12)`. -/
def DoBedSnap : Prop :=
  ∃ bedSnap ∈ args.bedObsSnapshot, |args.timestep * args.dt - bedSnap| ≤ 1 / (10 : ℕ) ^ 12

/-- `beta_t`. -/
def betaT : ℝ :=
  match args.X5 with
  | none => args.initialBedBias
  | some X5 => (List.finRange N).foldl
      (fun beta i => (List.finRange N).foldl (fun beta j => beta * X5 j i) beta)
      args.initialBedBias

/-- `sigma` of variable `ii`. -/
noncomputable def sigma (ii : ℕ) : ℝ :=
  args.sigQ.zipIdx.foldl (fun sigma (sig, iSig) => if iSig = ii then sig else sigma)
    (1 / (1000 : ℕ))

/-- What the model error contributes. -/
noncomputable def noiseTerm (ii : ℕ) : ℝ := √args.dt * args.sigma ii * args.rho

open Classical in
/-- `relaxation_factor` of variable `ii`. -/
noncomputable def relaxationFactor (ii : ℕ) : ℝ :=
  if args.DoBedSnap then
    let factor := (1 + args.betaT) * args.dt + args.noiseTerm ii
    let factor := if factor > (15 : ℕ) / (10 : ℕ) then args.noiseTerm ii else factor
    min factor ((5 : ℕ) / (10 : ℕ))
  else args.bedRelaxationFactor

/-- The relaxation of variable `ii`, if it is a bed. The level of the ocean that the source
computes on the way is not used. -/
noncomputable def relaxVar (ix : RootIndex) (bedPrior A : Recvbuf ℝ N) (var : String × ℕ) :
    Recvbuf ℝ N :=
  if var.1.toLower ∈ bedNames then
    storeVar ix A ⟨true, fun j e => bedPrior.row (ix.start var.2 + j) e +
      args.relaxationFactor var.2 *
        (A.row (ix.start var.2 + j) e - bedPrior.row (ix.start var.2 + j) e)⟩ (some var.2)
  else A

/-- The loop over `vec_inputs` that relaxes the beds. -/
noncomputable def relaxBeds (ix : RootIndex) (bedPrior recvbuf : Recvbuf ℝ N) : Recvbuf ℝ N :=
  ix.vecInputs.names.zipIdx.foldl (args.relaxVar ix bedPrior) recvbuf

/-! ### The factor -/

/-- The loops multiply by all entries of `X5`. -/
lemma betaT_some {X5 : Matrix (Fin N) (Fin N) ℝ} (h : args.X5 = some X5) :
    args.betaT = args.initialBedBias * ∏ i, ∏ j, X5 j i := by
  have hloop : ∀ (l : List (Fin N)) (f : Fin N → ℝ) (beta : ℝ),
      l.foldl (fun beta i => beta * f i) beta = beta * (l.map f).prod := by
    intro l f beta
    induction l generalizing beta with
    | nil => exact (mul_one beta).symm
    | cons i l ih => rw [List.foldl_cons, ih, List.map_cons, List.prod_cons, mul_assoc]
  rw [betaT, h]
  simp only [hloop, ← List.ofFn_eq_map, List.prod_ofFn]

/-- A variable that has a model error gets that. -/
lemma sigma_eq (ii : ℕ) : args.sigma ii = args.sigQ.getD ii (1 / (1000 : ℕ)) := by
  rw [sigma]
  induction args.sigQ using List.reverseRecOn with
  | nil => rfl
  | append_singleton l sig ih =>
      rw [List.zipIdx_append, List.foldl_append, ih, List.zipIdx_singleton, List.foldl_cons,
        List.foldl_nil, Nat.zero_add]
      dsimp only
      rcases lt_trichotomy ii l.length with h | h | h
      · rw [if_neg h.ne', List.getD_append _ _ _ _ h]
      · rw [if_pos h.symm, h, List.getD_append_right _ _ _ _ le_rfl, Nat.sub_self,
          List.getD_cons_zero]
      · have hend : (l ++ [sig]).length ≤ ii := by
          rw [List.length_append, List.length_singleton]
          exact h
        rw [if_neg h.ne, List.getD_eq_default _ _ h.le, List.getD_eq_default _ _ hend]

/-- At a snapshot the factor is at most a half. -/
lemma relaxationFactor_le (h : args.DoBedSnap) (ii : ℕ) :
    args.relaxationFactor ii ≤ (5 : ℕ) / (10 : ℕ) := by
  rw [relaxationFactor, if_pos h]
  exact min_le_right _ _

/-- The first step, before the caps. -/
noncomputable def uncapped (ii : ℕ) : ℝ := (1 + args.betaT) * args.dt + args.noiseTerm ii

/-- The factor is not negative if the one before the caps is not, or the one that replaces
it. -/
def Nonneg (ii : ℕ) : Prop :=
  if args.uncapped ii ≤ (15 : ℕ) / (10 : ℕ) then 0 ≤ args.uncapped ii else 0 ≤ args.noiseTerm ii

lemma relaxationFactor_nonneg_iff (h : args.DoBedSnap) (ii : ℕ) :
    0 ≤ args.relaxationFactor ii ↔ args.Nonneg ii := by
  have hhalf : (0 : ℝ) ≤ (5 : ℕ) / (10 : ℕ) := div_nonneg (Nat.cast_nonneg _) (Nat.cast_nonneg _)
  rw [relaxationFactor, if_pos h, Nonneg, ← uncapped]
  simp only [le_min_iff, hhalf, and_true, gt_iff_lt, ← not_le, ite_not]
  split_ifs <;> rfl

/-! ### The beds -/

variable {args} {ix : RootIndex}

/-- Variable `i` is a bed. -/
def IsBed (ix : RootIndex) (i : ℕ) : Prop :=
  i < ix.vecInputs.names.length ∧ (ix.vecInputs.names.getD i "").toLower ∈ bedNames

instance (ix : RootIndex) (i : ℕ) : Decidable (IsBed ix i) :=
  inferInstanceAs (Decidable (_ ∧ _))

/-- A node of a bed, moved from the prior. -/
noncomputable def relaxedRow (args : RelaxationArgs N) (ix : RootIndex)
    (bedPrior recvbuf : Recvbuf ℝ N) (i j : ℕ) (e : Fin N) : ℝ :=
  bedPrior.row (ix.start i + j) e + args.relaxationFactor i *
    (recvbuf.row (ix.start i + j) e - bedPrior.row (ix.start i + j) e)

/-- One variable: its rows are relaxed if it is a bed. -/
lemma relaxVar_row (bedPrior A : Recvbuf ℝ N) {i k : ℕ} (hi : i < ix.vecInputs.names.length)
    (hk : k < ix.vecInputs.names.length) {j : ℕ} (hj : j < ix.size i) :
    (args.relaxVar ix bedPrior A (ix.vecInputs.names.getD k "", k)).row (ix.start i + j) =
      if i = k ∧ IsBed ix i ∧ j < ix.count then args.relaxedRow ix bedPrior A i j
      else A.row (ix.start i + j) := by
  rw [relaxVar]
  by_cases hbed : (ix.vecInputs.names.getD k "").toLower ∈ bedNames
  · rw [if_pos hbed, storeVar_row _ _ hi hk (ix.mesh k (List.mem_append_right _ hbed)) hj]
    rcases eq_or_ne i k with rfl | hne
    · exact if_congr (and_congr_right fun _ => (and_iff_right ⟨hi, hbed⟩).symm) rfl rfl
    · rw [if_neg fun h => hne h.1, if_neg fun h => hne h.1]
  · rw [if_neg hbed, if_neg]
    rintro ⟨rfl, hb, -⟩
    exact hbed hb.2

/-- **The relaxed beds**: the rows of the beds that rank 0 has are moved, and no others. -/
lemma relaxBeds_row (bedPrior recvbuf : Recvbuf ℝ N) {i : ℕ}
    (hi : i < ix.vecInputs.names.length) {j : ℕ} (hj : j < ix.size i) :
    (args.relaxBeds ix bedPrior recvbuf).row (ix.start i + j) =
      if IsBed ix i ∧ j < ix.count then args.relaxedRow ix bedPrior recvbuf i j
      else recvbuf.row (ix.start i + j) := by
  have hnames : ix.vecInputs.names.zipIdx =
      (List.range ix.vecInputs.names.length).map fun k => (ix.vecInputs.names.getD k "", k) := by
    refine List.ext_getElem (by simp) fun k hk _ => ?_
    rw [List.getElem_zipIdx, List.getElem_map, List.getElem_range, Nat.zero_add,
      List.getD_eq_getElem]
  -- after the first `m` variables
  have key : ∀ m ≤ ix.vecInputs.names.length,
      ((List.range m).foldl (fun A k => args.relaxVar ix bedPrior A
        (ix.vecInputs.names.getD k "", k)) recvbuf).row (ix.start i + j) =
      if i < m ∧ IsBed ix i ∧ j < ix.count then args.relaxedRow ix bedPrior recvbuf i j
      else recvbuf.row (ix.start i + j) := by
    intro m
    induction m with
    | zero => exact fun _ => (if_neg fun h => Nat.not_lt_zero _ h.1).symm
    | succ m ih =>
        intro hm
        have hbefore := ih (by omega)
        rw [List.range_succ, List.foldl_append, List.foldl_cons, List.foldl_nil,
          relaxVar_row bedPrior _ hi hm hj]
        rcases eq_or_ne i m with rfl | hne
        · rw [if_neg fun h => lt_irrefl _ h.1] at hbefore
          refine if_congr (by simp) ?_ hbefore
          funext e
          rw [relaxedRow, relaxedRow, hbefore]
        · rw [if_neg fun h => hne h.1, hbefore]
          refine if_congr (and_congr_left fun _ => ?_) rfl rfl
          omega
  rw [relaxBeds, hnames, List.foldl_map, key _ le_rfl]
  simp only [hi, true_and]

/-- The number of rows stays. -/
lemma relaxBeds_n (bedPrior recvbuf : Recvbuf ℝ N) :
    (args.relaxBeds ix bedPrior recvbuf).n = recvbuf.n := by
  refine List.foldlRecOn _ _ (motive := fun A : Recvbuf ℝ N => A.n = recvbuf.n) rfl
    fun A hA var _ => ?_
  rw [relaxVar]
  split_ifs
  · exact hA
  · exact hA

/-! ### Between the prior and the analysis -/

/-- What the relaxation is for: the bed `i` is moved from the prior by one factor between
`0` and a half, and so is between the prior and the analysis. -/
def Between (ix : RootIndex) (bedPrior recvbuf written : Recvbuf ℝ N) (i : ℕ) : Prop :=
  ∃ f : ℝ, 0 ≤ f ∧ f ≤ (5 : ℕ) / (10 : ℕ) ∧ ∀ j < ix.nodes, ∀ e,
    written.row (ix.start i + j) e = bedPrior.row (ix.start i + j) e +
      f * (recvbuf.row (ix.start i + j) e - bedPrior.row (ix.start i + j) e) ∧
    written.row (ix.start i + j) e ∈
      Set.uIcc (bedPrior.row (ix.start i + j) e) (recvbuf.row (ix.start i + j) e)

/-- It is about the rows of the bed only. -/
lemma between_congr {bedPrior recvbuf written written' : Recvbuf ℝ N} {i : ℕ}
    (h : ∀ j < ix.nodes, written.row (ix.start i + j) = written'.row (ix.start i + j)) :
    Between ix bedPrior recvbuf written i ↔ Between ix bedPrior recvbuf written' i := by
  refine exists_congr fun f => and_congr_right fun _ => and_congr_right fun _ =>
    forall_congr' fun j => forall_congr' fun hj => forall_congr' fun e => ?_
  rw [h j hj]

/-- A factor between `0` and a half leads between the ends. -/
lemma mem_uIcc_of_factor {f : ℝ} (hf : 0 ≤ f) (hle : f ≤ (5 : ℕ) / (10 : ℕ)) (x y : ℝ) :
    x + f * (y - x) ∈ Set.uIcc x y := by
  have hone : f ≤ 1 := hle.trans (by norm_num)
  rcases le_total x y with h | h
  · rw [Set.uIcc_of_le h]
    constructor <;> nlinarith
  · rw [Set.uIcc_of_ge h]
    constructor <;> nlinarith

/-- **When the bed stays between**: on every node analysis and prior agree, or rank `0` has the
node and the factor is not negative. -/
lemma between_iff (h : args.DoBedSnap) (bedPrior recvbuf : Recvbuf ℝ N) {i : ℕ}
    (hi : IsBed ix i) : Between ix bedPrior recvbuf (args.relaxBeds ix bedPrior recvbuf) i ↔
      ∀ j < ix.nodes, (j < ix.count ∧ args.Nonneg i) ∨ ∀ e,
        recvbuf.row (ix.start i + j) e = bedPrior.row (ix.start i + j) e := by
  have hsize : ix.size i = ix.nodes := ix.mesh i (List.mem_append_right _ hi.2)
  have hrow : ∀ j < ix.nodes, ∀ e, (args.relaxBeds ix bedPrior recvbuf).row (ix.start i + j) e =
      if j < ix.count then args.relaxedRow ix bedPrior recvbuf i j e
      else recvbuf.row (ix.start i + j) e := by
    intro j hj e
    rw [relaxBeds_row bedPrior recvbuf hi.1 (by rwa [hsize])]
    simp only [hi, true_and]
    split_ifs <;> rfl
  -- on a node that differs the written value determines the factor
  constructor
  · rintro ⟨f, hf, hle, hwritten⟩ j hj
    refine or_iff_not_imp_left.mpr fun hneg e => ?_
    have hval := (hwritten j hj e).1
    rw [hrow j hj e] at hval
    split_ifs at hval with hcount
    · have hlt := not_and.mp hneg hcount
      rw [← args.relaxationFactor_nonneg_iff h, not_le] at hlt
      rw [relaxedRow, add_right_inj, ← sub_eq_zero, ← sub_mul] at hval
      exact sub_eq_zero.mp ((mul_eq_zero.mp hval).resolve_left (by linarith))
    · have hzero : (1 - f) *
          (recvbuf.row (ix.start i + j) e - bedPrior.row (ix.start i + j) e) = 0 := by
        linarith
      have hhalf : f ≤ 1 / 2 := hle.trans (by norm_num)
      exact sub_eq_zero.mp ((mul_eq_zero.mp hzero).resolve_left (by linarith))
  · intro hfits
    -- where the factor is negative nothing depends on it, so `0` serves all nodes
    have hle : max 0 (args.relaxationFactor i) ≤ (5 : ℕ) / (10 : ℕ) :=
      max_le (by norm_num) (args.relaxationFactor_le h i)
    refine ⟨max 0 (args.relaxationFactor i), le_max_left _ _, hle, fun j hj e => ?_⟩
    have hval : (args.relaxBeds ix bedPrior recvbuf).row (ix.start i + j) e =
        bedPrior.row (ix.start i + j) e + max 0 (args.relaxationFactor i) *
          (recvbuf.row (ix.start i + j) e - bedPrior.row (ix.start i + j) e) := by
      rw [hrow j hj e]
      rcases hfits j hj with ⟨hcount, hnonneg⟩ | hsame
      · rw [if_pos hcount, relaxedRow,
          max_eq_right ((args.relaxationFactor_nonneg_iff h i).mpr hnonneg)]
      · rw [relaxedRow, hsame e, sub_self, mul_zero, mul_zero, add_zero, ite_self]
    rw [hval]
    exact ⟨rfl, mem_uIcc_of_factor (le_max_left _ _) hle _ _⟩

end RelaxationArgs

end Icesee
