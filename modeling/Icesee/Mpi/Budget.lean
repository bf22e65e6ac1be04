import Mathlib.Algebra.BigOperators.Group.Finset.Basic
import Mathlib.Algebra.BigOperators.Intervals
import Mathlib.Algebra.Order.BigOperators.Group.Finset
import Mathlib.Tactic.Linarith
import Mathlib.Tactic.Ring

/-!
The processes of the models on the cores of a run.

The drivers give every rank `model_nprocs` processes for its model, with a bonus for rank
`0`, and `ensemble_initialization` later computes a new number on rank `0`, from its
boosted one, and broadcasts it. `within_allocate` is the budget after the allocation. After
the reset the bonus is paid once for every rank, and the spare cores once more
(`within_reset_iff`), so a run with spare cores exceeds the budget (`withinBudget_iff`).
-/

namespace Icesee

/-- The two parallel modes. -/
inductive ParallelMode where
  | partialParallel
  | fullParallel
  deriving DecidableEq, Repr

/-- What the allocation and the reset read: the ranks, `params["model_nprocs"]`,
`total_cores`, whether `ICESEE_PERFORMANCE_TEST` is set at the reset, and whether the run
gets there (`initialize_ensemble`, and at most as many ranks as members). -/
structure CoreConfig where
  mode : ParallelMode
  size : ℕ
  modelNprocs : ℕ
  totalCores : ℕ
  performanceTest : Bool
  resets : Bool
  size_pos : 1 ≤ size
  nprocs_pos : 1 ≤ modelNprocs
  cores_ge : 2 * size ≤ totalCores

namespace CoreConfig

variable (cfg : CoreConfig)

/-- `diff`, from `base_total_procs`. -/
def diff : ℤ := cfg.totalCores - (cfg.size + cfg.size * cfg.modelNprocs)

/-- `effective_model_nprocs` on a rank, before the check. -/
def effective (rank : ℕ) : ℤ :=
  if rank = 0 then
    if 0 ≤ cfg.diff then cfg.modelNprocs + min cfg.diff (cfg.modelNprocs * 2)
    else max 1 (cfg.modelNprocs + cfg.diff / cfg.size)
  else
    if 0 ≤ cfg.diff then cfg.modelNprocs
    else max 1 (cfg.modelNprocs + cfg.diff / cfg.size)

/-- `total_procs` on a rank. -/
def totalProcs (rank : ℕ) : ℤ :=
  cfg.size + if rank = 0 then cfg.effective rank else cfg.effective rank * (cfg.size - 1)

/-- `model_kwargs["model_nprocs"]` on the ranks after the allocation. -/
def allocate (rank : ℕ) : ℤ :=
  if cfg.totalCores < cfg.totalProcs rank then
    max 1 (cfg.effective rank * cfg.totalCores / cfg.totalProcs rank)
  else cfg.effective rank

/-- `now reset the model_nprocs`: rank `0` computes, and all ranks get the number. -/
def reset (nprocs : ℕ → ℤ) : ℕ → ℤ := fun _ =>
  if 0 ≤ cfg.diff then
    let minModelNprocs := max (nprocs 0 - 1) 1
    if cfg.performanceTest then
      match cfg.mode with
      | .partialParallel => nprocs 0
      | .fullParallel => cfg.modelNprocs
    else max minModelNprocs (nprocs 0 + cfg.diff / cfg.size)
  else nprocs 0

/-- The numbers of the ranks over the run. -/
def nprocsRun : List (ℕ → ℤ) :=
  if cfg.resets then [cfg.allocate, cfg.reset cfg.allocate] else [cfg.allocate]

/-- The ranks and the processes of their models fit on the cores, and every rank has one. -/
def Within (nprocs : ℕ → ℤ) : Prop :=
  cfg.size + ∑ rank ∈ Finset.range cfg.size, nprocs rank ≤ cfg.totalCores ∧
    ∀ rank < cfg.size, 1 ≤ nprocs rank

/-- The budget holds at every point of the run. -/
def WithinBudget : Prop := ∀ nprocs ∈ cfg.nprocsRun, cfg.Within nprocs

variable {cfg}

/-! ### The allocation -/

lemma size_pos' : (0 : ℤ) < cfg.size := by exact_mod_cast cfg.size_pos

lemma totalCores_eq :
    (cfg.totalCores : ℤ) = cfg.size + cfg.size * cfg.modelNprocs + cfg.diff := by
  rw [diff]
  ring

/-- Every rank has a share of two cores, at least. -/
lemma two_le_share : (2 : ℤ) ≤ cfg.totalCores / cfg.size :=
  (Int.le_ediv_iff_mul_le size_pos').mpr (by exact_mod_cast cfg.cores_ge)

lemma size_mul_share_le : (cfg.size : ℤ) * (cfg.totalCores / cfg.size) ≤ cfg.totalCores :=
  Int.mul_ediv_self_le size_pos'.ne'

/-- With too few cores every rank gets its share, less one for itself. -/
lemma effective_of_neg (h : cfg.diff < 0) (rank : ℕ) :
    cfg.effective rank = (cfg.totalCores : ℤ) / cfg.size - 1 := by
  have hshare : (cfg.modelNprocs : ℤ) + cfg.diff / cfg.size =
      (cfg.totalCores : ℤ) / cfg.size - 1 := by
    have hdiff : cfg.diff = cfg.totalCores + cfg.size * (-(1 + cfg.modelNprocs : ℤ)) := by
      rw [diff]
      ring
    rw [hdiff, Int.add_mul_ediv_left _ _ size_pos'.ne']
    ring
  rw [effective, if_neg (not_le.mpr h), if_neg (not_le.mpr h), ite_self, hshare]
  exact max_eq_right (by linarith [cfg.two_le_share])

lemma effective_zero (h : 0 ≤ cfg.diff) :
    cfg.effective 0 = cfg.modelNprocs + min cfg.diff (cfg.modelNprocs * 2) := by
  rw [effective, if_pos rfl, if_pos h]

lemma effective_succ (h : 0 ≤ cfg.diff) (rank : ℕ) :
    cfg.effective (rank + 1) = cfg.modelNprocs := by
  rw [effective, if_neg (Nat.succ_ne_zero rank), if_pos h]

/-- No rank sees more processes than cores. -/
lemma totalProcs_le (rank : ℕ) : cfg.totalProcs rank ≤ cfg.totalCores := by
  have hs : (1 : ℤ) ≤ cfg.size := by exact_mod_cast cfg.size_pos
  rcases lt_or_ge cfg.diff 0 with h | h
  · have htwo := cfg.two_le_share
    have hle := cfg.size_mul_share_le
    have hprod : 0 ≤ ((cfg.size : ℤ) - 1) * ((cfg.totalCores : ℤ) / cfg.size - 1) :=
      mul_nonneg (by linarith) (by linarith)
    rw [totalProcs, effective_of_neg h]
    split <;> linarith
  · have hn : (0 : ℤ) ≤ cfg.modelNprocs := Int.natCast_nonneg _
    have hprod : 0 ≤ ((cfg.size : ℤ) - 1) * cfg.modelNprocs := mul_nonneg (by linarith) hn
    rw [totalCores_eq, totalProcs]
    cases rank with
    | zero =>
        have hmin := min_le_left cfg.diff (cfg.modelNprocs * 2)
        rw [if_pos rfl, effective_zero h]
        linarith
    | succ rank =>
        rw [if_neg (Nat.succ_ne_zero rank), effective_succ h]
        linarith

/-- **The check finds nothing**, so no number is scaled down. -/
lemma allocate_eq (rank : ℕ) : cfg.allocate rank = cfg.effective rank :=
  if_neg (not_lt.mpr (cfg.totalProcs_le rank))

lemma one_le_effective (rank : ℕ) : 1 ≤ cfg.effective rank := by
  have hn : (1 : ℤ) ≤ cfg.modelNprocs := by exact_mod_cast cfg.nprocs_pos
  rcases lt_or_ge cfg.diff 0 with h | h
  · rw [effective_of_neg h]
    linarith [cfg.two_le_share]
  · cases rank with
    | zero =>
        have hmin : 0 ≤ min cfg.diff (cfg.modelNprocs * 2) := le_min h (by linarith)
        rw [effective_zero h]
        linarith
    | succ rank => rwa [effective_succ h]

/-- Rank `0` and the others. -/
lemma sum_allocate : ∑ rank ∈ Finset.range cfg.size, cfg.allocate rank =
    cfg.effective 0 + (cfg.size - 1) * cfg.effective 1 := by
  obtain ⟨p, hp⟩ := Nat.exists_eq_add_of_le' cfg.size_pos
  have hothers : ∀ rank, cfg.effective (rank + 1) = cfg.effective 1 := fun rank => rfl
  simp only [allocate_eq]
  rw [hp, Finset.sum_range_succ', Finset.sum_congr rfl fun rank _ => hothers rank,
    Finset.sum_const, Finset.card_range, nsmul_eq_mul]
  push_cast
  ring

/-- **The allocation** is within the budget. -/
lemma within_allocate : cfg.Within cfg.allocate := by
  refine ⟨?_, fun rank _ => ?_⟩
  swap
  · rw [allocate_eq]
    exact one_le_effective rank
  rw [sum_allocate]
  rcases lt_or_ge cfg.diff 0 with h | h
  · have hle := cfg.size_mul_share_le
    rw [effective_of_neg h, effective_of_neg h]
    linarith
  · have hmin := min_le_left cfg.diff (cfg.modelNprocs * 2)
    rw [effective_zero h, effective_succ h, totalCores_eq]
    linarith

/-! ### The reset -/

/-- A broadcast number is paid by every rank. -/
lemma within_const_iff {k : ℤ} (hk : 1 ≤ k) :
    cfg.Within (fun _ => k) ↔ (cfg.size : ℤ) + cfg.size * k ≤ cfg.totalCores := by
  rw [Within, Finset.sum_const, Finset.card_range, nsmul_eq_mul]
  exact and_iff_left fun _ _ => hk

/-- When the reset keeps the budget: without spare cores, or under the performance test,
where the full mode goes back to `params["model_nprocs"]` and the partial mode pays the
bonus of rank `0` for every rank. -/
def ResetFits (cfg : CoreConfig) : Prop :=
  cfg.totalCores ≤ cfg.size + cfg.size * cfg.modelNprocs ∨
    (cfg.performanceTest ∧ (cfg.mode = .fullParallel ∨
      cfg.size * min cfg.diff (cfg.modelNprocs * 2) ≤ cfg.diff))

lemma diff_nonpos_iff : cfg.diff ≤ 0 ↔ cfg.totalCores ≤ cfg.size + cfg.size * cfg.modelNprocs := by
  rw [diff, sub_nonpos]
  exact_mod_cast Iff.rfl

/-- The bonus and the spare cores for every rank fit if there are none. -/
lemma bonus_add_spare_le_iff (h : 0 ≤ cfg.diff) :
    cfg.size * min cfg.diff (cfg.modelNprocs * 2) + cfg.size * (cfg.diff / cfg.size) ≤ cfg.diff ↔
      cfg.diff ≤ 0 := by
  have hn : (1 : ℤ) ≤ cfg.modelNprocs := by exact_mod_cast cfg.nprocs_pos
  constructor
  · intro hle
    by_contra! hpos
    -- the rest of the spare cores is less than one bonus for every rank
    have hmin : 1 ≤ min cfg.diff (cfg.modelNprocs * 2) := le_min hpos (by linarith)
    have hbonus := mul_le_mul_of_nonneg_left hmin cfg.size_pos'.le
    have hmod := Int.emod_lt_of_pos cfg.diff cfg.size_pos'
    have hdiv := Int.mul_ediv_add_emod cfg.diff cfg.size
    linarith
  · intro h0
    have hzero : cfg.diff = 0 := le_antisymm h0 h
    have hn' : (0 : ℤ) ≤ cfg.modelNprocs * 2 := by linarith
    rw [hzero, Int.zero_ediv, mul_zero, add_zero, min_eq_left hn', mul_zero]

/-- With too few cores the reset keeps the number of rank `0`. -/
lemma reset_of_neg (h : cfg.diff < 0) : cfg.reset cfg.allocate = fun _ => cfg.effective 0 := by
  funext rank
  rw [reset, if_neg (not_le.mpr h), allocate_eq]

/-- Under the performance test the two modes go back to different numbers. -/
lemma reset_performanceTest (h : 0 ≤ cfg.diff) (hperf : cfg.performanceTest = true) :
    cfg.reset cfg.allocate = fun _ => match cfg.mode with
      | .partialParallel => cfg.effective 0
      | .fullParallel => cfg.modelNprocs := by
  funext rank
  simp only [reset, if_pos h, hperf, if_true, allocate_eq]

/-- Otherwise every rank gets the number of rank `0` and its part of the spare cores. -/
lemma reset_spare (h : 0 ≤ cfg.diff) (hperf : cfg.performanceTest = false) :
    cfg.reset cfg.allocate = fun _ => cfg.effective 0 + cfg.diff / cfg.size := by
  have hone := cfg.one_le_effective 0
  have hdiv : 0 ≤ cfg.diff / cfg.size := Int.ediv_nonneg h cfg.size_pos'.le
  funext rank
  simp only [reset, if_pos h, hperf, allocate_eq]
  exact max_eq_right (max_le (by linarith) (by linarith))

/-- A bonus for every rank fits if the spare cores pay it. -/
lemma within_bonus_iff (h : 0 ≤ cfg.diff) : cfg.Within (fun _ => cfg.effective 0) ↔
    cfg.size * min cfg.diff (cfg.modelNprocs * 2) ≤ cfg.diff := by
  rw [within_const_iff (cfg.one_le_effective 0), effective_zero h, mul_add, totalCores_eq]
  exact ⟨fun hle => by linarith, fun hle => by linarith⟩

/-- Without spare cores there is no bonus. -/
lemma bonus_le_of_diff_nonpos (h : 0 ≤ cfg.diff) (h0 : cfg.diff ≤ 0) :
    cfg.size * min cfg.diff (cfg.modelNprocs * 2) ≤ cfg.diff := by
  have hspare := (bonus_add_spare_le_iff h).mpr h0
  rwa [le_antisymm h0 h, Int.zero_ediv, mul_zero, add_zero, ← le_antisymm h0 h] at hspare

/-- **The reset** keeps the budget exactly then. -/
lemma within_reset_iff : cfg.Within (cfg.reset cfg.allocate) ↔ cfg.ResetFits := by
  rcases lt_or_ge cfg.diff 0 with h | h
  · have hle := cfg.size_mul_share_le
    -- a negative difference gives nothing away
    rw [reset_of_neg h, within_const_iff (cfg.one_le_effective 0), effective_of_neg h]
    exact iff_of_true (by linarith) (.inl (diff_nonpos_iff.mp h.le))
  rw [ResetFits, ← diff_nonpos_iff]
  cases hperf : cfg.performanceTest with
  | true =>
      rw [reset_performanceTest h hperf]
      cases hmode : cfg.mode with
      | partialParallel =>
          refine (within_bonus_iff h).trans ⟨fun hle => .inr ⟨rfl, .inr hle⟩, ?_⟩
          rintro (h0 | ⟨-, hfull | hle⟩)
          · exact bonus_le_of_diff_nonpos h h0
          · cases hfull
          · exact hle
      | fullParallel =>
          have hn : (1 : ℤ) ≤ cfg.modelNprocs := by exact_mod_cast cfg.nprocs_pos
          refine iff_of_true ((within_const_iff hn).mpr ?_) (.inr ⟨rfl, .inl rfl⟩)
          rw [totalCores_eq]
          linarith
  | false =>
      -- otherwise the spare cores are shared evenly
      have hone := cfg.one_le_effective 0
      have hdiv : 0 ≤ cfg.diff / cfg.size := Int.ediv_nonneg h cfg.size_pos'.le
      rw [reset_spare h hperf, within_const_iff (by linarith), effective_zero h, mul_add, mul_add,
        totalCores_eq, ← bonus_add_spare_le_iff h]
      refine ⟨fun hle => .inl (by linarith), ?_⟩
      rintro (hle | ⟨hfalse, -⟩)
      · linarith
      · cases hfalse

/-- **The budget** holds over the run exactly if the reset keeps it, or does not happen. -/
theorem withinBudget_iff (cfg : CoreConfig) :
    cfg.WithinBudget ↔ cfg.resets = false ∨ cfg.ResetFits := by
  rw [WithinBudget, nprocsRun]
  cases cfg.resets with
  | false => simpa using cfg.within_allocate
  | true => simpa [cfg.within_allocate] using cfg.within_reset_iff

/-- Two ranks with one process each, on five cores. -/
def fiveCores (mode : ParallelMode) : CoreConfig where
  mode := mode
  size := 2
  modelNprocs := 1
  totalCores := 5
  performanceTest := false
  resets := true
  size_pos := by decide
  nprocs_pos := Nat.one_pos
  cores_ge := by decide

lemma not_within_fiveCores (mode : ParallelMode) : ¬ (fiveCores mode).WithinBudget := by
  intro h
  have hreset := (h ((fiveCores mode).reset (fiveCores mode).allocate)
    (List.mem_cons_of_mem _ List.mem_cons_self)).1
  revert hreset
  cases mode <;> decide

/-- The spare core goes to rank `0` first, and to both ranks after the reset. -/
theorem not_withinBudget_fiveCores : ¬ (fiveCores .partialParallel).WithinBudget ∧
    ¬ (fiveCores .fullParallel).WithinBudget :=
  ⟨not_within_fiveCores _, not_within_fiveCores _⟩

end CoreConfig

end Icesee
