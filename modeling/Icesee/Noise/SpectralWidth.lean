import Mathlib.Analysis.Complex.ExponentialBounds
import Mathlib.Analysis.Real.Pi.Bounds
import Mathlib.Analysis.SpecialFunctions.Pow.Real

/-!
The spectral width of the pseudo-random fields.

The three field generators look for a zero `sigma` of their covariance equation. They try
one interval, then scan a grid of widths for a change of sign, and have a heuristic value
where nothing is found. The interval that the scan finds is kept, but no zero is looked for
in it: `determinesSigma_iff` says that `sigma` is assigned unless it is the scan that
brackets a zero, and `not_determinesSigma_small` is a domain where this happens.
-/

namespace Icesee

open Finset Real

/-! ### The generators -/

/-- What `generate_pseudo_random_field_1d` and its older version are given. -/
structure Domain1d where
  N : ℕ
  Lx : ℝ
  rh : ℝ
  gridExtension : ℕ
  N_pos : 0 < N
  Lx_pos : 0 < Lx
  rh_pos : 0 < rh
  gridExtension_pos : 0 < gridExtension

/-- What `generate_pseudo_random_field_2D` is given. -/
structure Domain2d where
  nx : ℕ
  ny : ℕ
  Lx : ℝ
  Ly : ℝ
  rh : ℝ
  gridExtension : ℕ
  nx_pos : 0 < nx
  ny_pos : 0 < ny
  Lx_pos : 0 < Lx
  Ly_pos : 0 < Ly
  rh_pos : 0 < rh
  gridExtension_pos : 0 < gridExtension

/-- `np.fft.fftfreq(n, d=d)`. -/
noncomputable def fftfreq (n : ℕ) (d : ℝ) (i : ℕ) : ℝ :=
  ((if i < (n - 1) / 2 + 1 then (i : ℤ) else i - n : ℤ) : ℝ) / (n * d)

namespace Domain1d

variable (p : Domain1d)

noncomputable def dx : ℝ := p.Lx / p.N

/-- `N_ext`. -/
def extended : ℕ := p.N * p.gridExtension

noncomputable def kx (i : ℕ) : ℝ := fftfreq p.extended p.dx i * (2 : ℕ) * π

/-- `covariance_eq` of the two generators in one dimension. -/
noncomputable def covarianceEq (sigma : ℝ) : ℝ :=
  (∑ i ∈ range p.extended, exp (-(2 : ℕ) * p.kx i ^ 2 / sigma ^ 2) * cos (p.kx i * p.rh)) /
    (∑ i ∈ range p.extended, exp (-(2 : ℕ) * p.kx i ^ 2 / sigma ^ 2)) - exp (-1)

end Domain1d

namespace Domain2d

variable (p : Domain2d)

noncomputable def kx (i : ℕ) : ℝ := fftfreq (p.nx * p.gridExtension) (p.Lx / p.nx) i * (2 : ℕ) * π

noncomputable def ky (j : ℕ) : ℝ := fftfreq (p.ny * p.gridExtension) (p.Ly / p.ny) j * (2 : ℕ) * π

/-- `covariance_eq` of the generator in two dimensions. -/
noncomputable def covarianceEq (sigma : ℝ) : ℝ :=
  (∑ j ∈ range (p.ny * p.gridExtension), ∑ i ∈ range (p.nx * p.gridExtension),
      exp (-(2 : ℕ) * (p.kx i ^ 2 + p.ky j ^ 2) / sigma ^ 2) * cos (p.kx i * p.rh)) /
    (∑ j ∈ range (p.ny * p.gridExtension), ∑ i ∈ range (p.nx * p.gridExtension),
      exp (-(2 : ℕ) * (p.kx i ^ 2 + p.ky j ^ 2) / sigma ^ 2)) - exp (-1)

end Domain2d

/-! ### The search for the width -/

/-- `brentq(f, a, b)`; `none` is the `ValueError`. -/
abbrev RootFinder : Type := (ℝ → ℝ) → ℝ → ℝ → Option ℝ

/-- A root that is returned is one, and between the two ends. -/
def RootFinder.FindsRoots (brentq : RootFinder) (f : ℝ → ℝ) : Prop :=
  ∀ a b x, brentq f a b = some x → a ≤ x ∧ x ≤ b ∧ f x = 0

/-- The ends of the initial interval. -/
noncomputable def initialA : ℝ := 1e-6

noncomputable def initialB : ℝ := (100 : ℕ)

/-- `sigma_values`, that is `np.logspace(-6, 6, 25)`. -/
noncomputable def sigmaValue (i : ℕ) : ℝ := (10 : ℕ) ^ (-(6 : ℕ) + i / (2 : ℕ) : ℝ)

def numSigmaValues : ℕ := 25

/-- The local variables after the search; `sigma` is `none` where it is not assigned. -/
structure WidthSearch where
  a : ℝ
  b : ℝ
  sigma : Option ℝ

open Classical in
/-- The loop that ends at the first change of sign. -/
noncomputable def findSignChange (covarianceEq : ℝ → ℝ) : Option ℕ :=
  (List.range (numSigmaValues - 1)).find? fun i =>
    covarianceEq (sigmaValue i) * covarianceEq (sigmaValue (i + 1)) < 0

open Classical in
/-- The search of a generator, with the heuristic `2 / rh`. -/
noncomputable def searchWidth (brentq : RootFinder) (covarianceEq : ℝ → ℝ) (rh : ℝ) :
    WidthSearch :=
  if 0 < covarianceEq initialA * covarianceEq initialB then
    match findSignChange covarianceEq with
    | some i => { a := sigmaValue i, b := sigmaValue (i + 1), sigma := none }
    | none => { a := initialA, b := initialB, sigma := some ((2 : ℕ) / rh) }
  else
    match brentq covarianceEq initialA initialB with
    | some x => { a := initialA, b := initialB, sigma := some x }
    | none => { a := initialA, b := initialB, sigma := some ((2 : ℕ) / rh) }

/-- The search of `generate_pseudo_random_field_1d_`. -/
noncomputable def searchField1dOld (brentq : RootFinder) (covarianceEq : ℝ → ℝ)
    (p : Domain1d) : WidthSearch := searchWidth brentq covarianceEq p.rh

/-- The search of `generate_pseudo_random_field_1d`. -/
noncomputable def searchField1d (brentq : RootFinder) (covarianceEq : ℝ → ℝ)
    (p : Domain1d) : WidthSearch := searchWidth brentq covarianceEq p.rh

/-- The search of `generate_pseudo_random_field_2D`. -/
noncomputable def searchField2D (brentq : RootFinder) (covarianceEq : ℝ → ℝ)
    (p : Domain2d) : WidthSearch := searchWidth brentq covarianceEq p.rh

/-- A call of one of the three generators. -/
inductive FieldCall where
  | field1dOld (p : Domain1d)
  | field1d (p : Domain1d)
  | field2D (p : Domain2d)

namespace FieldCall

/-- The covariance equation of the call. -/
noncomputable def covarianceEq : FieldCall → ℝ → ℝ
  | field1dOld p => p.covarianceEq
  | field1d p => p.covarianceEq
  | field2D p => p.covarianceEq

def rh : FieldCall → ℝ
  | field1dOld p => p.rh
  | field1d p => p.rh
  | field2D p => p.rh

/-- The search of the call, for any function in the place of `covariance_eq`. -/
noncomputable def search (brentq : RootFinder) (f : ℝ → ℝ) : FieldCall → WidthSearch
  | field1dOld p => searchField1dOld brentq f p
  | field1d p => searchField1d brentq f p
  | field2D p => searchField2D brentq f p

lemma search_eq (brentq : RootFinder) (f : ℝ → ℝ) (call : FieldCall) :
    call.search brentq f = searchWidth brentq f call.rh := by
  cases call <;> rfl

/-- `sigma` is assigned: a root from the last interval, or the heuristic value. -/
def DeterminesSigma (brentq : RootFinder) (f : ℝ → ℝ) (call : FieldCall) : Prop :=
  ∃ sigma, (call.search brentq f).sigma = some sigma ∧
    (((call.search brentq f).a ≤ sigma ∧ sigma ≤ (call.search brentq f).b ∧ f sigma = 0) ∨
      sigma = (2 : ℕ) / call.rh)

end FieldCall

/-! ### When it is determined -/

/-- The initial interval brackets no zero, but two neighbours on the grid do. -/
def OnlyScanBrackets (f : ℝ → ℝ) : Prop :=
  0 < f initialA * f initialB ∧
    ∃ i, i + 1 < numSigmaValues ∧ f (sigmaValue i) * f (sigmaValue (i + 1)) < 0

lemma findSignChange_eq_none_iff (f : ℝ → ℝ) :
    findSignChange f = none ↔
      ∀ i, i + 1 < numSigmaValues → ¬f (sigmaValue i) * f (sigmaValue (i + 1)) < 0 := by
  rw [findSignChange, List.find?_eq_none]
  simp only [List.mem_range, decide_eq_true_eq, Nat.lt_sub_iff_add_lt]

/-- Where only the scan brackets a zero, nothing is assigned. -/
lemma searchWidth_sigma_eq_none_iff (brentq : RootFinder) (f : ℝ → ℝ) (rh : ℝ) :
    (searchWidth brentq f rh).sigma = none ↔ OnlyScanBrackets f := by
  have hscan : (∃ i, i + 1 < numSigmaValues ∧ f (sigmaValue i) * f (sigmaValue (i + 1)) < 0) ↔
      findSignChange f ≠ none := by
    rw [Ne, findSignChange_eq_none_iff]
    push Not
    rfl
  rw [OnlyScanBrackets, hscan, searchWidth]
  split
  · rename_i hinit
    cases findSignChange f with
    | none => simp
    | some i => simp [hinit]
  · rename_i hinit
    cases brentq f initialA initialB <;> simp [hinit]

/-- What is assigned is a root or the heuristic value. -/
lemma searchWidth_sigma_eq_some {brentq : RootFinder} {f : ℝ → ℝ} (hbrentq : brentq.FindsRoots f)
    {rh sigma : ℝ} (h : (searchWidth brentq f rh).sigma = some sigma) :
    ((searchWidth brentq f rh).a ≤ sigma ∧ sigma ≤ (searchWidth brentq f rh).b ∧ f sigma = 0) ∨
      sigma = (2 : ℕ) / rh := by
  rw [searchWidth] at h ⊢
  split at h
  · cases hscan : findSignChange f with
    | none =>
        rw [hscan] at h
        exact Or.inr (Option.some.inj h).symm
    | some i =>
        rw [hscan] at h
        exact absurd h (Option.some_ne_none _).symm
  · rename_i hinit
    rw [if_neg hinit]
    cases hroot : brentq f initialA initialB with
    | none =>
        rw [hroot] at h
        exact Or.inr (Option.some.inj h).symm
    | some x =>
        rw [hroot] at h
        obtain rfl : x = sigma := Option.some.inj h
        exact Or.inl (hbrentq _ _ _ hroot)

/-- **The spectral width** is determined, in each of the generators and for every covariance
equation, if and only if the scan is not what brackets a zero. -/
theorem determinesSigma_iff {brentq : RootFinder} {f : ℝ → ℝ} (hbrentq : brentq.FindsRoots f)
    (call : FieldCall) : call.DeterminesSigma brentq f ↔ ¬OnlyScanBrackets f := by
  rw [← searchWidth_sigma_eq_none_iff brentq f call.rh, FieldCall.DeterminesSigma,
    FieldCall.search_eq]
  constructor
  · rintro ⟨sigma, hsigma, -⟩
    rw [hsigma]
    exact Option.some_ne_none sigma
  · intro hne
    obtain ⟨sigma, hsigma⟩ := Option.ne_none_iff_exists'.mp hne
    exact ⟨sigma, hsigma, searchWidth_sigma_eq_some hbrentq hsigma⟩

/-! ### One point -/

/-- A single point in a domain of length `L`. -/
noncomputable def singlePoint (L : ℝ) (hL : 0 < L) : Domain1d where
  N := 1
  Lx := L
  rh := L
  gridExtension := 2
  N_pos := Nat.one_pos
  Lx_pos := hL
  rh_pos := hL
  gridExtension_pos := Nat.two_pos

section SinglePoint

variable {L : ℝ} (hL : 0 < L)

/-- Two wave numbers, the second of half a turn. -/
lemma covarianceEq_singlePoint (sigma : ℝ) :
    (singlePoint L hL).covarianceEq sigma =
      (1 - exp (-(2 * π ^ 2 / (L * sigma) ^ 2))) / (1 + exp (-(2 * π ^ 2 / (L * sigma) ^ 2))) -
        exp (-1) := by
  have hk0 : (singlePoint L hL).kx 0 = 0 := by
    simp [Domain1d.kx, fftfreq]
  have hk1 : (singlePoint L hL).kx 1 = -(π / L) := by
    simp [Domain1d.kx, fftfreq, Domain1d.extended, Domain1d.dx, singlePoint]
    field_simp
  have hcos : cos ((singlePoint L hL).kx 1 * (singlePoint L hL).rh) = -1 := by
    have : (singlePoint L hL).kx 1 * (singlePoint L hL).rh = -π := by
      rw [hk1, singlePoint]
      field_simp
    rw [this, cos_neg, cos_pi]
  have hexp :
      -(2 : ℕ) * (singlePoint L hL).kx 1 ^ 2 / sigma ^ 2 = -(2 * π ^ 2 / (L * sigma) ^ 2) := by
    rw [hk1, Nat.cast_two]
    field_simp
  rw [Domain1d.covarianceEq, show (singlePoint L hL).extended = 2 from rfl, sum_range_succ,
    sum_range_one, sum_range_succ, sum_range_one, hcos, hexp, hk0]
  norm_num
  ring_nf

/-- Narrow widths leave the first wave number only. -/
lemma covarianceEq_singlePoint_pos {sigma : ℝ} (hsigma : sigma ≠ 0)
    (hle : (L * sigma) ^ 2 ≤ 10) : 0 < (singlePoint L hL).covarianceEq sigma := by
  have hpos : 0 < (L * sigma) ^ 2 := by positivity
  have hpi : 9 < π ^ 2 := by nlinarith [pi_gt_three]
  have hsmall : exp (-(2 * π ^ 2 / (L * sigma) ^ 2)) ≤ exp (-1) := by
    refine exp_le_exp.mpr (neg_le_neg ?_)
    rw [le_div_iff₀ hpos]
    linarith
  have hone := exp_neg_one_lt_d9
  have hexp := exp_pos (-(2 * π ^ 2 / (L * sigma) ^ 2))
  rw [covarianceEq_singlePoint, sub_pos, lt_div_iff₀ (by linarith)]
  nlinarith [exp_pos (-1)]

/-- Wide widths leave both. -/
lemma covarianceEq_singlePoint_neg {sigma : ℝ} (hge : 100 ≤ (L * sigma) ^ 2) :
    (singlePoint L hL).covarianceEq sigma < 0 := by
  have hpos : 0 < (L * sigma) ^ 2 := by linarith
  have hpi : π ^ 2 < 10 := by nlinarith [pi_lt_d2, pi_pos]
  have hexponent : 2 * π ^ 2 / (L * sigma) ^ 2 ≤ 1 / 5 := by
    rw [div_le_iff₀ hpos]
    linarith
  have hlarge := add_one_le_exp (-(2 * π ^ 2 / (L * sigma) ^ 2))
  have hone := exp_neg_one_gt_d9
  rw [covarianceEq_singlePoint, sub_neg, div_lt_iff₀ (by linarith)]
  nlinarith

end SinglePoint

open Classical in
/-- A root finder: some zero, where the signs at the ends are not the same. -/
noncomputable def someRoot : RootFinder := fun f a b =>
  if h : f a * f b ≤ 0 ∧ ∃ x, a ≤ x ∧ x ≤ b ∧ f x = 0 then some h.2.choose else none

lemma someRoot_findsRoots (f : ℝ → ℝ) : someRoot.FindsRoots f := by
  intro a b x hx
  rw [someRoot] at hx
  split at hx
  · rename_i h
    obtain rfl := Option.some.inj hx
    exact h.2.choose_spec
  · exact absurd hx (Option.some_ne_none _).symm

/-- In a domain of length one the initial interval brackets a zero. -/
theorem determinesSigma_unit :
    (FieldCall.field1d (singlePoint 1 one_pos)).DeterminesSigma someRoot
      (singlePoint 1 one_pos).covarianceEq := by
  refine (determinesSigma_iff (someRoot_findsRoots _) _).mpr fun h => ?_
  have ha : 0 < (singlePoint 1 one_pos).covarianceEq initialA :=
    covarianceEq_singlePoint_pos one_pos (by norm_num [initialA]) (by norm_num [initialA])
  have hb : (singlePoint 1 one_pos).covarianceEq initialB < 0 :=
    covarianceEq_singlePoint_neg one_pos (by norm_num [initialB])
  exact absurd h.1 (mul_neg_of_pos_of_neg ha hb).not_gt

/-- In one of a hundredth the scan does. -/
lemma onlyScanBrackets_small :
    OnlyScanBrackets (singlePoint (1 / 100) (by norm_num)).covarianceEq := by
  have hsq : sigmaValue 17 ^ 2 = 100000 := by
    rw [sigmaValue, ← rpow_natCast, ← rpow_mul (by norm_num)]
    norm_num
  have hne : sigmaValue 17 ≠ 0 := by
    intro h
    rw [h] at hsq
    norm_num at hsq
  have hthousand : sigmaValue 18 = 1000 := by
    rw [sigmaValue]
    norm_num
  refine ⟨mul_pos ?_ ?_, 17, Nat.lt_of_sub_pos (by decide), mul_neg_of_pos_of_neg ?_ ?_⟩
  · exact covarianceEq_singlePoint_pos _ (by norm_num [initialA]) (by norm_num [initialA])
  · exact covarianceEq_singlePoint_pos _ (by norm_num [initialB]) (by norm_num [initialB])
  · refine covarianceEq_singlePoint_pos _ hne ?_
    rw [mul_pow, hsq]
    norm_num
  · refine covarianceEq_singlePoint_neg _ ?_
    rw [hthousand]
    norm_num

theorem not_determinesSigma_small :
    ¬(FieldCall.field1d (singlePoint (1 / 100) (by norm_num))).DeterminesSigma someRoot
      (singlePoint (1 / 100) (by norm_num)).covarianceEq := by
  rintro ⟨sigma, hsigma, -⟩
  rw [FieldCall.search_eq, (searchWidth_sigma_eq_none_iff _ _ _).mpr onlyScanBrackets_small]
    at hsigma
  exact Option.some_ne_none sigma hsigma.symm

end Icesee
