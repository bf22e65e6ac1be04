import Icesee.Noise.PeriodicExpCov
import Icesee.Noise.SpectralWidth

/-!
The fields of the model error.

`generate_enkf_field` takes its samples on a ring for less than a hundred points, and from
the spectral generator otherwise; it makes one sample for every variable if there is a list
of decorrelation lengths, and else a single one. All of them have the right length if they
are made (`dispatch_iff`). `generateEnkfField_iff` says when they are: on the ring the
length scale must be there, and `Lx_dim = 1` is taken for none; the generator must not leave
its width unassigned.
-/

namespace Icesee

open Finset Real PeriodicExpCov

/-- A positive length. -/
abbrev PosLength : Type := {x : ℝ // 0 < x}

/-! ### The spectral generator -/

namespace Domain1d

variable (p : Domain1d) (sigma : ℝ) (draw : ℕ → ℝ)

noncomputable def dk : ℝ := (2 : ℕ) * π / (p.extended * p.dx)

/-- `c`, from the variance condition. -/
noncomputable def c : ℝ :=
  √(1 / (p.dk * ∑ i ∈ range p.extended, exp (-(2 : ℕ) * p.kx i ^ 2 / sigma ^ 2)))

/-- `A`. -/
noncomputable def amplitude (i : ℕ) : ℝ := p.c sigma * √p.dk * exp (-p.kx i ^ 2 / sigma ^ 2)

/-- `I_conj`. -/
def conj (i : ℕ) : ℕ := (p.extended - i) % p.extended

/-- `phi`: random for the first of two conjugate points, and its opposite for the other. -/
noncomputable def phi (i : ℕ) : ℝ :=
  if i = p.conj i then 0
  else if i < p.conj i then draw (i - 1)
  else Int.fract (-draw (p.conj i - 1))

/-- `q_ext`. -/
noncomputable def qExt (j : ℕ) : ℝ :=
  (∑ i ∈ range p.extended, p.amplitude sigma i *
    Complex.exp ((2 : ℕ) * π * p.phi draw i * Complex.I) *
    Complex.exp ((2 : ℕ) * π * (i * j) / p.extended * Complex.I)).re

/-- The field without its mean. -/
noncomputable def centered (j : Fin p.N) : ℝ :=
  p.qExt sigma draw j - (∑ l : Fin p.N, p.qExt sigma draw l) / p.N

/-- `np.std(q)`. -/
noncomputable def std : ℝ := √((∑ j, p.centered sigma draw j ^ 2) / p.N)

open Classical in
/-- `q`. -/
noncomputable def field (j : Fin p.N) : ℝ :=
  if 0 < p.std sigma draw then p.centered sigma draw j / p.std sigma draw
  else p.centered sigma draw j

/-- The domain of a call: `Lx = float(N)` if there is none. -/
noncomputable def ofCall (Lx : Option PosLength) (gridExtension : ℕ+) (N : ℕ+) (rh : PosLength) :
    Domain1d where
  N := N
  Lx := match Lx with
    | none => (N : ℕ)
    | some L => L
  rh := rh
  gridExtension := gridExtension
  N_pos := N.pos
  Lx_pos := match Lx with
    | none => Nat.cast_pos.mpr N.pos
    | some L => L.2
  rh_pos := rh.2
  gridExtension_pos := gridExtension.pos

end Domain1d

/-- `generate_pseudo_random_field_1d`, on a uniform grid. -/
noncomputable def generatePseudoRandomField1d (brentq : RootFinder) (p : Domain1d)
    (draw : ℕ → ℝ) : Except NoiseError (List ℝ) :=
  match (searchField1d brentq p.covarianceEq p).sigma with
  | none => .error (.unboundLocalError "sigma")
  | some sigma => .ok (List.ofFn (p.field sigma draw))

/-! ### The field of all variables -/

/-- `rh`: one decorrelation length, or one for every variable. -/
inductive Decorrelation where
  | scalar (rh : PosLength)
  | perVariable (rh : List PosLength)

/-- The keyword arguments of `generate_enkf_field`. -/
structure EnkfFieldArgs where
  noiseDim : ℕ+
  numVars : ℕ+
  LxDim : Option PosLength
  iiSig : Option (Fin numVars)
  rh : Option Decorrelation
  gridExtension : ℕ+
  rh_length : ∀ l, rh = some (.perVariable l) → l.length = numVars

/-- A sampler: the points, the decorrelation length and the draws. -/
abbrev Sampler : Type := ℕ+ → PosLength → (ℕ → ℝ) → Except NoiseError (List ℝ)

/-- `q_total` after the first variables. -/
def concatenate (sample : ℕ → Except NoiseError (List ℝ)) : ℕ → Except NoiseError (List ℝ)
  | 0 => .ok []
  | m + 1 => do
    let qTotal ← concatenate sample m
    let qVar ← sample m
    return qTotal ++ qVar

namespace EnkfFieldArgs

variable (a : EnkfFieldArgs)

open Classical in
/-- `Lx`, where `Lx == 1` becomes `None`. -/
noncomputable def length : Option PosLength := a.LxDim.filter fun L => L.1 ≠ 1

/-- `rh` with its default. -/
noncomputable def decorrelation : Decorrelation :=
  a.rh.getD (.scalar (match a.length with
    | some L => ⟨L / (10 : ℕ), div_pos L.2 (Nat.cast_pos.mpr (Nat.succ_pos 9))⟩
    | none => ⟨max ((a.noiseDim : ℕ) / (10 : ℕ)) 1, lt_max_of_lt_right one_pos⟩))

/-- `rh[i]`. -/
def rhAt (rh : List PosLength) (i : ℕ) : Except NoiseError PosLength :=
  match rh[i]? with
  | some x => .ok x
  | none => .error .indexError

/-- Both branches of `generate_enkf_field`, with their sampler; `draw i` are the draws of the
sample of variable `i`. -/
noncomputable def dispatch (sample : Sampler) (draw : ℕ → ℕ → ℝ) :
    Except NoiseError (List ℝ) :=
  match a.decorrelation, a.iiSig with
  | .perVariable rh, none =>
    concatenate (fun i => do sample a.noiseDim (← rhAt rh i) (draw i)) a.numVars
  | .perVariable rh, some iiSig => do sample a.noiseDim (← rhAt rh iiSig) (draw iiSig)
  | .scalar rh, none => sample (a.noiseDim * a.numVars) rh (draw 0)
  | .scalar rh, some iiSig => sample a.noiseDim rh (draw iiSig)

end EnkfFieldArgs

/-- `generate_enkf_field`. -/
noncomputable def generateEnkfField (brentq : RootFinder) (a : EnkfFieldArgs)
    (draw : ℕ → ℕ → ℝ) : Except NoiseError (List ℝ) :=
  if (a.noiseDim : ℕ) < 100 then
    a.dispatch (fun n rh => samplePeriodicExpCov n rh (a.length.map Subtype.val)) draw
  else
    a.dispatch (fun n rh =>
      generatePseudoRandomField1d brentq (.ofCall a.length a.gridExtension n rh)) draw

namespace EnkfFieldArgs

variable (a : EnkfFieldArgs)

/-- The length that the callers rely on. -/
def outputLength : ℕ :=
  match a.iiSig with
  | none => a.noiseDim * a.numVars
  | some _ => a.noiseDim

/-- The call returns an array of that length. -/
def Returns (brentq : RootFinder) (draw : ℕ → ℕ → ℝ) : Prop :=
  ∃ q, generateEnkfField brentq a draw = .ok q ∧ q.length = a.outputLength

/-- The points and the decorrelation length of a sample that is made. -/
def IsCall (n : ℕ+) (rh : PosLength) : Prop :=
  match a.decorrelation, a.iiSig with
  | .perVariable l, none => n = a.noiseDim ∧ rh ∈ l
  | .perVariable l, some iiSig => n = a.noiseDim ∧ l[(iiSig : ℕ)]? = some rh
  | .scalar x, none => n = a.noiseDim * a.numVars ∧ rh = x
  | .scalar x, some _ => n = a.noiseDim ∧ rh = x

/-- A length scale for the ring; for the generator, no call where only the scan brackets a
zero of the covariance equation. -/
def Supported : Prop :=
  if (a.noiseDim : ℕ) < 100 then ∃ L, a.LxDim = some L ∧ L.1 ≠ 1
  else ∀ n rh, a.IsCall n rh →
    ¬OnlyScanBrackets (Domain1d.ofCall a.length a.gridExtension n rh).covarianceEq

/-! ### The samples -/

/-- An error is no array. -/
lemma not_exists_ok (e : NoiseError) : ¬∃ q, (.error e : Except NoiseError (List ℝ)) = .ok q := by
  rintro ⟨q, h⟩
  cases h

/-- A sampler of arrays of the right length, that goes through where `Good` says so. -/
structure SamplesWhere (sample : Sampler) (Good : ℕ+ → PosLength → Prop) : Prop where
  length_eq : ∀ n rh draw q, sample n rh draw = .ok q → q.length = n
  ok_iff : ∀ n rh draw, (∃ q, sample n rh draw = .ok q) ↔ Good n rh

lemma ring_samplesWhere (Lx : Option PosLength) :
    SamplesWhere (fun n rh => samplePeriodicExpCov n rh (Lx.map Subtype.val))
      fun _ _ => Lx ≠ none where
  length_eq n rh draw q h := by
    cases Lx with
    | none =>
        rw [Option.map_none, samplePeriodicExpCov_none n.pos] at h
        cases h
    | some L =>
        rw [Option.map_some, samplePeriodicExpCov_eq n.pos rh.2.le L.2] at h
        rw [← Except.ok.inj h, List.length_ofFn]
  ok_iff n rh draw := by
    cases Lx with
    | none =>
        rw [Option.map_none, samplePeriodicExpCov_none n.pos]
        exact iff_of_false (not_exists_ok _) fun h => h rfl
    | some L =>
        rw [Option.map_some, samplePeriodicExpCov_eq n.pos rh.2.le L.2]
        exact iff_of_true ⟨_, rfl⟩ (Option.some_ne_none L)

lemma generator_samplesWhere (brentq : RootFinder) (Lx : Option PosLength) (ext : ℕ+) :
    SamplesWhere (fun n rh => generatePseudoRandomField1d brentq (.ofCall Lx ext n rh))
      fun n rh => ¬OnlyScanBrackets (Domain1d.ofCall Lx ext n rh).covarianceEq where
  length_eq n rh draw q h := by
    rw [generatePseudoRandomField1d] at h
    split at h
    · cases h
    · rw [← Except.ok.inj h, List.length_ofFn]
      rfl
  ok_iff n rh draw := by
    rw [← searchWidth_sigma_eq_none_iff brentq _ rh, generatePseudoRandomField1d, searchField1d]
    change (∃ q, (match (searchWidth brentq _ (rh : ℝ)).sigma with
      | none => .error (.unboundLocalError "sigma")
      | some sigma => .ok _ : Except NoiseError (List ℝ)) = .ok q) ↔ _
    cases (searchWidth brentq (Domain1d.ofCall Lx ext n rh).covarianceEq rh).sigma with
    | none => exact iff_of_false (not_exists_ok _) fun h => h rfl
    | some sigma => exact iff_of_true ⟨_, rfl⟩ (Option.some_ne_none sigma)

/-- The loop over the variables goes through if every sample is made. -/
lemma concatenate_ok_iff (sample : ℕ → Except NoiseError (List ℝ)) (m : ℕ) :
    (∃ q, concatenate sample m = .ok q) ↔ ∀ i < m, ∃ q, sample i = .ok q := by
  induction m with
  | zero => exact iff_of_true ⟨[], rfl⟩ fun i hi => absurd hi (Nat.not_lt_zero i)
  | succ m ih =>
      rw [Nat.forall_lt_succ_right, ← ih, concatenate]
      cases concatenate sample m with
      | error e =>
          exact iff_of_false (not_exists_ok _) fun h => not_exists_ok _ h.1
      | ok qTotal =>
          cases sample m with
          | error e =>
              exact iff_of_false (not_exists_ok _) fun h => not_exists_ok _ h.2
          | ok qVar => exact iff_of_true ⟨_, rfl⟩ ⟨⟨_, rfl⟩, _, rfl⟩

lemma length_concatenate {sample : ℕ → Except NoiseError (List ℝ)} {n : ℕ}
    (hsample : ∀ i q, sample i = .ok q → q.length = n) {m : ℕ} {q : List ℝ}
    (h : concatenate sample m = .ok q) : q.length = n * m := by
  induction m generalizing q with
  | zero =>
      rw [← Except.ok.inj h, mul_zero]
      rfl
  | succ m ih =>
      rw [concatenate] at h
      cases hq : concatenate sample m with
      | error e =>
          rw [hq] at h
          cases h
      | ok qTotal =>
          rw [hq] at h
          cases hr : sample m with
          | error e =>
              rw [hr] at h
              cases h
          | ok qVar =>
              rw [hr] at h
              rw [← Except.ok.inj h, List.length_append, ih hq, hsample m qVar hr, mul_add, mul_one]

/-! ### The calls -/

variable {a}

/-- A list of decorrelation lengths was given. -/
lemma length_of_perVariable {l : List PosLength} (h : a.decorrelation = .perVariable l) :
    l.length = a.numVars := by
  rw [decorrelation] at h
  cases hrh : a.rh with
  | none =>
      rw [hrh] at h
      cases h
  | some rh =>
      rw [hrh] at h
      exact a.rh_length l (hrh.trans (congrArg some h))

lemma rhAt_eq {l : List PosLength} {i : ℕ} (hi : i < l.length) : rhAt l i = .ok l[i] := by
  rw [rhAt, List.getElem?_eq_getElem hi]

/-- There is always a call. -/
lemma exists_isCall (a : EnkfFieldArgs) : ∃ n rh, a.IsCall n rh := by
  unfold IsCall
  cases hd : a.decorrelation with
  | scalar x => cases a.iiSig <;> exact ⟨_, x, rfl, rfl⟩
  | perVariable l =>
      have hlen := length_of_perVariable hd
      cases a.iiSig with
      | none =>
          have hpos : 0 < l.length := hlen ▸ a.numVars.pos
          exact ⟨_, l[0], rfl, List.getElem_mem hpos⟩
      | some iiSig =>
          have hi : (iiSig : ℕ) < l.length := hlen.symm ▸ iiSig.2
          exact ⟨_, l[(iiSig : ℕ)], rfl, List.getElem?_eq_getElem hi⟩

namespace SamplesWhere

variable {sample : Sampler} {Good : ℕ+ → PosLength → Prop} (hsample : SamplesWhere sample Good)
include hsample

lemma one_iff (n : ℕ+) (rh : PosLength) (draw : ℕ → ℝ) {m : ℕ} (hm : m = n) :
    (∃ q, sample n rh draw = .ok q ∧ q.length = m) ↔ Good n rh := by
  rw [← hsample.ok_iff n rh draw, hm]
  exact exists_congr fun q => and_iff_left_of_imp (hsample.length_eq n rh draw q)

/-- One sample for every decorrelation length. -/
lemma concatenate_iff (n : ℕ+) (l : List PosLength) (draw : ℕ → ℕ → ℝ) {m : ℕ}
    (hm : m = n * l.length) :
    (∃ q, concatenate (fun i => do sample n (← rhAt l i) (draw i)) l.length = .ok q ∧
      q.length = m) ↔ ∀ rh ∈ l, Good n rh := by
  have hlength : ∀ i q, (do sample n (← rhAt l i) (draw i) : Except NoiseError (List ℝ)) = .ok q →
      q.length = n := by
    intro i q h
    cases hrh : rhAt l i with
    | error e =>
        rw [hrh] at h
        cases h
    | ok rh =>
        rw [hrh] at h
        exact hsample.length_eq n rh _ q h
  rw [exists_congr fun q => and_iff_left_of_imp fun hq =>
    (length_concatenate hlength hq).trans hm.symm, concatenate_ok_iff, List.forall_mem_iff_getElem]
  refine forall_congr' fun i => forall_congr' fun hi => ?_
  rw [rhAt_eq hi]
  exact hsample.ok_iff n l[i] (draw i)

/-- The array has the right length, and it is made if all its samples are. -/
lemma dispatch_iff (a : EnkfFieldArgs) (draw : ℕ → ℕ → ℝ) :
    (∃ q, a.dispatch sample draw = .ok q ∧ q.length = a.outputLength) ↔
      ∀ n rh, a.IsCall n rh → Good n rh := by
  unfold dispatch IsCall outputLength
  -- one sample for a number, one for each variable for a list, or the one of `ii_sig`
  cases hd : a.decorrelation with
  | scalar x =>
      cases a.iiSig with
      | none =>
          refine (hsample.one_iff _ x _ (PNat.mul_coe _ _).symm).trans ?_
          exact ⟨fun h n rh ⟨hn, hrh⟩ => hn ▸ hrh ▸ h, fun h => h _ _ ⟨rfl, rfl⟩⟩
      | some iiSig =>
          refine (hsample.one_iff _ x _ rfl).trans ?_
          exact ⟨fun h n rh ⟨hn, hrh⟩ => hn ▸ hrh ▸ h, fun h => h _ _ ⟨rfl, rfl⟩⟩
  | perVariable l =>
      have hlen := length_of_perVariable hd
      cases a.iiSig with
      | none =>
          simp only [← hlen]
          refine (hsample.concatenate_iff _ l draw rfl).trans ?_
          exact ⟨fun h n rh ⟨hn, hrh⟩ => hn ▸ h rh hrh, fun h rh hrh => h _ rh ⟨rfl, hrh⟩⟩
      | some iiSig =>
          have hi : (iiSig : ℕ) < l.length := hlen.symm ▸ iiSig.2
          simp only [rhAt_eq hi, List.getElem?_eq_getElem hi]
          refine (hsample.one_iff _ l[(iiSig : ℕ)] _ rfl).trans ?_
          exact ⟨fun h n rh ⟨hn, hrh⟩ => hn ▸ Option.some.inj hrh ▸ h, fun h => h _ _ ⟨rfl, rfl⟩⟩

end SamplesWhere

/-- The length scale that is left. -/
lemma length_ne_none_iff : a.length ≠ none ↔ ∃ L, a.LxDim = some L ∧ L.1 ≠ 1 := by
  rw [length, Option.ne_none_iff_exists']
  simp only [Option.filter_eq_some_iff, decide_eq_true_eq]

lemma returns_iff_supported (brentq : RootFinder) (a : EnkfFieldArgs) (draw : ℕ → ℕ → ℝ) :
    a.Returns brentq draw ↔ a.Supported := by
  rw [Returns, Supported, generateEnkfField]
  split
  · rw [(ring_samplesWhere a.length).dispatch_iff, ← length_ne_none_iff]
    obtain ⟨n, rh, hcall⟩ := exists_isCall a
    exact ⟨fun h => h n rh hcall, fun h _ _ _ => h⟩
  · exact (generator_samplesWhere brentq a.length a.gridExtension).dispatch_iff a draw

/-- **`generate_enkf_field`** returns, with the length that its callers rely on, if and only
if its arguments are supported by the sampler that is chosen. -/
theorem generateEnkfField_iff (brentq : RootFinder) (a : EnkfFieldArgs) (draw : ℕ → ℕ → ℝ) :
    a.Returns brentq draw ↔ a.Supported :=
  returns_iff_supported brentq a draw

/-! ### No length scale -/

/-- Ten points of one variable, with the defaults. -/
def tenPoints : EnkfFieldArgs where
  noiseDim := Nat.succPNat 9
  numVars := ⟨1, Nat.one_pos⟩
  LxDim := none
  iiSig := none
  rh := none
  gridExtension := ⟨2, Nat.two_pos⟩
  rh_length := fun _ h => absurd h (Option.some_ne_none _).symm

theorem not_returns_tenPoints : ¬tenPoints.Returns someRoot fun _ _ => 0 := by
  obtain ⟨n, rh, hcall⟩ := exists_isCall tenPoints
  have hsmall : (tenPoints.noiseDim : ℕ) < 100 := by
    rw [tenPoints]
    norm_num
  rw [Returns, generateEnkfField, if_pos hsmall, (ring_samplesWhere _).dispatch_iff]
  exact fun h => h n rh hcall rfl

end EnkfFieldArgs

end Icesee
