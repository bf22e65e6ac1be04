import Mathlib.Analysis.Real.Sqrt
import Icesee.Lib.Slices
import Icesee.Mpi.IndexMap
import Icesee.Noise.EnkfField

/-!
The noise that `parallel_forecast_step_default_run` adds to what the model returns.

With at least as many members as ranks the output of the model is assembled to a vector, and
the noise is added to its first rows; `forecastBatch` is this for one member. With fewer
members it is added to every entry of the output, and the entries are stacked;
`forecastSplit` is this for one member. Both go through `addNoise`, which `addNoise_spec`
is about. Noise should come to the state variables only, block by block
(`StateNoiseOnly`). On the assembled vector it does if the blocks have the sizes of the
variables; entry by entry it does for a single variable only, since the size of a block is
divided by the number of variables once more (`stateNoiseOnly_iff`). Either way nothing may
be raised where a block is computed (`ProcessNoise.NoiseMade`): `generate_enkf_field` must
return (`noiseMade_enkfField_iff`, `supported_fieldArgs_iff`), and the noise that is found
must have rows there.
-/

namespace Icesee

open Keyed Tiling Slices

/-! ### Vectors of numpy -/

/-- `a + b`. A vector of length one is added to every entry. -/
def npAdd (a b : List ℝ) : Option (List ℝ) :=
  if a.length = b.length then some (List.zipWith (· + ·) a b)
  else if a.length = 1 then some (a.flatMap fun x => b.map (x + ·))
  else if b.length = 1 then some (b.flatMap fun y => a.map (· + y))
  else none

/-- `np.concatenate`, which raises if there is nothing. -/
def npConcatenate (blocks : List (List ℝ)) : Option (List ℝ) :=
  if blocks.isEmpty then none else some blocks.flatten

/-- `data[:k] = x`. A vector of length one is written to every entry. -/
def assignPrefix (data : List ℝ) (k : ℕ) (x : List ℝ) : Option (List ℝ) :=
  if x.length = (data.take k).length then some (put data x 0)
  else if x.length = 1 then some (put data ((data.take k).flatMap fun _ => x) 0)
  else none

/-- `vec[idx] = value`. -/
def assignRows (vec : List ℝ) (idx : List ℕ) (value : List ℝ) : List ℝ :=
  (idx.zip value).foldl (fun v p => v.set p.1 p.2) vec

/-! ### The two branches -/

/-- What the function reads to forecast one member. `joint` is `joint_estimation` or
`localization_flag`. `order` are the keys of `updated_state`, and `output` its values; `field`
are the fields that `generate_enkf_field` returns, by the loop over `sig_Q` in which it is
called, `noise_dim` and `ii_sig`, and nothing where it raises. -/
structure NoiseInput where
  vecInputs : VecInputs
  sizes : List ℕ
  numStateVars : ℕ
  totalVars : ℕ
  joint : Bool
  sigQ : List ℝ
  alpha : ℝ
  rho : ℝ
  dt : ℝ
  noise : List ℝ
  field : ℕ → ℕ → ℕ → Option (List ℝ)
  before : List ℝ
  order : List String
  output : String → List ℝ

/-- What the configuration and the callers see to. Without `joint` the variables have been cut
to the state variables. A field has the `noise_dim` entries that were asked for, and the model
returns every variable, with its size. -/
structure NoiseInput.Valid (c : NoiseInput) : Prop where
  length_sizes : c.sizes.length = c.vecInputs.names.length
  numStateVars_pos : 1 ≤ c.numStateVars
  numStateVars_le : c.numStateVars ≤ c.vecInputs.names.length
  vars_le : c.vecInputs.names.length ≤ c.totalVars
  vars_eq : c.joint = false → c.vecInputs.names.length = c.numStateVars
  state_rows : ∀ s < c.numStateVars, 1 ≤ c.sizes.getD s 0
  length_field : ∀ n hdim ii W, c.field n hdim ii = some W → W.length = hdim
  length_before : c.before.length = c.sizes.sum
  order_perm : c.order.Perm c.vecInputs.names
  length_output : ∀ i < c.vecInputs.names.length,
    (c.output (c.vecInputs.names.getD i "")).length = c.sizes.getD i 0

/-- The forecast of a member. -/
structure ProcessNoise extends NoiseInput where
  valid : toNoiseInput.Valid

/-- What `addNoise` leaves: the data, the blocks of `noise_all`, and the noise that is found
next. -/
structure Noised where
  data : List ℝ
  noiseAll : List (List ℝ)
  noise : List ℝ

/-- The forecast of a member, and the blocks that were computed where a variable was given
noise. -/
structure Forecast where
  vector : List ℝ
  noiseAll : String → List (List ℝ)

namespace ProcessNoise

variable (c : ProcessNoise)

/-- What the number of rows is divided by for `hdim`. -/
def divisor : ℕ := if c.joint then c.totalVars else c.numStateVars

/-- The block of `noise_all` for an entry of `sig_Q`. -/
noncomputable def Z (sig : ℝ) (noise_ : List ℝ) : List ℝ := noise_.map (√c.dt * sig * c.rho * ·)

/-- `noise_` for an entry of `sig_Q`. -/
noncomputable def mixed (hdim : ℕ) (noise : List ℝ) (field : ℕ → Option (List ℝ)) (ii : ℕ) :
    Option (List ℝ) := do
  let W ← field ii
  npAdd ((slice noise (ii * hdim) hdim).map (c.alpha * ·)) (W.map (√(1 - c.alpha ^ 2) * ·))

/-- The loop over `sig_Q`: `noise_all` and `q0`. -/
noncomputable def noiseLoop (hdim : ℕ) (noise : List ℝ) (field : ℕ → Option (List ℝ)) :
    Option (List (List ℝ × List ℝ)) :=
  (c.sigQ.zipIdx.filter fun p => p.2 ≤ c.numStateVars).mapM fun p => do
    let noise_ ← c.mixed hdim noise field p.2
    return (c.Z p.1 noise_, noise_)

/-- The noise for the first rows of `data`. -/
noncomputable def addNoise (data noise : List ℝ) (field : ℕ → ℕ → Option (List ℝ)) :
    Option Noised := do
  let hdim := data.length / c.divisor
  let stateBlockSize := hdim * c.numStateVars
  let blocks ← c.noiseLoop hdim noise (field hdim)
  let noise_ ← npConcatenate (blocks.map Prod.fst)
  let sum ← npAdd (data.take stateBlockSize) (noise_.take stateBlockSize)
  let data ← assignPrefix data stateBlockSize sum
  let noise ← npConcatenate (blocks.map Prod.snd)
  return ⟨data, blocks.map Prod.fst, noise⟩

/-- `icesee_get_index`, on the communicator of a rank alone. -/
def indexMap : IndexResult := varNdResult c.vecInputs.names c.sizes 0 1

/-- `ensemble_vec` with the output of the model. -/
def assembled : List ℝ :=
  c.order.foldl (fun vec key => assignRows vec (c.indexMap.indices key) (c.output key)) c.before

/-- The case `Nens >= size_world`. -/
noncomputable def forecastBatch : Option Forecast := do
  let r ← c.addNoise c.assembled c.noise (c.field 0)
  return ⟨r.data, fun _ => r.noiseAll⟩

/-- The loop over the keys of `global_data`. -/
noncomputable def keyLoop : ℕ → List String → List ℝ → Option (List (String × Noised))
  | _, [], _ => some []
  | n, key :: keys, noise => do
    let r ← c.addNoise (c.output key) noise (c.field n)
    let rest ← keyLoop (n + 1) keys r.noise
    return (key, r) :: rest

/-- The case `Nens < size_world`. -/
noncomputable def forecastSplit : Option Forecast := do
  let globalData ← c.keyLoop 0 c.order c.noise
  return ⟨(globalData.map fun p => p.2.data).flatten, fun key =>
    ((globalData.find? fun p => p.1 = key).map fun p => p.2.noiseAll).getD []⟩

/-! ### What should come of it -/

/-- The rows of a variable in the vector, as `icesee_get_index` has them. -/
def rowsOf (vector : List ℝ) (i : ℕ) : List ℝ :=
  slice vector (c.sizes.take i).sum (c.sizes.getD i 0)

/-- The output of the model for a variable. -/
def outputOf (i : ℕ) : List ℝ := c.output (c.vecInputs.names.getD i "")

/-- A parameter is what the model returned, and to a state variable comes its block of noise, that
is the one with its entry of `sig_Q`, row by row. -/
structure StateNoiseOnly (f : Forecast) : Prop where
  param : ∀ i, c.numStateVars ≤ i → i < c.vecInputs.names.length →
    c.rowsOf f.vector i = c.outputOf i
  state : ∀ s < c.numStateVars, ∃ sig noise_, c.sigQ[s]? = some sig ∧
    (f.noiseAll (c.vecInputs.names.getD s ""))[s]? = some (c.Z sig noise_) ∧
    noise_.length = c.sizes.getD s 0 ∧
    c.rowsOf f.vector s = List.zipWith (· + ·) (c.outputOf s) (c.Z sig noise_)

/-- What a block of `h` rows for an entry of `sig_Q` is computed from: the field is made, and
the noise that is found has `h` rows there, or one that is added to all of them. Where blocks
have one row the block after those of the state variables may be empty. -/
def BlockMade (h : ℕ) (noise : List ℝ) (field : ℕ → Option (List ℝ)) (ii : ℕ) : Prop :=
  (∃ W, field ii = some W) ∧
    ((slice noise (ii * h) h).length = h ∨ (slice noise (ii * h) h).length = 1 ∨
      h = 1 ∧ ii = c.numStateVars)

/-- All the blocks that are computed first. -/
def NoiseMade (h : ℕ) : Prop :=
  ∀ ii < min c.sigQ.length (c.numStateVars + 1), c.BlockMade h c.noise (c.field 0 h) ii

/-! ### The loop over `sig_Q` -/

/-- What comes out of a loop has gone in. -/
lemma exists_of_mem_mapM {α β : Type} {f : α → Option β} {l : List α} {r : List β}
    (h : l.mapM f = some r) {b : β} (hb : b ∈ r) : ∃ a ∈ l, f a = some b := by
  obtain ⟨hlen, hentry⟩ := List.forall₂_iff_get.mp (mapM_eq_some_iff.mp h)
  obtain ⟨i, hi, rfl⟩ := List.getElem_of_mem hb
  exact ⟨l[i], List.getElem_mem _, hentry i (hlen ▸ hi) hi⟩

/-- The entries with numbers up to `n` are the first ones. -/
lemma filter_zipIdx {l : List ℝ} {n k : ℕ} (hk : k ≤ n + 1) :
    ((l.zipIdx k).filter fun p => p.2 ≤ n) = (l.take (n + 1 - k)).zipIdx k := by
  induction l generalizing k with
  | nil => simp
  | cons a l ih =>
      rcases Nat.lt_or_ge n k with hlt | hle
      · have hend : n + 1 - k = 0 := by omega
        have hnone : ∀ p ∈ (a :: l).zipIdx k, ¬ (decide (p.2 ≤ n) = true) := by
          intro p hp
          have := List.le_snd_of_mem_zipIdx hp
          rw [decide_eq_true_iff]
          omega
        rw [List.filter_eq_nil_iff.mpr hnone, hend, List.take_zero, List.zipIdx_nil]
      · have hsucc : n + 1 - k = n + 1 - (k + 1) + 1 := by omega
        rw [List.zipIdx_cons, List.filter_cons_of_pos (by simpa using hle), ih (by omega), hsucc,
          List.take_succ_cons, List.zipIdx_cons]

/-- The sum of vectors has the length of the second one, but for a single entry that is written
to nothing. -/
lemma length_npAdd {a b x : List ℝ} (h : npAdd a b = some x) (hle : a.length ≤ b.length) :
    x.length = b.length ∨ b.length = 1 ∧ x.length = 0 := by
  rw [npAdd] at h
  split_ifs at h with h1 h2 h3 <;> cases h
  · rw [List.length_zipWith, h1, min_self]
    exact .inl rfl
  · obtain ⟨y, rfl⟩ := List.length_eq_one_iff.mp h2
    simp
  · obtain ⟨y, rfl⟩ := List.length_eq_one_iff.mp h3
    have hnil : a = [] := List.length_eq_zero_iff.mp (by
      simp only [List.length_singleton] at *
      omega)
    simp [hnil]

lemma exists_npAdd_iff {a b : List ℝ} :
    (∃ x, npAdd a b = some x) ↔ a.length = b.length ∨ a.length = 1 ∨ b.length = 1 := by
  rw [npAdd]
  split_ifs with h1 h2 h3
  · exact iff_of_true ⟨_, rfl⟩ (.inl h1)
  · exact iff_of_true ⟨_, rfl⟩ (.inr (.inl h2))
  · exact iff_of_true ⟨_, rfl⟩ (.inr (.inr h3))
  · refine iff_of_false (fun ⟨_, h⟩ => nomatch h) ?_
    rintro (h | h | h)
    exacts [h1 h, h2 h, h3 h]

section Loop

variable {c} {hdim ii : ℕ} {noise : List ℝ} {field : ℕ → Option (List ℝ)}

/-- The entries of `sig_Q` that are read. -/
lemma exists_mem_filter_iff {P : ℕ → Prop} :
    (∀ p ∈ c.sigQ.zipIdx.filter (fun p => p.2 ≤ c.numStateVars), P p.2) ↔
      ∀ ii < min c.sigQ.length (c.numStateVars + 1), P ii := by
  constructor
  · intro h ii hii
    have hlen : ii < c.sigQ.length := by omega
    refine h (c.sigQ[ii], ii) (List.mem_filter.mpr ⟨?_, by simp; omega⟩)
    exact List.mem_zipIdx_iff_getElem?.mpr (List.getElem?_eq_getElem hlen)
  · intro h p hp
    obtain ⟨hmem, hle⟩ := List.mem_filter.mp hp
    obtain ⟨hlen, -⟩ := List.getElem?_eq_some_iff.mp (List.mem_zipIdx_iff_getElem?.mp hmem)
    rw [decide_eq_true_iff] at hle
    exact h p.2 (by omega)

/-- The loop goes through if every block is computed. -/
lemma exists_noiseLoop_iff : (∃ blocks, c.noiseLoop hdim noise field = some blocks) ↔
    ∀ ii < min c.sigQ.length (c.numStateVars + 1), ∃ noise_, c.mixed hdim noise field ii =
      some noise_ := by
  rw [noiseLoop, exists_mapM_eq_some_iff, ← exists_mem_filter_iff]
  refine forall₂_congr fun p _ => ⟨fun ⟨b, hb⟩ => ?_, fun ⟨noise_, hnoise⟩ => ?_⟩
  · obtain ⟨noise_, hnoise, -⟩ := Option.bind_eq_some_iff.mp hb
    exact ⟨noise_, hnoise⟩
  · exact ⟨(c.Z p.1 noise_, noise_), by rw [hnoise]; rfl⟩

/-- The blocks are computed with the entries of `sig_Q` in their order. -/
lemma length_of_noiseLoop {blocks : List (List ℝ × List ℝ)}
    (h : c.noiseLoop hdim noise field = some blocks) :
    blocks.length = min c.sigQ.length (c.numStateVars + 1) := by
  rw [noiseLoop, filter_zipIdx (Nat.zero_le _), Nat.sub_zero] at h
  rw [← (mapM_eq_some_iff.mp h).length_eq, List.length_zipIdx, List.length_take, Nat.min_comm]

lemma getElem?_of_noiseLoop {blocks : List (List ℝ × List ℝ)}
    (h : c.noiseLoop hdim noise field = some blocks)
    (hii : ii < min c.sigQ.length (c.numStateVars + 1)) :
    ∃ sig noise_, c.sigQ[ii]? = some sig ∧ c.mixed hdim noise field ii = some noise_ ∧
      blocks[ii]? = some (c.Z sig noise_, noise_) := by
  have hlen := length_of_noiseLoop h
  have hii' : ii < c.sigQ.length := by omega
  rw [noiseLoop, filter_zipIdx (Nat.zero_le _), Nat.sub_zero] at h
  have hentry := (List.forall₂_iff_get.mp (mapM_eq_some_iff.mp h)).2 ii
    (by rw [List.length_zipIdx, List.length_take]; omega) (by omega)
  simp only [List.get_eq_getElem, List.getElem_zipIdx, List.getElem_take, Nat.zero_add] at hentry
  obtain ⟨noise_, hnoise, hblock⟩ := Option.bind_eq_some_iff.mp hentry
  refine ⟨c.sigQ[ii], noise_, List.getElem?_eq_getElem hii', hnoise, ?_⟩
  rw [List.getElem?_eq_getElem (by omega)]
  exact hblock.symm

variable (hfield : ∀ ii W, field ii = some W → W.length = hdim)
include hfield

/-- A block has `hdim` rows, or none where `hdim` is one. -/
lemma length_of_mixed {noise_ : List ℝ} (h : c.mixed hdim noise field ii = some noise_) :
    noise_.length = hdim ∨ hdim = 1 ∧ noise_.length = 0 := by
  obtain ⟨W, hW, hadd⟩ := Option.bind_eq_some_iff.mp h
  have hlen := length_npAdd hadd (by
    rw [List.length_map, List.length_map, hfield ii W hW, slice, List.length_take]
    exact Nat.min_le_left _ _)
  rwa [List.length_map, hfield ii W hW] at hlen

/-- No block has more rows than `hdim`. -/
lemma length_le_of_noiseLoop {blocks : List (List ℝ × List ℝ)}
    (h : c.noiseLoop hdim noise field = some blocks) : ∀ p ∈ blocks, p.1.length ≤ hdim := by
  intro p hp
  obtain ⟨a, _, ha⟩ := exists_of_mem_mapM h hp
  obtain ⟨noise_, hmixed, ha⟩ := Option.bind_eq_some_iff.mp ha
  cases ha
  rw [Z, List.length_map]
  rcases length_of_mixed hfield hmixed with h | h <;> omega

end Loop

/-! ### Adding the noise -/

lemma le_divisor : c.numStateVars ≤ c.divisor := by
  rw [divisor]
  split_ifs
  · exact c.valid.numStateVars_le.trans c.valid.vars_le
  · exact le_rfl

variable {c} {data noise : List ℝ} {field : ℕ → ℕ → Option (List ℝ)}

/-- A concatenation of something. -/
lemma npConcatenate_of_length {blocks : List (List ℝ)} (h : 0 < blocks.length) :
    npConcatenate blocks = some blocks.flatten := by
  rw [npConcatenate, if_neg]
  rw [List.isEmpty_iff]
  exact List.ne_nil_of_length_pos h

section Spec

variable {h : ℕ} (hfield : ∀ hdim ii W, field hdim ii = some W → W.length = hdim)
  (hh : data.length / c.divisor = h) (hsig : c.numStateVars ≤ c.sigQ.length)
  (hmade : ∀ ii < min c.sigQ.length (c.numStateVars + 1), c.BlockMade h noise (field h) ii)

include hh in
/-- The rows of the state variables are rows of `data`. -/
lemma length_take_stateBlock :
    (data.take (h * c.numStateVars)).length = h * c.numStateVars := by
  rw [List.length_take_of_le]
  calc h * c.numStateVars ≤ h * c.divisor := Nat.mul_le_mul_left h c.le_divisor
    _ ≤ data.length := hh ▸ Nat.div_mul_le_self _ _

include hfield in
/-- The noise is mixed, to `h` rows for a state variable. -/
lemma BlockMade.mixed {ii : ℕ} (hblock : c.BlockMade h noise (field h) ii) :
    ∃ noise_, c.mixed h noise (field h) ii = some noise_ ∧
      (ii < c.numStateVars → noise_.length = h) := by
  obtain ⟨⟨W, hW⟩, hlen⟩ := hblock
  have hWlen := hfield h ii W hW
  have hadd : ∃ noise_, npAdd ((slice noise (ii * h) h).map (c.alpha * ·))
      (W.map (√(1 - c.alpha ^ 2) * ·)) = some noise_ := by
    rw [exists_npAdd_iff, List.length_map, List.length_map, hWlen]
    rcases hlen with hlen | hlen | ⟨hlen, -⟩
    exacts [.inl hlen, .inr (.inl hlen), .inr (.inr hlen)]
  obtain ⟨noise_, hadd⟩ := hadd
  refine ⟨noise_, by rw [ProcessNoise.mixed, hW]; exact hadd, fun hii => ?_⟩
  have hrows : (slice noise (ii * h) h).length = h ∨ (slice noise (ii * h) h).length = 1 := by
    rcases hlen with hlen | hlen | ⟨-, hlen⟩
    · exact .inl hlen
    · exact .inr hlen
    · omega
  rw [npAdd, List.length_map, List.length_map, hWlen] at hadd
  split_ifs at hadd with h1 h2 h3 <;> cases hadd
  · rw [List.length_zipWith, List.length_map, List.length_map, h1, hWlen, min_self]
  · obtain ⟨y, hy⟩ := List.length_eq_one_iff.mp h2
    simp [hy, hWlen]
  · exact absurd hrows (by omega)

include hfield in
/-- And a block that is computed is made so, where it has the rows of a state variable. -/
lemma BlockMade.of_mixed {ii : ℕ} {noise_ : List ℝ} (hii : ii < c.numStateVars + 1)
    (hmixed : c.mixed h noise (field h) ii = some noise_)
    (hrows : ii < c.numStateVars → noise_.length ≠ 0) : c.BlockMade h noise (field h) ii := by
  obtain ⟨W, hW, hadd⟩ := Option.bind_eq_some_iff.mp hmixed
  have hWlen := hfield h ii W hW
  have hlen := exists_npAdd_iff.mp ⟨noise_, hadd⟩
  rw [List.length_map, List.length_map, hWlen] at hlen
  refine ⟨⟨W, hW⟩, ?_⟩
  rcases hlen with hlen | hlen | hlen
  · exact .inl hlen
  · exact .inr (.inl hlen)
  · rcases Nat.lt_succ_iff_lt_or_eq.mp hii with hlt | heq
    · -- one row, which the sum has only from a row of the noise
      have hle : (slice noise (ii * h) h).length ≤ h := by
        rw [slice, List.length_take]
        exact Nat.min_le_left _ _
      by_contra hnone
      have hnil : slice noise (ii * h) h = [] := List.length_eq_zero_iff.mp (by omega)
      rw [hnil, List.map_nil, npAdd, if_neg (by simp [hWlen, hlen]), if_neg (by simp),
        if_pos (by rw [List.length_map, hWlen, hlen])] at hadd
      refine hrows hlt ?_
      rw [← Option.some.inj hadd, List.length_eq_zero_iff]
      exact List.flatMap_eq_nil_iff.mpr fun y _ => List.map_nil
    · exact .inr (.inr ⟨hlen, heq⟩)

include hfield hh hsig hmade in
/-- What is done to `data`, where `sig_Q` has an entry for every state variable and the blocks
are made. -/
lemma addNoise_eq : ∃ r blocks, c.noiseLoop h noise (field h) = some blocks ∧
    c.addNoise data noise field = some r ∧ r.noiseAll = blocks.map Prod.fst ∧
    (∀ row ∈ (r.noiseAll.take c.numStateVars), row.length = h) ∧
    r.data = put data (List.zipWith (· + ·) (data.take (h * c.numStateVars))
      (r.noiseAll.take c.numStateVars).flatten) 0 := by
  have hpos := c.valid.numStateVars_pos
  have hdata := length_take_stateBlock hh
  obtain ⟨blocks, hloop⟩ := exists_noiseLoop_iff.mpr fun ii hii =>
    ((hmade ii hii).mixed hfield).imp fun _ h => h.1
  have hlen := length_of_noiseLoop hloop
  -- every block that is added has `h` rows, as long as the draws have
  have hrows : ∀ row ∈ (blocks.map Prod.fst).take c.numStateVars, row.length = h := by
    intro row hrow
    obtain ⟨s, hs, rfl⟩ := List.getElem_of_mem hrow
    rw [List.length_take, List.length_map] at hs
    have hlt : s < min c.sigQ.length (c.numStateVars + 1) := by omega
    obtain ⟨sig, noise_, -, hmixed, hblock⟩ := getElem?_of_noiseLoop hloop hlt
    obtain ⟨noise', hmixed', hnoise⟩ := (hmade s (by omega)).mixed hfield
    obtain rfl := Option.some.inj (hmixed.symm.trans hmixed')
    obtain ⟨_, hblock⟩ := List.getElem?_eq_some_iff.mp hblock
    rw [List.getElem_take, List.getElem_map, hblock, Z, List.length_map, hnoise (by omega)]
  have hcount : ((blocks.map Prod.fst).take c.numStateVars).flatten.length =
      h * c.numStateVars := by
    rw [length_flatten hrows, List.length_take, List.length_map, Nat.min_eq_left (by omega),
      Nat.mul_comm]
  -- so the first rows of all blocks are the blocks of the state variables
  have htake : (blocks.map Prod.fst).flatten.take (h * c.numStateVars) =
      ((blocks.map Prod.fst).take c.numStateVars).flatten := by
    nth_rewrite 1 [← List.take_append_drop c.numStateVars (blocks.map Prod.fst)]
    rw [List.flatten_append, List.take_left' hcount]
  have hfst : npConcatenate (blocks.map Prod.fst) = some _ :=
    npConcatenate_of_length (by rw [List.length_map]; omega)
  have hsnd : npConcatenate (blocks.map Prod.snd) = some _ :=
    npConcatenate_of_length (by rw [List.length_map]; omega)
  refine ⟨⟨put data (List.zipWith (· + ·) (data.take (h * c.numStateVars))
      ((blocks.map Prod.fst).take c.numStateVars).flatten) 0, blocks.map Prod.fst,
        (blocks.map Prod.snd).flatten⟩, blocks, hloop, ?_, rfl, hrows, rfl⟩
  rw [addNoise, hh, hloop]
  simp only [Option.bind_eq_bind, Option.bind_some, hfst, hsnd]
  rw [htake, npAdd, if_pos (hdata.trans hcount.symm), Option.bind_some, assignPrefix, if_pos]
  · rfl
  · rw [List.length_zipWith, hdata, hcount, min_self]

include hfield hh hsig hmade in
/-- The blocks of the state variables get theirs, and the other rows stay. -/
lemma addNoise_spec : ∃ r, c.addNoise data noise field = some r ∧
    (∀ s < c.numStateVars, ∃ sig noise_, c.sigQ[s]? = some sig ∧
      r.noiseAll[s]? = some (c.Z sig noise_) ∧ noise_.length = h ∧
      slice r.data (s * h) h = List.zipWith (· + ·) (slice data (s * h) h) (c.Z sig noise_)) ∧
    ∀ a n, h * c.numStateVars ≤ a → slice r.data a n = slice data a n := by
  have hdata := length_take_stateBlock hh
  obtain ⟨r, blocks, hloop, hr, hall, hrows, hput⟩ := addNoise_eq hfield hh hsig hmade
  have hcount : (r.noiseAll.take c.numStateVars).length = c.numStateVars := by
    rw [List.length_take, hall, List.length_map, length_of_noiseLoop hloop]
    omega
  have hlen : (List.zipWith (· + ·) (data.take (h * c.numStateVars))
      (r.noiseAll.take c.numStateVars).flatten).length = h * c.numStateVars := by
    rw [List.length_zipWith, hdata, length_flatten hrows, hcount, Nat.mul_comm, min_self]
  refine ⟨r, hr, fun s hs => ?_, fun a n ha => ?_⟩
  · -- the block of a state variable is cut out of the sum of the two vectors
    have hlt : s < min c.sigQ.length (c.numStateVars + 1) := by omega
    obtain ⟨sig, noise_, hsigs, hmixed, hblock⟩ := getElem?_of_noiseLoop hloop hlt
    have hend : s * h + h ≤ h * c.numStateVars := by
      calc s * h + h = (s + 1) * h := (Nat.succ_mul s h).symm
        _ ≤ c.numStateVars * h := Nat.mul_le_mul_right h hs
        _ = h * c.numStateVars := Nat.mul_comm _ _
    have hget : r.noiseAll[s]? = some (c.Z sig noise_) := by
      rw [hall, List.getElem?_map, hblock, Option.map_some]
    have hget' : (r.noiseAll.take c.numStateVars)[s]? = some (c.Z sig noise_) := by
      rwa [List.getElem?_take_of_lt hs]
    have hrow := hrows _ (List.mem_of_getElem? hget')
    rw [Z, List.length_map] at hrow
    refine ⟨sig, noise_, hsigs, hget, hrow, ?_⟩
    have hseg := slice_put (Nat.zero_le data.length) (hlen.symm ▸ hend)
    rw [Nat.zero_add] at hseg
    rw [hput, hseg, slice_zipWith, slice_take hend, slice_flatten_of_getElem? hrows hget']
  · rw [hput, slice_put_of_ge (Nat.zero_le _) (by rwa [Nat.zero_add, hlen])]

omit hh in
/-- The blocks are those of the loop. -/
lemma noiseLoop_of_addNoise {r : Noised} (hr : c.addNoise data noise field = some r) :
    ∃ blocks, c.noiseLoop (data.length / c.divisor) noise (field (data.length / c.divisor)) =
      some blocks ∧ r.noiseAll = blocks.map Prod.fst := by
  rw [addNoise] at hr
  obtain ⟨blocks, hloop, hr⟩ := Option.bind_eq_some_iff.mp hr
  obtain ⟨noise_, -, hr⟩ := Option.bind_eq_some_iff.mp hr
  obtain ⟨sum, -, hr⟩ := Option.bind_eq_some_iff.mp hr
  obtain ⟨data', -, hr⟩ := Option.bind_eq_some_iff.mp hr
  obtain ⟨noise', -, hr⟩ := Option.bind_eq_some_iff.mp hr
  cases hr
  exact ⟨blocks, hloop, rfl⟩

include hfield hh in
/-- Where state variables get blocks with rows, these are the rows of a block and all blocks
are made. -/
lemma made_of_addNoise {r : Noised} {rows : ℕ → ℕ} (hr : c.addNoise data noise field = some r)
    (hrows : ∀ s < c.numStateVars, 1 ≤ rows s)
    (hblocks : ∀ s < c.numStateVars, ∃ sig noise_, r.noiseAll[s]? = some (c.Z sig noise_) ∧
      noise_.length = rows s) :
    (∀ s < c.numStateVars, rows s = h) ∧
      ∀ ii < min c.sigQ.length (c.numStateVars + 1), c.BlockMade h noise (field h) ii := by
  obtain ⟨blocks, hloop, hall⟩ := noiseLoop_of_addNoise hr
  rw [hh] at hloop
  have hlen := length_of_noiseLoop hloop
  -- the blocks of the state variables are those that the loop has made
  have hrow : ∀ s < c.numStateVars, ∃ noise_, c.mixed h noise (field h) s = some noise_ ∧
      noise_.length = rows s := by
    intro s hs
    obtain ⟨sig, noise_, hget, hcount⟩ := hblocks s hs
    have hlt : s < (blocks.map Prod.fst).length := by
      rw [← hall]
      exact (List.getElem?_eq_some_iff.mp hget).1
    rw [List.length_map, hlen] at hlt
    obtain ⟨sig', noise', -, hmixed, hblock⟩ := getElem?_of_noiseLoop hloop hlt
    rw [hall, List.getElem?_map, hblock, Option.map_some] at hget
    have hZ := congrArg List.length (Option.some.inj hget)
    rw [Z, Z, List.length_map, List.length_map] at hZ
    exact ⟨noise', hmixed, hZ.trans hcount⟩
  constructor
  · intro s hs
    obtain ⟨noise_, hmixed, hcount⟩ := hrow s hs
    have := hrows s hs
    rcases length_of_mixed (hfield h) hmixed with h | h <;> omega
  · intro ii hii
    obtain ⟨noise_, hmixed⟩ := exists_noiseLoop_iff.mp ⟨blocks, hloop⟩ ii hii
    refine .of_mixed hfield (by omega) hmixed fun hlt => ?_
    obtain ⟨noise', hmixed', hcount⟩ := hrow ii hlt
    obtain rfl := Option.some.inj (hmixed.symm.trans hmixed')
    have := hrows ii hlt
    omega

end Spec

/-! ### The field of the default method -/

/-- The keyword arguments of `generate_enkf_field` in the loop over `sig_Q`. There is one
decorrelation length, so that `ii_sig` only says which draws are made. -/
def fieldArgs (numVars : ℕ+) (LxDim : PosLength) (gridExtension hdim : ℕ+) : EnkfFieldArgs where
  noiseDim := hdim
  numVars := numVars
  LxDim := some LxDim
  iiSig := some ⟨0, numVars.pos⟩
  rh := none
  gridExtension := gridExtension
  rh_length := nofun

/-- `generate_enkf_field`, as it is called in the loop; no field has no entries. -/
noncomputable def enkfField (brentq : RootFinder) (numVars : ℕ+) (LxDim : PosLength)
    (gridExtension : ℕ+) (draw : ℕ → ℕ → ℕ → ℝ) (n hdim ii : ℕ) : Option (List ℝ) :=
  if h : 0 < hdim then
    (generateEnkfField brentq (fieldArgs numVars LxDim gridExtension ⟨hdim, h⟩)
      fun _ => draw n ii).toOption
  else none

section EnkfField

variable {brentq : RootFinder} {numVars gridExtension hdim : ℕ+} {LxDim : PosLength}
  {draw : ℕ → ℕ → ℕ → ℝ} {n ii : ℕ}

lemma enkfField_eq_some_iff {W : List ℝ} :
    enkfField brentq numVars LxDim gridExtension draw n hdim ii = some W ↔
      generateEnkfField brentq (fieldArgs numVars LxDim gridExtension hdim) (fun _ => draw n ii) =
        .ok W := by
  have hcall : enkfField brentq numVars LxDim gridExtension draw n hdim ii = (generateEnkfField
      brentq (fieldArgs numVars LxDim gridExtension hdim) fun _ => draw n ii).toOption :=
    dif_pos hdim.pos
  rw [hcall]
  cases generateEnkfField brentq (fieldArgs numVars LxDim gridExtension hdim)
      fun _ => draw n ii with
  | error e => exact iff_of_false nofun nofun
  | ok q => exact ⟨fun h => congrArg _ (Option.some.inj h), fun h => congrArg _ (Except.ok.inj h)⟩

/-- It has `noise_dim` entries. -/
lemma length_enkfField {W : List ℝ}
    (h : enkfField brentq numVars LxDim gridExtension draw n hdim ii = some W) :
    W.length = hdim := by
  rw [enkfField_eq_some_iff, generateEnkfField] at h
  split at h
  · exact (EnkfFieldArgs.ring_samplesWhere _).length_eq _ _ _ _ h
  · exact (EnkfFieldArgs.generator_samplesWhere brentq _ _).length_eq _ _ _ _ h

/-- It returns for supported arguments. -/
lemma exists_enkfField_iff : (∃ W, enkfField brentq numVars LxDim gridExtension draw n hdim ii =
    some W) ↔ (fieldArgs numVars LxDim gridExtension hdim).Supported := by
  rw [← EnkfFieldArgs.returns_iff_supported brentq _ fun _ => draw n ii, EnkfFieldArgs.Returns]
  refine exists_congr fun W => ⟨fun h => ⟨enkfField_eq_some_iff.mp h, length_enkfField h⟩,
    fun h => enkfField_eq_some_iff.mpr h.1⟩

/-- Where noise is made with it. -/
lemma noiseMade_enkfField_iff
    (hc : c.field = enkfField brentq numVars LxDim gridExtension draw) (hsig : c.sigQ ≠ []) :
    c.NoiseMade hdim ↔ (fieldArgs numVars LxDim gridExtension hdim).Supported ∧
      ∀ ii < min c.sigQ.length (c.numStateVars + 1),
        (slice c.noise (ii * hdim) hdim).length = hdim ∨
          (slice c.noise (ii * hdim) hdim).length = 1 ∨
            (hdim : ℕ) = 1 ∧ ii = c.numStateVars := by
  have hpos : 0 < c.sigQ.length := List.length_pos_iff.mpr hsig
  simp only [NoiseMade, BlockMade, hc, exists_enkfField_iff]
  exact ⟨fun h => ⟨(h 0 (by omega)).1, fun ii hii => (h ii hii).2⟩,
    fun h ii hii => ⟨h.1, h.2 ii hii⟩⟩

/-- The default `Lx = Ly = 1` is taken for no length, which a short field needs. -/
lemma supported_fieldArgs_iff (hlt : (hdim : ℕ) < 100) :
    (fieldArgs numVars LxDim gridExtension hdim).Supported ↔ LxDim.1 ≠ 1 := by
  have hcall : (fieldArgs numVars LxDim gridExtension hdim).Supported ↔
      ∃ L, some LxDim = some L ∧ L.1 ≠ 1 := iff_of_eq (if_pos hlt)
  rw [hcall]
  constructor
  · rintro ⟨L, hL, hne⟩
    rwa [← Option.some.inj hL] at hne
  · exact fun h => ⟨LxDim, rfl, h⟩

end EnkfField

/-! ### The assembled vector -/

/-- Writing to consecutive rows. -/
lemma assignRows_range' {vec value : List ℝ} {o : ℕ} (h : o + value.length ≤ vec.length) :
    assignRows vec (List.range' o value.length) value = put vec value o := by
  induction value generalizing vec o with
  | nil => simp [assignRows, put]
  | cons x value ih =>
      rw [List.length_cons] at h
      have hset : assignRows vec (List.range' o (x :: value).length) (x :: value) =
          assignRows (vec.set o x) (List.range' (o + 1) value.length) value := rfl
      have htake : (vec.set o x).take (o + 1) = vec.take o ++ [x] := by
        rw [List.set_eq_take_append_cons_drop, if_pos (by omega), List.take_append,
          List.take_of_length_le (by rw [List.length_take]; omega), List.length_take,
          Nat.min_eq_left (by omega), Nat.add_sub_cancel_left, List.take_succ_cons, List.take_zero]
      rw [hset, ih (by rw [List.length_set]; omega), put, put, htake,
        List.drop_set_of_lt (by omega), List.length_cons, List.append_assoc, List.append_assoc,
        List.append_assoc, List.singleton_append]
      congr 4
      omega

variable (c)

/-- The rows of a variable, by the index map. -/
lemma indices_indexMap {i : ℕ} (hi : i < c.vecInputs.names.length) :
    c.indexMap.indices (c.vecInputs.names.getD i "") =
      List.range' (c.sizes.take i).sum (c.sizes.getD i 0) := by
  have hsize : (partitionCuts (c.sizes.getD i 0) 1 Nat.one_pos).size 0 = c.sizes.getD i 0 := by
    rw [Cuts.size, Cuts.cut_zero, Cuts.cut_last, Nat.sub_zero]
  rw [indexMap, indices_varNdResult Nat.one_pos 0 hi, Cuts.cut_zero, Nat.add_zero, hsize]

variable {c} {i k : ℕ} {vec : List ℝ}

/-- The block of a variable is in the vector. -/
lemma take_sum_add_le (hi : i < c.vecInputs.names.length) :
    (c.sizes.take i).sum + c.sizes.getD i 0 ≤ c.sizes.sum := by
  have hend := (Cuts.ofSizes c.sizes).cut_add_size (r := i) (by rwa [c.valid.length_sizes])
  rw [Cuts.cut_ofSizes, Cuts.size_ofSizes] at hend
  rw [hend]
  exact (Cuts.ofSizes c.sizes).cut_le (by rw [c.valid.length_sizes]; exact hi)

/-- What one entry of `updated_state` does to the vector. -/
lemma assignRows_eq (hk : k < c.vecInputs.names.length) (hvec : vec.length = c.sizes.sum) :
    assignRows vec (c.indexMap.indices (c.vecInputs.names.getD k ""))
      (c.output (c.vecInputs.names.getD k "")) = put vec (c.outputOf k) (c.sizes.take k).sum := by
  rw [c.indices_indexMap hk, ← c.valid.length_output k hk, assignRows_range', outputOf]
  rw [c.valid.length_output k hk, hvec]
  exact take_sum_add_le hk

lemma rowsOf_put_self (hk : k < c.vecInputs.names.length) (hvec : vec.length = c.sizes.sum) :
    c.rowsOf (put vec (c.outputOf k) (c.sizes.take k).sum) k = c.outputOf k := by
  have hle := take_sum_add_le hk
  rw [rowsOf, ← c.valid.length_output k hk]
  exact slice_put_self (by omega)

/-- The rows of the other variables stay. -/
lemma rowsOf_put_of_ne (hi : i < c.vecInputs.names.length) (hk : k < c.vecInputs.names.length)
    (hvec : vec.length = c.sizes.sum) (hne : i ≠ k) :
    c.rowsOf (put vec (c.outputOf k) (c.sizes.take k).sum) i = c.rowsOf vec i := by
  have hle := take_sum_add_le hk
  have hlen : (c.outputOf k).length = c.sizes.getD k 0 := c.valid.length_output k hk
  have hcut := fun {r s : ℕ} (h : r < s) (hs : s < c.vecInputs.names.length) =>
    (Cuts.ofSizes c.sizes).cut_add_size_le h (by rw [c.valid.length_sizes]; exact hs.le)
  simp only [Cuts.cut_ofSizes, Cuts.size_ofSizes] at hcut
  rcases lt_or_gt_of_ne hne with hlt | hlt
  · exact slice_put_of_le (by omega) (hcut hlt hk)
  · exact slice_put_of_ge (by omega) (hlen ▸ hcut hlt hi)

/-- The loop over the entries, in any order. -/
lemma rowsOf_foldl {keys : List String} (hkeys : ∀ key ∈ keys, key ∈ c.vecInputs.names)
    (hvec : vec.length = c.sizes.sum) (hi : i < c.vecInputs.names.length) :
    c.rowsOf (keys.foldl (fun vec key =>
      assignRows vec (c.indexMap.indices key) (c.output key)) vec) i =
        if c.vecInputs.names.getD i "" ∈ keys then c.outputOf i else c.rowsOf vec i := by
  induction keys generalizing vec with
  | nil => rfl
  | cons key keys ih =>
      obtain ⟨k, hk, rfl⟩ := List.getElem_of_mem (hkeys key List.mem_cons_self)
      rw [← List.getD_eq_getElem _ "" hk] at *
      rw [List.foldl_cons, assignRows_eq hk hvec,
        ih (fun key h => hkeys key (List.mem_cons_of_mem _ h))]
      · rcases eq_or_ne i k with rfl | hne
        · simp [rowsOf_put_self hi hvec]
        · have hname : c.vecInputs.names.getD i "" ≠ c.vecInputs.names.getD k "" := by
            rw [List.getD_eq_getElem _ _ hi, List.getD_eq_getElem _ _ hk]
            exact fun h => hne ((c.vecInputs.nodup.getElem_inj_iff).mp h)
          rw [rowsOf_put_of_ne hi hk hvec hne]
          simp only [List.mem_cons, hname, false_or]
      · rw [length_put, hvec]
        rw [hvec]
        exact (c.valid.length_output k hk) ▸ take_sum_add_le hk

/-- The vector has what the model returned, and its length. -/
lemma rowsOf_assembled (hi : i < c.vecInputs.names.length) :
    c.rowsOf c.assembled i = c.outputOf i := by
  rw [assembled, rowsOf_foldl (fun key h => c.valid.order_perm.subset h) c.valid.length_before hi,
    if_pos]
  rw [List.getD_eq_getElem _ _ hi]
  exact c.valid.order_perm.symm.subset (List.getElem_mem hi)

lemma length_assembled : c.assembled.length = c.sizes.sum := by
  have hset : ∀ (l : List (ℕ × ℝ)) (vec : List ℝ),
      (l.foldl (fun v p => v.set p.1 p.2) vec).length = vec.length := by
    intro l
    induction l with
    | nil => exact fun _ => rfl
    | cons p l ih => exact fun vec => (ih _).trans List.length_set
  rw [assembled, ← c.valid.length_before]
  generalize c.before = vec
  induction c.order generalizing vec with
  | nil => rfl
  | cons key keys ih => exact (ih _).trans (hset _ vec)

/-! ### At least as many members as ranks -/

/-- Where state variables have their noise, `sig_Q` is long enough. -/
lemma StateNoiseOnly.le_length {f : Forecast} (h : c.StateNoiseOnly f) :
    c.numStateVars ≤ c.sigQ.length := by
  have hpos := c.valid.numStateVars_pos
  obtain ⟨sig, _, hsig, _⟩ := h.state (c.numStateVars - 1) (by omega)
  obtain ⟨hlt, _⟩ := List.getElem?_eq_some_iff.mp hsig
  omega

/-- State variables of `h` rows begin at the multiples of `h`. -/
lemma sum_take_sizes {h : ℕ} (hsizes : ∀ s < c.numStateVars, c.sizes.getD s 0 = h) {s : ℕ}
    (hs : s ≤ c.numStateVars) : (c.sizes.take s).sum = s * h := by
  induction s with
  | zero => rw [List.take_zero, List.sum_nil, Nat.zero_mul]
  | succ s ih =>
      have hadd := (Cuts.ofSizes c.sizes).cut_add_size (r := s)
        (by rw [c.valid.length_sizes]; exact hs.trans c.valid.numStateVars_le)
      rw [Cuts.cut_ofSizes, Cuts.cut_ofSizes, Cuts.size_ofSizes, hsizes s hs, ih (by omega)] at hadd
      rw [← hadd, Nat.succ_mul]

lemma forecastBatch_iff : (∃ f, c.forecastBatch = some f ∧ c.StateNoiseOnly f) ↔
    c.numStateVars ≤ c.sigQ.length ∧
      (∀ s < c.numStateVars, c.sizes.getD s 0 = c.sizes.sum / c.divisor) ∧
        c.NoiseMade (c.sizes.sum / c.divisor) := by
  have hh : c.assembled.length / c.divisor = c.sizes.sum / c.divisor := by rw [length_assembled]
  constructor
  · rintro ⟨f, hf, hnoise⟩
    obtain ⟨r, hr, hf⟩ := Option.bind_eq_some_iff.mp hf
    cases hf
    refine ⟨hnoise.le_length, made_of_addNoise (c.valid.length_field 0) hh hr c.valid.state_rows
      fun s hs => ?_⟩
    obtain ⟨sig, noise_, -, hget, hlen, -⟩ := hnoise.state s hs
    exact ⟨sig, noise_, hget, hlen⟩
  · rintro ⟨hsig, hsizes, hmade⟩
    obtain ⟨r, hr, hblocks, hother⟩ := addNoise_spec (c.valid.length_field 0) hh hsig hmade
    refine ⟨⟨r.data, fun _ => r.noiseAll⟩, by rw [forecastBatch, hr]; rfl, ?_, fun s hs => ?_⟩
    · intro i hi hlt
      -- a parameter lies behind the rows of the state variables
      have hcut := (Cuts.ofSizes c.sizes).cut_le_cut hi (by rw [c.valid.length_sizes]; exact hlt.le)
      rw [Cuts.cut_ofSizes, Cuts.cut_ofSizes, sum_take_sizes hsizes le_rfl, Nat.mul_comm] at hcut
      exact (hother _ _ hcut).trans (rowsOf_assembled hlt)
    · obtain ⟨sig, noise_, hsigs, hget, hlen, hrows⟩ := hblocks s hs
      -- a state variable has exactly the rows of its block
      refine ⟨sig, noise_, hsigs, hget, hlen.trans (hsizes s hs).symm, ?_⟩
      rw [← rowsOf_assembled (hs.trans_le c.valid.numStateVars_le), rowsOf, rowsOf,
        sum_take_sizes hsizes hs.le, hsizes s hs, hrows]

/-! ### Fewer members than ranks -/

/-- No block has more rows than the data have for a variable. -/
lemma length_le_of_addNoise (hfield : ∀ hdim ii W, field hdim ii = some W → W.length = hdim)
    {r : Noised} (h : c.addNoise data noise field = some r) :
    ∀ block ∈ r.noiseAll, block.length ≤ data.length / c.divisor := by
  obtain ⟨blocks, hloop, hall⟩ := noiseLoop_of_addNoise h
  intro block hmem
  rw [hall] at hmem
  obtain ⟨p, hp, rfl⟩ := List.mem_map.mp hmem
  exact length_le_of_noiseLoop (hfield _) hloop p hp

/-- Every entry that the loop leaves was made from the output for its key. -/
lemma addNoise_of_mem_keyLoop {n : ℕ} {keys : List String} {globalData : List (String × Noised)}
    (h : c.keyLoop n keys noise = some globalData) :
    ∀ p ∈ globalData, ∃ n' noise', c.addNoise (c.output p.1) noise' (c.field n') = some p.2 := by
  induction keys generalizing n noise globalData with
  | nil =>
      cases h
      exact fun p hp => absurd hp List.not_mem_nil
  | cons key keys ih =>
      rw [keyLoop] at h
      obtain ⟨r, hr, h⟩ := Option.bind_eq_some_iff.mp h
      obtain ⟨rest, hrest, h⟩ := Option.bind_eq_some_iff.mp h
      cases h
      intro p hp
      rcases List.mem_cons.mp hp with rfl | hmem
      · exact ⟨n, noise, hr⟩
      · exact ih hrest p hmem

/-- So the first state variable is given all its rows only if nothing is divided. -/
lemma divisor_eq_one_of_forecastSplit {f : Forecast} (hf : c.forecastSplit = some f)
    (h : c.StateNoiseOnly f) : c.divisor = 1 := by
  have hpos := c.valid.numStateVars_pos
  have hrows := c.valid.state_rows 0 hpos
  have hlt : 0 < c.vecInputs.names.length := hpos.trans c.valid.numStateVars_le
  obtain ⟨globalData, hloop, hf⟩ := Option.bind_eq_some_iff.mp hf
  cases hf
  obtain ⟨sig, noise_, -, hget, hlen, -⟩ := h.state 0 hpos
  dsimp only at hget
  cases hfind : globalData.find? fun p => p.1 = c.vecInputs.names.getD 0 "" with
  | none =>
      rw [hfind] at hget
      cases hget
  | some p =>
      rw [hfind] at hget
      have hkey : p.1 = c.vecInputs.names.getD 0 "" := by simpa using List.find?_some hfind
      obtain ⟨n, noise', hadd⟩ := addNoise_of_mem_keyLoop hloop p (List.mem_of_find?_eq_some hfind)
      have hle := length_le_of_addNoise (c.valid.length_field n) hadd _ (List.mem_of_getElem? hget)
      rw [Z, List.length_map, hlen, hkey, c.valid.length_output 0 hlt] at hle
      have hd : 1 ≤ c.divisor := hpos.trans c.le_divisor
      by_contra hne
      have := Nat.div_lt_self hrows (show 1 < c.divisor by omega)
      omega

/-- Where nothing is divided there is one variable. -/
lemma length_names_of_divisor (h : c.divisor = 1) : c.vecInputs.names.length = 1 := by
  have hpos := c.valid.numStateVars_pos
  have hle := c.valid.numStateVars_le
  have hvars := c.valid.vars_le
  rw [divisor] at h
  split_ifs at h with hjoint
  · omega
  · have := c.valid.vars_eq (by simpa using hjoint)
    omega

/-- What is left of the loop over the keys for a single variable. -/
lemma forecastSplit_single (hd : c.divisor = 1) : ∃ a n, c.vecInputs.names = [a] ∧
    c.sizes = [n] ∧ (c.output a).length = n ∧ c.numStateVars = 1 ∧
    c.forecastSplit = (c.addNoise (c.output a) c.noise (c.field 0)).map fun r =>
      ⟨[r.data].flatten, fun key =>
        (([(a, r)].find? fun p => p.1 = key).map fun p => p.2.noiseAll).getD []⟩ := by
  have hnames := length_names_of_divisor hd
  obtain ⟨a, ha⟩ := List.length_eq_one_iff.mp hnames
  obtain ⟨n, hn⟩ := List.length_eq_one_iff.mp (c.valid.length_sizes.trans hnames)
  have horder : c.order = [a] := List.perm_singleton.mp (ha ▸ c.valid.order_perm)
  have hout : (c.output a).length = n := by
    have := c.valid.length_output 0 (by omega)
    rwa [ha, hn] at this
  refine ⟨a, n, ha, hn, hout,
    le_antisymm (hnames ▸ c.valid.numStateVars_le) c.valid.numStateVars_pos, ?_⟩
  rw [forecastSplit, horder, keyLoop]
  cases c.addNoise (c.output a) c.noise (c.field 0) <;> rfl

lemma forecastSplit_iff : (∃ f, c.forecastSplit = some f ∧ c.StateNoiseOnly f) ↔
    c.divisor = 1 ∧ c.sigQ ≠ [] ∧ c.NoiseMade c.sizes.sum := by
  have hpos := c.valid.numStateVars_pos
  constructor
  · rintro ⟨f, hf, hnoise⟩
    have hle := hnoise.le_length
    have hd := divisor_eq_one_of_forecastSplit hf hnoise
    -- there is a single variable, whose output is the whole state
    obtain ⟨a, n, ha, hn, hout, hvars, hsplit⟩ := forecastSplit_single hd
    obtain ⟨r, hr, rfl⟩ := Option.map_eq_some_iff.mp (hsplit.symm.trans hf)
    have hh : (c.output a).length / c.divisor = c.sizes.sum := by
      rw [hout, hd, Nat.div_one, hn, List.sum_singleton]
    refine ⟨hd, List.ne_nil_of_length_pos (by omega),
      (made_of_addNoise (c.valid.length_field 0) hh hr c.valid.state_rows fun s hs => ?_).2⟩
    obtain rfl : s = 0 := by omega
    obtain ⟨sig, noise_, -, hget, hlen, -⟩ := hnoise.state 0 hs
    have hname : c.vecInputs.names.getD 0 "" = a := by rw [ha]; rfl
    refine ⟨sig, noise_, ?_, hlen⟩
    rw [hname] at hget
    simpa using hget
  · rintro ⟨hd, hne, hmade⟩
    obtain ⟨a, n, ha, hn, hout, hvars, hsplit⟩ := forecastSplit_single hd
    have hsum : c.sizes.sum = n := by rw [hn, List.sum_singleton]
    have hh : (c.output a).length / c.divisor = c.sizes.sum := by rw [hout, hd, Nat.div_one, hsum]
    have hsig : c.numStateVars ≤ c.sigQ.length := hvars ▸ List.length_pos_iff.mpr hne
    obtain ⟨r, hr, hblocks, -⟩ := addNoise_spec (c.valid.length_field 0) hh hsig hmade
    rw [hr, Option.map_some] at hsplit
    refine ⟨_, hsplit, fun i hi hlt => ?_, fun s hs => ?_⟩
    · -- no parameter is left
      rw [ha, List.length_singleton] at hlt
      omega
    · obtain rfl : s = 0 := by omega
      obtain ⟨sig, noise_, hsigs, hget, hlen, hrows⟩ := hblocks 0 hs
      have hname : c.vecInputs.names.getD 0 "" = a := by rw [ha]; rfl
      have hwhole : slice (c.output a) 0 n = c.output a := by
        rw [slice, List.drop_zero, List.take_of_length_le hout.le]
      refine ⟨sig, noise_, hsigs, ?_, ?_, ?_⟩
      · rw [hname]
        simpa using hget
      · rw [hlen, hsum, hn]
        rfl
      · rw [hsum, Nat.zero_mul, hwhole] at hrows
        rw [rowsOf, outputOf, hname, hn, List.flatten_singleton]
        exact hrows

/-- **The noise of a forecast**: it comes to the state variables only, each with its block,
on an assembled vector exactly if `sig_Q` is long enough and every state variable has the
rows of a block, and entry by entry exactly if there is a single variable; and if what the
blocks are computed from is there. -/
theorem stateNoiseOnly_iff (c : ProcessNoise) :
    ((∃ f, c.forecastBatch = some f ∧ c.StateNoiseOnly f) ↔
      c.numStateVars ≤ c.sigQ.length ∧
        (∀ s < c.numStateVars, c.sizes.getD s 0 = c.sizes.sum / c.divisor) ∧
          c.NoiseMade (c.sizes.sum / c.divisor)) ∧
    ((∃ f, c.forecastSplit = some f ∧ c.StateNoiseOnly f) ↔
      c.divisor = 1 ∧ c.sigQ ≠ [] ∧ c.NoiseMade c.sizes.sum) :=
  ⟨forecastBatch_iff, forecastSplit_iff⟩

/-- The names of a thickness and a parameter. -/
def thicknessNames : List String := ["h", "smb"]

lemma nodup_thicknessNames : thicknessNames.Nodup := by decide

/-- A thickness and a parameter of two rows each. -/
noncomputable def thicknessInput : NoiseInput where
  vecInputs := ⟨thicknessNames, nodup_thicknessNames⟩
  sizes := [2, 2]
  numStateVars := 1
  totalVars := 2
  joint := true
  sigQ := [1, 1]
  alpha := 0
  rho := 1
  dt := 1
  noise := List.replicate 4 0
  field _ hdim _ := some (List.replicate hdim 1)
  before := List.replicate 4 0
  order := thicknessNames
  output _ := [0, 0]

lemma valid_thicknessInput : thicknessInput.Valid where
  length_sizes := rfl
  numStateVars_pos := le_rfl
  numStateVars_le := by decide
  vars_le := by decide
  vars_eq := by decide
  state_rows s hs := by
    have hs' : s < 1 := hs
    obtain rfl : s = 0 := by omega
    decide
  length_field _ hdim _ W hW := by
    rw [← Option.some.inj hW, List.length_replicate]
  length_before := List.length_replicate
  order_perm := List.Perm.refl _
  length_output i hi := by
    have hi' : i < 2 := hi
    obtain rfl | rfl : i = 0 ∨ i = 1 := by omega
    · rfl
    · rfl

noncomputable def thicknessAndParameter : ProcessNoise := ⟨thicknessInput, valid_thicknessInput⟩

/-- With fewer members than ranks its blocks have one row. -/
theorem not_stateNoiseOnly_thicknessAndParameter :
    ¬ ∃ f, thicknessAndParameter.forecastSplit = some f ∧
      thicknessAndParameter.StateNoiseOnly f := by
  rintro ⟨f, hf, hnoise⟩
  have hdivisor : thicknessAndParameter.divisor = 2 := rfl
  have hone := divisor_eq_one_of_forecastSplit hf hnoise
  omega

end ProcessNoise

end Icesee
