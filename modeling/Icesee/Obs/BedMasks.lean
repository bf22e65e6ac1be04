import Icesee.Lib.Keyed
import Icesee.Lib.Masks
import Icesee.Obs.Synthetic

/-!
The static masks of the bed observations.

Both generators of synthetic observations build a mask for every bed variable, by the same
chain of priorities (`choice`): an explicit mask, explicit indices, a spacing in points, a
stride in kilometres. `fullMask` is the body of the loop of `EnKF_fully_parallel_IO`,
`partialMask` that of `UtilsFunctions`, and `bedMaskMap` and `bedMaskMapStatic` are the
maps that the loops build. The bodies differ in what they do with a mask of the wrong size,
in the unit of the stride and the size of the mask on a mesh, and in whether a stride
means anything off a mesh; the loops differ in what they take for a bed.
`bedMaskMap_eq_iff` says when the maps are the same.
-/

namespace Icesee

open Masks

/-! ### The options and the chain of priorities -/

/-- An exception of a loop that builds bed masks. -/
inductive MaskError where
  | meshNotFound (message : String)
  | cannotOpen (file : String)
  | emptyMesh
  | zeroStride
  | sizeMismatch
  deriving DecidableEq, Repr

/-- What the loops read. An option is `none` if it is not given, or not of the type that
its priority asks for; `mesh` has the vertices `/fric_x`, `/fric_y` in metres, if there is
a mesh file, `dim key` is the length of `indx_map[key]`, and `hdim` is
`nd // total_state_param_vars`. -/
structure BedOptions where
  bedObsMask : Option (List Bool)
  bedObsIndices : Option (List ℤ)
  bedObsSpacing : Option ℤ
  bedObsStride : Option ℚ
  bedObsStrideKm : Option ℚ
  lx : Option ℚ
  ly : Option ℚ
  modelName : String
  iceseePath : String
  dataPath : String
  mesh : Option (List (ℚ × ℚ))
  dim : String → ℕ
  hdim : ℕ

/-- What the chain of priorities settles on. -/
inductive BedChoice where
  | mask (um : List Bool)
  | indices (idxs : List ℤ)
  | spacing (n : ℕ)
  | stride (s lx ly : ℚ)
  | everywhere
  deriving DecidableEq, Repr

/-- `re.match(r"(?i)^issm$", name)`: case is ignored as Python does, and `$` also matches
before a newline at the end. -/
def matchesIssm (name : String) : Bool :=
  match name.toList with
  | [i, s, s', m] => issm i s s' m
  | [i, s, s', m, '\n'] => issm i s s' m
  | _ => false
where
  issm (i s s' m : Char) : Bool :=
    i ∈ ['i', 'I', 'İ', 'ı'] && s ∈ ['s', 'S', 'ſ'] && s' ∈ ['s', 'S', 'ſ'] && m ∈ ['m', 'M']

namespace BedOptions

variable (cfg : BedOptions)

/-- The chain `if … elif … elif … elif …`, given the stride in kilometres. -/
def choice (bedStrideKm : Option ℚ) : BedChoice :=
  match cfg.bedObsMask with
  | some um => .mask um
  | none =>
    match cfg.bedObsIndices with
    | some idxs => .indices idxs
    | none =>
      match cfg.bedObsSpacing.filter (1 < ·) with
      | some n => .spacing n.toNat
      | none =>
        match bedStrideKm, cfg.lx, cfg.ly with
        | some s, some lx, some ly => .stride s lx ly
        | _, _, _ => .everywhere

/-- `bed_stride_km` of `EnKF_fully_parallel_IO`, which accepts either name. -/
def strideKm : Option ℚ := cfg.bedObsStride <|> cfg.bedObsStrideKm

/-- The name of the mesh file. -/
def meshFile : String := cfg.iceseePath ++ "/" ++ cfg.dataPath ++ "/mesh_idxy_0.h5"

/-! ### The priorities -/

/-- Priority 2: the indices that are in range. -/
def indexMask (n : ℕ) (idxs : List ℤ) : List Bool :=
  mark (List.replicate n false) ((idxs.filter fun i : ℤ => 0 ≤ i ∧ i < n).map Int.toNat) true

/-- Priority 3: `mask[::k] = True`. -/
def spacingMask (n k : ℕ) : List Bool := mark (List.replicate n false) (strided n k) true

/-- The coordinates along the flow, in kilometres. -/
def xParam (mesh : List (ℚ × ℚ)) : List ℚ := mesh.map fun v => v.1 / 1000

def xMin (mesh : List (ℚ × ℚ)) : ℚ := (xParam mesh).min?.getD 0

def xMax (mesh : List (ℚ × ℚ)) : ℚ := (xParam mesh).max?.getD 0

/-- `np.arange(start, stop, step)`. -/
def arange (start stop step : ℚ) : List ℚ :=
  (List.range ⌈(stop - start) / step⌉.toNat).map fun i => start + i * step

/-- The tracks across the flow. -/
def xLines (mesh : List (ℚ × ℚ)) (stride : ℚ) : List ℚ :=
  arange (xMin mesh) (xMax mesh + 1 / 1000000) stride

/-- Half the nominal distance of two tracks. -/
def band (mesh : List (ℚ × ℚ)) (stride : ℚ) : ℚ :=
  1 / 2 * if 1 < (xLines mesh stride).length
    then (xMax mesh - xMin mesh) / ((xLines mesh stride).length - 1 : ℕ) else stride

/-- `mask |= other`: the sizes agree, or `other` has one entry for all of the mask. -/
def orInPlace (mask other : List Bool) : Except MaskError (List Bool) :=
  if other.length = mask.length then return List.zipWith (· || ·) mask other
  else match other with
    | [b] => return mask.map (· || b)
    | _ => throw .sizeMismatch

/-- `|x_param - x_line| <= band`. -/
def nearLine (mesh : List (ℚ × ℚ)) (stride xLine : ℚ) : List Bool :=
  (xParam mesh).map fun x => decide (|x - xLine| ≤ band mesh stride)

/-- Priority 4 on a mesh: a mask of size `n`, with the vertices that are near a track. The
minimum of no coordinates and a range without a step raise. -/
def trackMask (n : ℕ) (mesh : List (ℚ × ℚ)) (stride : ℚ) : Except MaskError (List Bool) :=
  if mesh = [] then throw .emptyMesh
  else if stride = 0 then throw .zeroStride
  else (xLines mesh stride).foldlM (fun mask xLine => orInPlace mask (nearLine mesh stride xLine))
    (List.replicate n false)

/-- `max(int(round(s / max(d, 1e-12))), 1)`. -/
def stridePts (s d : ℚ) : ℕ := (max (roundHalfEven (s / max d (1 / 10 ^ 12))) 1).toNat

/-- The number of rows of a grid with rows of `nx`. -/
def gridRows (n nx : ℕ) : ℕ := if 0 < nx then n / nx else 1

/-- Priority 4 off a mesh, in `EnKF_fully_parallel_IO`: along the vector if it is not a grid
with rows of `hdim`, and by rows otherwise. -/
def gridMask (n : ℕ) (s lx ly : ℚ) : List Bool :=
  let nx := cfg.hdim
  let ny := gridRows n nx
  if nx * ny ≠ n then spacingMask n (stridePts s (lx / (max (nx - 1) 1 : ℕ)))
  else
    (mark (List.replicate ny (List.replicate nx false))
      (strided ny (stridePts s (ly / (max (ny - 1) 1 : ℕ)))) (List.replicate nx true)).flatten

/-- Priority 1 in `EnKF_fully_parallel_IO`: a mask of another size is repeated and cut. -/
def fitMask (n : ℕ) (msk : List Bool) : List Bool :=
  if msk.length = n then msk
  else if 0 < msk.length then (tile ⌈(n : ℚ) / msk.length⌉₊ msk).take n
  else List.replicate n true

/-! ### The two loops -/

/-- The mask that `EnKF_fully_parallel_IO` builds for a bed of `n` entries. -/
def fullMask (n : ℕ) : Except MaskError (List Bool) :=
  match cfg.choice cfg.strideKm with
  | .mask um => return fitMask n um
  | .indices idxs => return indexMask n idxs
  | .spacing k => return spacingMask n k
  | .stride s lx ly =>
    if matchesIssm cfg.modelName then
      match cfg.mesh with
      | none => throw (.meshNotFound ("ISSM mesh file '" ++ cfg.meshFile ++ "' not found. " ++
          "Please generate the mesh indicies before running ICESEE."))
      | some mesh => trackMask mesh.length mesh (s / 1000)
    else return cfg.gridMask n s lx ly
  | .everywhere => return List.replicate n true

/-- The mask that `UtilsFunctions` builds for a bed of `n` entries. -/
def partialMask (n : ℕ) : Except MaskError (List Bool) :=
  match cfg.choice cfg.bedObsStride with
  | .mask um => return if um.length = n then um else List.replicate n true
  | .indices idxs => return indexMask n idxs
  | .spacing k => return spacingMask n k
  | .stride s _ _ =>
    if matchesIssm cfg.modelName then
      match cfg.mesh with
      | none => throw (.cannotOpen cfg.meshFile)
      | some mesh => trackMask n mesh s
    else return List.replicate n true
  | .everywhere => return List.replicate n true

/-- A turn of the loop of `EnKF_fully_parallel_IO`. -/
def fullBed (key : String) : Option (Except MaskError (List Bool)) :=
  if ObsSetup.keyIsBedExact key then some (cfg.fullMask (cfg.dim key)) else none

/-- A turn of the loop of `UtilsFunctions`. -/
def partialBed (key : String) : Option (Except MaskError (List Bool)) :=
  if ObsSetup.keyIsBed key then some (cfg.partialMask (cfg.dim key)) else none

/-- `bed_mask_map` of `EnKF_fully_parallel_IO`. -/
def bedMaskMap (vecInputs : List String) : Except MaskError (String → Option (List Bool)) :=
  Keyed.table cfg.fullBed vecInputs

/-- `bed_mask_map_static` of `UtilsFunctions`. -/
def bedMaskMapStatic (vecInputs : List String) :
    Except MaskError (String → Option (List Bool)) :=
  Keyed.table cfg.partialBed vecInputs

/-! ### When the priorities agree -/

variable {cfg} {n : ℕ} {um : List Bool} {mesh : List (ℚ × ℚ)} {s lx ly : ℚ}

/-- Priority 1: the mask has the right size, is empty, or observes everything wherever its
repetitions reach. -/
def FitsOrOnes (um : List Bool) (n : ℕ) : Prop :=
  um.length = n ∨ um = [] ∨ ∀ i < n, um[i % um.length]? = some true

lemma getElem?_fitMask {i : ℕ} (h : um.length ≠ n) (hpos : 0 < um.length) (hi : i < n) :
    (fitMask n um)[i]? = um[i % um.length]? := by
  have hcast : (0 : ℚ) < um.length := by exact_mod_cast hpos
  have hreach : n ≤ ⌈(n : ℚ) / um.length⌉₊ * um.length := by
    have := (div_le_iff₀ hcast).mp (Nat.le_ceil ((n : ℚ) / um.length))
    exact_mod_cast this
  rw [fitMask, if_neg h, if_pos hpos, List.getElem?_take_of_lt hi,
    getElem?_tile (hi.trans_le hreach)]

lemma length_fitMask : (fitMask n um).length = n := by
  rw [fitMask]
  split_ifs with h hpos
  · exact h
  · have hcast : (0 : ℚ) < um.length := by exact_mod_cast hpos
    have := (div_le_iff₀ hcast).mp (Nat.le_ceil ((n : ℚ) / um.length))
    rw [List.length_take, length_tile, min_eq_left (by exact_mod_cast this)]
  · exact List.length_replicate

lemma fitMask_eq_iff :
    fitMask n um = (if um.length = n then um else List.replicate n true) ↔ FitsOrOnes um n := by
  by_cases h : um.length = n
  · simp [fitMask, FitsOrOnes, h]
  rw [if_neg h, FitsOrOnes]
  rcases Nat.eq_zero_or_pos um.length with h0 | hpos
  · rw [List.length_eq_zero_iff] at h0
    rw [fitMask, if_neg h]
    simp [h0]
  have hne : um ≠ [] := List.ne_nil_of_length_pos hpos
  simp only [h, hne, false_or]
  refine ⟨fun heq i hi => ?_, fun hones => List.ext_getElem? fun i => ?_⟩
  · rw [← getElem?_fitMask h hpos hi, heq, List.getElem?_replicate_of_lt hi]
  · rcases lt_or_ge i n with hi | hi
    · rw [getElem?_fitMask h hpos hi, hones i hi, List.getElem?_replicate_of_lt hi]
    · rw [List.getElem?_eq_none (by rwa [length_fitMask]), List.getElem?_eq_none (by simpa)]

lemma stridePts_pos {d : ℚ} : 0 < stridePts s d := by
  rw [stridePts]
  omega

lemma stridePts_le_one_iff {d : ℚ} : stridePts s d ≤ 1 ↔ s / max d (1 / 10 ^ 12) < 3 / 2 := by
  rw [← roundHalfEven_le_one_iff, stridePts]
  omega

lemma spacingMask_eq_iff {k : ℕ} (hk : 0 < k) :
    spacingMask n k = List.replicate n true ↔ n ≤ 1 ∨ k ≤ 1 :=
  (mark_replicate_eq_iff (by decide)).trans (forall_mem_strided_iff hk)

/-- Priority 4 off a mesh: the stride is so small that no point, or no row of the grid, is
left out. -/
def DenseGrid (cfg : BedOptions) (n : ℕ) (s lx ly : ℚ) : Prop :=
  if cfg.hdim * gridRows n cfg.hdim ≠ n then
    n ≤ 1 ∨ s / max (lx / (max (cfg.hdim - 1) 1 : ℕ)) (1 / 10 ^ 12) < 3 / 2
  else n = 0 ∨ gridRows n cfg.hdim ≤ 1 ∨
    s / max (ly / (max (gridRows n cfg.hdim - 1) 1 : ℕ)) (1 / 10 ^ 12) < 3 / 2

/-- Rows of one value, read row by row. -/
lemma flatten_rows_eq_iff {nx ny : ℕ} {js : List ℕ} (hnx : 0 < nx) :
    (mark (List.replicate ny (List.replicate nx false)) js (List.replicate nx true)).flatten =
      List.replicate (nx * ny) true ↔ ∀ j < ny, j ∈ js := by
  have hrow : List.replicate nx false ≠ List.replicate nx true := by
    simp [List.replicate_inj, hnx.ne']
  refine ⟨fun heq => ?_, fun h => ?_⟩
  · by_contra! hmiss
    obtain ⟨j, hj, hmem⟩ := hmiss
    have hget : (mark (List.replicate ny (List.replicate nx false)) js
        (List.replicate nx true))[j]? = _ := getElem?_mark (by simpa)
    rw [if_neg hmem, List.getElem?_replicate_of_lt hj] at hget
    have hfalse : false ∈ List.replicate (nx * ny) true := by
      rw [← heq, List.mem_flatten]
      exact ⟨_, List.mem_of_getElem? hget, by simp [hnx.ne']⟩
    simp at hfalse
  · rw [(mark_replicate_eq_iff hrow).mpr h, List.flatten_replicate_replicate, Nat.mul_comm]

lemma gridMask_eq_iff :
    cfg.gridMask n s lx ly = List.replicate n true ↔ cfg.DenseGrid n s lx ly := by
  rw [gridMask, DenseGrid]
  by_cases hgrid : cfg.hdim * gridRows n cfg.hdim = n
  · rw [if_neg (not_not.mpr hgrid), if_neg (not_not.mpr hgrid)]
    rcases Nat.eq_zero_or_pos cfg.hdim with h0 | hpos
    · have hn : n = 0 := by rw [← hgrid, h0, Nat.zero_mul]
      refine iff_of_true ?_ (.inl hn)
      simp only [h0, hn, List.replicate_zero]
      rw [mark_replicate_self, List.flatten_replicate_nil]
    · have hempty : n = 0 → gridRows n cfg.hdim ≤ 1 := by
        rintro rfl
        rw [gridRows, if_pos hpos, Nat.zero_div]
        exact Nat.zero_le 1
      rw [← or_assoc, or_iff_right_of_imp hempty, ← stridePts_le_one_iff,
        ← forall_mem_strided_iff stridePts_pos, ← flatten_rows_eq_iff hpos, hgrid]
  · rw [if_pos hgrid, if_pos hgrid, ← stridePts_le_one_iff, ← spacingMask_eq_iff stridePts_pos]

/-- A vertex is near a track. -/
def OnTrack (mesh : List (ℚ × ℚ)) (s x : ℚ) : Prop :=
  ∃ xLine ∈ xLines mesh s, |x - xLine| ≤ band mesh s

instance (x : ℚ) : Decidable (OnTrack mesh s x) :=
  inferInstanceAs (Decidable (∃ xLine ∈ xLines mesh s, |x - xLine| ≤ band mesh s))

lemma length_orInPlace {mask other m : List Bool} (h : orInPlace mask other = .ok m) :
    m.length = mask.length := by
  unfold orInPlace at h
  split_ifs at h with hlen
  · obtain rfl := Except.ok.inj h
    simp [hlen]
  · split at h
    · obtain rfl := Except.ok.inj h
      simp
    · cases h

/-- Whatever the sizes, a mask keeps its size. -/
lemma length_trackMask {m : List Bool} (h : trackMask n mesh s = .ok m) : m.length = n := by
  have key : ∀ (lines : List ℚ) (m₀ : List Bool), lines.foldlM (fun mask xLine =>
      orInPlace mask (nearLine mesh s xLine)) m₀ = .ok m → m.length = m₀.length := by
    intro lines
    induction lines with
    | nil =>
        intro m₀ h₀
        obtain rfl := Except.ok.inj h₀
        rfl
    | cons line lines ih =>
        intro m₀ h₀
        rw [List.foldlM_cons] at h₀
        obtain ⟨m₁, h₁, hrest⟩ := Keyed.bind_eq_ok.mp h₀
        rw [ih m₁ hrest, length_orInPlace h₁]
  rw [trackMask] at h
  split_ifs at h
  rw [key _ _ h, List.length_replicate]

/-- A mask of the size of the mesh has the vertices that are near a track. -/
lemma trackMask_length (hmesh : mesh ≠ []) (hs : s ≠ 0) :
    trackMask mesh.length mesh s = .ok ((xParam mesh).map fun x => decide (OnTrack mesh s x)) := by
  have key : ∀ (lines : List ℚ) (p : ℚ → Bool), lines.foldlM (fun mask xLine =>
      orInPlace mask (nearLine mesh s xLine)) ((xParam mesh).map p) =
        .ok ((xParam mesh).map fun x => p x || decide (∃ l ∈ lines, |x - l| ≤ band mesh s)) := by
    intro lines
    induction lines with
    | nil =>
        intro p
        simp [pure, Except.pure]
    | cons line lines ih =>
        intro p
        have hstep : orInPlace ((xParam mesh).map p) (nearLine mesh s line) =
            .ok ((xParam mesh).map fun x => p x || decide (|x - line| ≤ band mesh s)) := by
          unfold orInPlace
          rw [if_pos (by simp [nearLine]), nearLine, List.zipWith_map, List.zipWith_self]
          rfl
        rw [List.foldlM_cons, hstep]
        refine (ih _).trans (congrArg _ (List.map_congr_left fun x _ => ?_))
        simp [Bool.or_assoc]
  have hzero : List.replicate mesh.length false = (xParam mesh).map fun _ => false := by
    simp [xParam]
  rw [trackMask, if_neg hmesh, if_neg hs, hzero, key]
  exact congrArg _ (List.map_congr_left fun x _ => Bool.false_or _)

/-- Without vertices or without a stride there are no tracks. -/
lemma trackMask_unusable (h : mesh = [] ∨ s = 0) : ∃ e, trackMask n mesh s = .error e := by
  by_cases hmesh : mesh = []
  · exact ⟨_, if_pos hmesh⟩
  · exact ⟨_, (if_neg hmesh).trans (if_pos (h.resolve_left hmesh))⟩

/-- So is a mesh with the stride in metres. -/
lemma trackMask_metres_unusable (h : mesh = [] ∨ s = 0) :
    ∃ e, trackMask n mesh (s / 1000) = .error e :=
  trackMask_unusable (h.imp_right fun hs => by rw [hs, zero_div])

lemma trackMask_metres_length (h : ¬ (mesh = [] ∨ s = 0)) :
    trackMask mesh.length mesh (s / 1000) =
      .ok ((xParam mesh).map fun x => decide (OnTrack mesh (s / 1000) x)) := by
  obtain ⟨hmesh, hs⟩ := not_or.mp h
  exact trackMask_length hmesh (div_ne_zero hs (by norm_num))

/-- The two masks on a mesh, with the stride in the two units. -/
lemma trackMask_toOption_eq_iff :
    (trackMask mesh.length mesh (s / 1000)).toOption = (trackMask n mesh s).toOption ↔
      mesh = [] ∨ s = 0 ∨
        mesh.length = n ∧ ∀ x ∈ xParam mesh, OnTrack mesh (s / 1000) x ↔ OnTrack mesh s x := by
  by_cases hun : mesh = [] ∨ s = 0
  · obtain ⟨e, he⟩ := trackMask_metres_unusable (n := mesh.length) hun
    obtain ⟨e', he'⟩ := trackMask_unusable (n := n) hun
    rw [he, he', ← or_assoc]
    exact iff_of_true rfl (.inl hun)
  obtain ⟨hmesh, hs⟩ := not_or.mp hun
  have hfull := trackMask_metres_length hun
  simp only [hmesh, hs, false_or]
  refine ⟨fun h => ?_, ?_⟩
  · have hstatic := (Keyed.toOption_eq_iff.mp h _).mp hfull
    have hn : mesh.length = n := by simpa [xParam] using length_trackMask hstatic
    subst hn
    have hmaps := Except.ok.inj (hstatic.symm.trans (trackMask_length hmesh hs))
    exact ⟨rfl, fun x hx => by simpa using List.map_inj_left.mp hmaps x hx⟩
  · rintro ⟨rfl, hx⟩
    rw [hfull, trackMask_length hmesh hs]
    exact congrArg some (List.map_congr_left fun x hmem => by simp [hx x hmem])

/-- The mask on a mesh observes everything. -/
lemma trackMask_eq_replicate_iff :
    (trackMask mesh.length mesh s).toOption = some (List.replicate n true) ↔
      (mesh ≠ [] ∧ s ≠ 0) ∧ mesh.length = n ∧ ∀ x ∈ xParam mesh, OnTrack mesh s x := by
  by_cases hun : mesh = [] ∨ s = 0
  · obtain ⟨e, he⟩ := trackMask_unusable (n := mesh.length) hun
    rw [he]
    exact iff_of_false nofun fun h => hun.elim h.1.1 h.1.2
  obtain ⟨hmesh, hs⟩ := not_or.mp hun
  have hsize : (xParam mesh).length = mesh.length := by simp [xParam]
  rw [trackMask_length hmesh hs]
  simp [Except.toOption, hmesh, hs, List.eq_replicate_iff, hsize]

/-- A mesh with nothing to build tracks from: no file, no vertex, or no stride. -/
def Unreadable (cfg : BedOptions) (s : ℚ) : Prop :=
  cfg.mesh = none ∨ cfg.mesh = some [] ∨ s = 0

/-- Priority 4 on a mesh, with the stride under the name that both loops read: the mesh has
a vertex for every entry, and the same ones are near a track if the stride is in metres. -/
def TracksAgree (cfg : BedOptions) (n : ℕ) (s : ℚ) : Prop :=
  cfg.Unreadable s ∨ ∃ mesh, cfg.mesh = some mesh ∧ mesh.length = n ∧
    ∀ x ∈ xParam mesh, OnTrack mesh (s / 1000) x ↔ OnTrack mesh s x

/-- Priority 4 on a mesh, with the stride under the other name: the mesh has a vertex for
every entry, and all of them are near a track. -/
def TracksEverywhere (cfg : BedOptions) (n : ℕ) (s : ℚ) : Prop :=
  ¬ cfg.Unreadable s ∧ ∃ mesh, cfg.mesh = some mesh ∧ mesh.length = n ∧
    ∀ x ∈ xParam mesh, OnTrack mesh (s / 1000) x

/-- The condition on the options under which a bed of `n` entries gets the same mask. -/
def MasksAgree (cfg : BedOptions) (n : ℕ) : Prop :=
  match cfg.choice cfg.strideKm with
  | .mask um => FitsOrOnes um n
  | .stride s lx ly =>
    if matchesIssm cfg.modelName then
      if cfg.bedObsStride.isSome then cfg.TracksAgree n s else cfg.TracksEverywhere n s
    else cfg.DenseGrid n s lx ly
  | _ => True

/-- `UtilsFunctions` settles on the same, but for a stride under the other name. -/
lemma choice_bedObsStride : cfg.choice cfg.bedObsStride =
    match cfg.choice cfg.strideKm with
    | .stride s lx ly => if cfg.bedObsStride.isSome then .stride s lx ly else .everywhere
    | c => c := by
  simp only [choice, strideKm]
  rcases cfg.bedObsMask with _ | um
  · rcases cfg.bedObsIndices with _ | idxs
    · generalize Option.filter _ cfg.bedObsSpacing = spacing
      rcases spacing with _ | k
      · rcases cfg.bedObsStride with _ | s <;> rcases cfg.bedObsStrideKm with _ | s' <;>
          rcases cfg.lx with _ | lx <;> rcases cfg.ly with _ | ly <;> rfl
      · rfl
    · rfl
  · rfl

/-- **A bed of `n` entries** gets the same mask in both loops, or an exception in both. -/
theorem mask_toOption_eq_iff :
    (cfg.fullMask n).toOption = (cfg.partialMask n).toOption ↔ cfg.MasksAgree n := by
  rw [fullMask, partialMask, choice_bedObsStride, MasksAgree]
  -- only a given mask and the tracks of a stride are read in different ways
  cases cfg.choice cfg.strideKm with
  | mask um => exact Option.some_inj.trans fitMask_eq_iff
  | indices idxs => exact iff_of_true rfl trivial
  | spacing k => exact iff_of_true rfl trivial
  | everywhere => exact iff_of_true rfl trivial
  | stride s lx ly =>
      by_cases hissm : matchesIssm cfg.modelName
      · simp only [hissm, if_true]
        rcases cfg.bedObsStride with _ | s₀
        · simp only [Option.isSome_none, Bool.false_eq_true, if_false, TracksEverywhere, Unreadable]
          rcases cfg.mesh with _ | mesh
          · simp [Except.toOption, Keyed.throw_eq, pure, Except.pure]
          · refine trackMask_eq_replicate_iff.trans ?_
            simp [not_or]
        · simp only [Option.isSome_some, if_true, TracksAgree, Unreadable]
          rcases cfg.mesh with _ | mesh
          · simp [Except.toOption, Keyed.throw_eq]
          · refine trackMask_toOption_eq_iff.trans ?_
            simp [or_assoc]
      · simp only [hissm]
        rw [← gridMask_eq_iff]
        rcases cfg.bedObsStride with _ | s₀ <;> exact Option.some_inj

/-! ### The two maps -/

variable {vecInputs : List String}

/-- `EnKF_fully_parallel_IO` raises, whatever the bed: priority 4 on an unusable mesh. -/
def FullRaises (cfg : BedOptions) : Prop :=
  ∃ s lx ly, cfg.choice cfg.strideKm = .stride s lx ly ∧ matchesIssm cfg.modelName ∧
    cfg.Unreadable s

lemma fullMask_eq_error_iff : (∃ e, cfg.fullMask n = .error e) ↔ cfg.FullRaises := by
  rw [fullMask, FullRaises]
  cases cfg.choice cfg.strideKm with
  | stride s lx ly =>
      by_cases hissm : matchesIssm cfg.modelName
      · rcases hmesh : cfg.mesh with _ | mesh
        · simp [hissm, hmesh, Unreadable, Keyed.throw_eq]
        by_cases hun : mesh = [] ∨ s = 0
        · obtain ⟨e, he⟩ := trackMask_metres_unusable (n := mesh.length) hun
          simp [hissm, hmesh, Unreadable, he, hun]
        · simp [hissm, hmesh, Unreadable, trackMask_metres_length hun, not_or.mp hun]
      · simp [hissm, pure, Except.pure]
  | _ => simp [pure, Except.pure]

/-- `UtilsFunctions` raises at priority 4 only, so with the stride under the name it reads. -/
lemma isSome_of_partialMask_eq_error {e : MaskError} (h : cfg.partialMask n = .error e) :
    cfg.bedObsStride.isSome := by
  by_contra hnone
  rw [partialMask, choice_bedObsStride] at h
  cases hc : cfg.choice cfg.strideKm <;> simp [hc, hnone, pure, Except.pure] at h

/-- **The condition on the maps**: every variable that one loop takes for a bed is one that
both do, and its mask is the same; or a bed is reached with a mesh that neither can use. -/
def MapsAgree (cfg : BedOptions) (vecInputs : List String) : Prop :=
  (∀ key ∈ vecInputs, ObsSetup.keyIsBed key →
      ObsSetup.keyIsBedExact key ∧ cfg.MasksAgree (cfg.dim key)) ∨
    (cfg.FullRaises ∧ cfg.bedObsStride.isSome ∧ ∃ key ∈ vecInputs, ObsSetup.keyIsBedExact key)

lemma keyIsBed_of_exact {key : String} (h : ObsSetup.keyIsBedExact key) :
    ObsSetup.keyIsBed key := by
  have hlower : ∀ key ∈ ObsSetup.bedAliases, key.toLower = key := by decide +kernel
  have hmem := of_decide_eq_true h
  exact decide_eq_true (by rwa [hlower key hmem])

lemma masksAgree_of_fullRaises (hraise : cfg.FullRaises) (hsome : cfg.bedObsStride.isSome) :
    cfg.MasksAgree n := by
  obtain ⟨s, lx, ly, hc, hissm, hun⟩ := hraise
  simp only [MasksAgree, hc, hissm, hsome, if_true]
  exact .inl hun

/-- The loop of `EnKF_fully_parallel_IO` fails at its first bed or not at all. -/
lemma raises_fullBed_iff : Keyed.Raises cfg.fullBed vecInputs ↔
    cfg.FullRaises ∧ ∃ key ∈ vecInputs, ObsSetup.keyIsBedExact key := by
  refine ⟨?_, ?_⟩
  · rintro ⟨key, hmem, e, he⟩
    rw [fullBed, Option.ite_none_right_eq_some, Option.some_inj] at he
    exact ⟨fullMask_eq_error_iff.mp ⟨e, he.2⟩, key, hmem, he.1⟩
  · rintro ⟨hraise, key, hmem, hbed⟩
    obtain ⟨e, he⟩ := fullMask_eq_error_iff (n := cfg.dim key).mpr hraise
    exact ⟨key, hmem, e, by rw [fullBed, if_pos hbed, he]⟩

lemma entry_fullBed {key : String} : Keyed.entry? cfg.fullBed key =
    if ObsSetup.keyIsBedExact key then (cfg.fullMask (cfg.dim key)).toOption else none := by
  rw [Keyed.entry?, fullBed]
  split_ifs <;> rfl

lemma entry_partialBed {key : String} : Keyed.entry? cfg.partialBed key =
    if ObsSetup.keyIsBed key then (cfg.partialMask (cfg.dim key)).toOption else none := by
  rw [Keyed.entry?, partialBed]
  split_ifs <;> rfl

lemma raises_partialBed_iff : Keyed.Raises cfg.partialBed vecInputs ↔
    ∃ key ∈ vecInputs, ObsSetup.keyIsBed key ∧
      (cfg.partialMask (cfg.dim key)).toOption = none := by
  refine exists_congr fun key => and_congr_right fun _ => ?_
  rw [partialBed]
  split_ifs with hbed
  · rcases cfg.partialMask (cfg.dim key) with e | m <;> simp [hbed, Except.toOption]
  · simp [hbed]

/-- Where the one loop raises, the maps are the same if the other raises too. -/
lemma raises_partialBed_iff_mapsAgree (hfull : Keyed.Raises cfg.fullBed vecInputs) :
    Keyed.Raises cfg.partialBed vecInputs ↔ cfg.MapsAgree vecInputs := by
  obtain ⟨hraise, key, hmem, hexact⟩ := raises_fullBed_iff.mp hfull
  refine ⟨fun hstatic => ?_, fun hagree => ?_⟩
  · obtain ⟨key', hmem', e, he⟩ := hstatic
    rw [partialBed, Option.ite_none_right_eq_some, Option.some_inj] at he
    exact .inr ⟨hraise, isSome_of_partialMask_eq_error he.2, key, hmem, hexact⟩
  · have hmask : cfg.MasksAgree (cfg.dim key) := by
      rcases hagree with hall | ⟨-, hsome, -⟩
      · exact (hall key hmem (keyIsBed_of_exact hexact)).2
      · exact masksAgree_of_fullRaises hraise hsome
    obtain ⟨e, he⟩ := fullMask_eq_error_iff (n := cfg.dim key).mpr hraise
    have hnone := mask_toOption_eq_iff.mpr hmask
    rw [he] at hnone
    exact raises_partialBed_iff.mpr ⟨key, hmem, keyIsBed_of_exact hexact, hnone.symm⟩

/-- **The bed masks of the two generators** are the same if and only if the options agree
on them: for every variable that one of the loops takes for a bed. -/
theorem bedMaskMap_eq_iff (cfg : BedOptions) (vecInputs : List String) :
    (cfg.bedMaskMap vecInputs).toOption = (cfg.bedMaskMapStatic vecInputs).toOption ↔
      cfg.MapsAgree vecInputs := by
  rw [bedMaskMap, bedMaskMapStatic, Keyed.table_toOption_eq_iff]
  by_cases hfull : Keyed.Raises cfg.fullBed vecInputs
  · rw [← raises_partialBed_iff_mapsAgree hfull]
    simp [hfull]
  -- the full loop raises nowhere, so the other one must not raise either
  have hleft : cfg.MapsAgree vecInputs ↔ ∀ key ∈ vecInputs, ObsSetup.keyIsBed key →
      ObsSetup.keyIsBedExact key ∧ cfg.MasksAgree (cfg.dim key) :=
    or_iff_left fun ⟨hraise, _, hexact⟩ => hfull (raises_fullBed_iff.mpr ⟨hraise, hexact⟩)
  simp only [hfull, false_iff, not_false_eq_true, forall_true_left, hleft]
  refine ⟨fun ⟨hstatic, hentries⟩ key hmem hbed => ?_, fun hall => ⟨fun hstatic => ?_, ?_⟩⟩
  · have hentry := hentries key hmem
    rw [entry_fullBed, entry_partialBed, if_pos hbed] at hentry
    by_cases hexact : ObsSetup.keyIsBedExact key
    · rw [if_pos hexact] at hentry
      exact ⟨hexact, mask_toOption_eq_iff.mp hentry⟩
    · -- the partial loop has a mask for this key and the full one has none
      rw [if_neg hexact] at hentry
      exact absurd (raises_partialBed_iff.mpr ⟨key, hmem, hbed, hentry.symm⟩) hstatic
  · obtain ⟨key, hmem, hbed, hnone⟩ := raises_partialBed_iff.mp hstatic
    obtain ⟨hexact, hmask⟩ := hall key hmem hbed
    rw [← mask_toOption_eq_iff.mpr hmask] at hnone
    rcases hm : cfg.fullMask (cfg.dim key) with e | m
    · exact hfull ⟨key, hmem, e, by rw [fullBed, if_pos hexact, hm]⟩
    · simp [hm, Except.toOption] at hnone
  · intro key hmem
    rw [entry_fullBed, entry_partialBed]
    by_cases hbed : ObsSetup.keyIsBed key
    · obtain ⟨hexact, hmask⟩ := hall key hmem hbed
      rw [if_pos hexact, if_pos hbed, mask_toOption_eq_iff.mpr hmask]
    · rw [if_neg hbed, if_neg (mt keyIsBed_of_exact hbed)]

/-- A bed of three entries and an explicit mask of two. -/
def maskOfTwo : BedOptions where
  bedObsMask := some [true, false]
  bedObsIndices := none
  bedObsSpacing := none
  bedObsStride := none
  bedObsStrideKm := none
  lx := none
  ly := none
  modelName := "icepack"
  iceseePath := "."
  dataPath := "_modelrun_datasets"
  mesh := none
  dim _ := 3
  hdim := 3

/-- The mask is repeated by the one loop and set aside by the other: entry `1` is observed
in partial mode only. -/
theorem not_bedMaskMap_eq_maskOfTwo :
    (maskOfTwo.bedMaskMap ["bed"]).toOption.bind (· "bed") = some [true, false, true] ∧
    (maskOfTwo.bedMaskMapStatic ["bed"]).toOption.bind (· "bed") = some [true, true, true] ∧
    (maskOfTwo.bedMaskMap ["bed"]).toOption ≠ (maskOfTwo.bedMaskMapStatic ["bed"]).toOption := by
  have hfull : (maskOfTwo.bedMaskMap ["bed"]).toOption.bind (· "bed") =
      some [true, false, true] := by decide +kernel
  have hstatic : (maskOfTwo.bedMaskMapStatic ["bed"]).toOption.bind (· "bed") =
      some [true, true, true] := by decide +kernel
  refine ⟨hfull, hstatic, fun heq => ?_⟩
  rw [heq, hstatic] at hfull
  exact absurd hfull (by decide)

end BedOptions

end Icesee
