import Icesee.Obs.Synthetic

/-!
The observation operators, and whether they select what was observed.

In partial mode `generate_synthetic_observations` writes the observations together with
the bed masks and the map from steps to columns, `load_bed_masks_from_h5` reads these
back, and `JObs_fun` builds `H` from them for every column. In full mode `H_matrix` is
called once, without masks. Either operator is the list of the state entries that its
rows select, an entry being a variable and a local index as in `Obs.Synthetic`;
`ObsSetup.row` is its row in the state.

`partialSelection_iff` and `fullSelection_iff` say when the operators select the entries
that were drawn.
-/

namespace Icesee

open Counting

/-! ### Rows of the state -/

namespace ObsSetup

variable (cfg : ObsSetup)

/-- The first row of a variable: `np.cumsum` of the sizes before it. -/
def offset (key : String) : ℕ := ((cfg.vecInputs.takeWhile (· ≠ key)).map cfg.dim).sum

/-- `indx_map[key][i]`. -/
def row (e : String × ℕ) : ℕ := cfg.offset e.1 + e.2

/-- The number of rows of the state. -/
def nModel : ℕ := (cfg.vecInputs.map cfg.dim).sum

/-- An entry of the state. -/
def IsEntry (e : String × ℕ) : Prop := e.1 ∈ cfg.vecInputs ∧ e.2 < cfg.dim e.1

variable {cfg}

/-- The variables up to `key` fit into the state. -/
lemma offset_add_dim_le {key : String} (h : key ∈ cfg.vecInputs) :
    cfg.offset key + cfg.dim key ≤ cfg.nModel := by
  have hsplit : ∀ l : List String, key ∈ l →
      ((l.takeWhile (· ≠ key)).map cfg.dim).sum + cfg.dim key ≤ (l.map cfg.dim).sum := by
    intro l
    induction l with
    | nil => simp
    | cons a l ih =>
        intro hmem
        by_cases ha : a = key
        · subst ha
          simp
        · have := ih ((List.mem_cons.mp hmem).resolve_left (Ne.symm ha))
          rw [List.takeWhile_cons_of_pos (by simpa using ha)]
          simp only [List.map_cons, List.sum_cons]
          omega
  exact hsplit _ h

lemma row_lt {e : String × ℕ} (h : cfg.IsEntry e) : cfg.row e < cfg.nModel := by
  have := offset_add_dim_le h.1
  have := h.2
  rw [row]
  omega

/-- Variables do not overlap: of two of them one ends before the other begins. -/
lemma offset_disjoint {a b : String} (ha : a ∈ cfg.vecInputs) (hb : b ∈ cfg.vecInputs)
    (hne : a ≠ b) : cfg.offset a + cfg.dim a ≤ cfg.offset b ∨
      cfg.offset b + cfg.dim b ≤ cfg.offset a := by
  -- for any list of variables, by induction
  have hsplit : ∀ l : List String, a ∈ l → b ∈ l →
      ((l.takeWhile (· ≠ a)).map cfg.dim).sum + cfg.dim a ≤
          ((l.takeWhile (· ≠ b)).map cfg.dim).sum ∨
        ((l.takeWhile (· ≠ b)).map cfg.dim).sum + cfg.dim b ≤
          ((l.takeWhile (· ≠ a)).map cfg.dim).sum := by
    intro l
    induction l with
    | nil => simp
    | cons x l ih =>
        intro hal hbl
        by_cases hxa : x = a
        · subst hxa
          rw [List.takeWhile_cons_of_pos (p := (· ≠ b)) (by simpa using hne)]
          simp
        · by_cases hxb : x = b
          · subst hxb
            rw [List.takeWhile_cons_of_pos (p := (· ≠ a)) (by simpa using hxa)]
            simp
          · have := ih ((List.mem_cons.mp hal).resolve_left (Ne.symm hxa))
              ((List.mem_cons.mp hbl).resolve_left (Ne.symm hxb))
            rw [List.takeWhile_cons_of_pos (by simpa using hxa),
              List.takeWhile_cons_of_pos (by simpa using hxb)]
            simp only [List.map_cons, List.sum_cons]
            omega
  exact hsplit _ ha hb

/-- An entry is determined by its row. -/
lemma row_injOn {e f : String × ℕ} (he : cfg.IsEntry e) (hf : cfg.IsEntry f)
    (h : cfg.row e = cfg.row f) : e = f := by
  have hlte := he.2
  have hltf := hf.2
  rw [row, row] at h
  by_cases hkey : e.1 = f.1
  · rw [hkey] at h
    exact Prod.ext hkey (by omega)
  · have := offset_disjoint he.1 hf.1 hkey
    omega

end ObsSetup

/-! ### `UtilsFunctions.H_matrix` -/

/-- An exception of `H_matrix`. -/
inductive OperatorError where
  | keyError
  | valueError
  deriving DecidableEq, Repr

/-- What `H_matrix` reads of the masks: by variable the static mask and, by column, the
mask of the column. -/
structure BedMasks where
  static : List (String × List Bool)
  cols : List (String × (ℕ → List Bool))
  snapCols : List ℕ

namespace ObsSetup

variable (cfg : ObsSetup)

/-- `idx[mask]`, with the check of the sizes. -/
def selectMask (mask : List Bool) (idx : List ℕ) : Except OperatorError (List ℕ) :=
  if mask.length ≠ idx.length then throw .valueError
  else return idx.filter fun i => mask.getD i false

/-- The local indices of a bed: none where the loop continues with the next variable. -/
def bedIndices (masks : BedMasks) (km : Option ℕ) (key : String) (idx : List ℕ) :
    Except OperatorError (List ℕ) :=
  match km with
  | some km =>
      if km ∉ masks.snapCols then return []
      else match masks.cols.lookup key with
        | some mask => selectMask (mask km) idx
        | none => match masks.static.lookup key with
          | some mask => selectMask mask idx
          | none => return []
  | none => match masks.static.lookup key with
      | some mask => selectMask mask idx
      | none => return idx

/-- The entries that one observed variable contributes. -/
def keyIndices (masks : BedMasks) (km : Option ℕ) (obsMaskFull : Option (String → ℕ → Bool))
    (key : String) : Except OperatorError (List (String × ℕ)) := do
  if key ∉ cfg.vecInputs then throw .keyError
  let idx ← if keyIsBed key then bedIndices masks km key (List.range (cfg.dim key))
    else pure (List.range (cfg.dim key))
  let idx := match obsMaskFull with
    | some mask => idx.filter (mask key)
    | none => idx
  return idx.map fun i => (key, i)

/-- The entries that the rows of `H` select. -/
def hMatrix (masks : BedMasks) (observed : List String) (km : Option ℕ)
    (obsMaskFull : Option (String → ℕ → Bool)) : Except OperatorError (List (String × ℕ)) := do
  let obsIndices ← Keyed.collect (cfg.keyIndices masks km obsMaskFull) observed
  if obsIndices.any fun e => cfg.nModel ≤ cfg.row e then throw .valueError
  return obsIndices

end ObsSetup

/-! ### The file of the observations -/

/-- An entry of `hu_obs` as it is written: NaN, the `0.0` of a parameter that is not
observed, or a drawn observation. -/
inductive ObsEntry where
  | nan
  | filled
  | drawn (d : Drawn)
  deriving DecidableEq, Repr

/-- `~np.isnan`. -/
def ObsEntry.isNumber : ObsEntry → Bool
  | .nan => false
  | _ => true

/-- The partial-parallel choice of what is observed. -/
structure ObsChoice extends ObsSetup where
  observedVars : List String
  observedParams : List String
  numStateVars : ℕ
  vecInputs_nodup : vecInputs.Nodup
  observed_nodup : (observedVars ++ observedParams).Nodup
  observed_eq : observed = observedVars ++ observedParams

/-- The datasets of `_synthetic_obs`; masks are stored as bytes and the map from steps to
columns as two arrays. -/
structure SyntheticFile where
  huObs : ℕ → String → ℕ → ObsEntry
  static : List (String × List UInt8)
  cols : List (String × (ℕ → List UInt8))
  snapCols : List ℕ
  keys : List ℤ
  vals : List ℕ

/-- `np.asarray(mask, dtype=np.uint8)`. -/
def toBytes (mask : List Bool) : List UInt8 := mask.map fun b => if b then 1 else 0

/-- `mask.astype(bool)`. -/
def ofBytes (bytes : List UInt8) : List Bool := bytes.map fun b => b != 0

/-- Masks survive the file. -/
lemma ofBytes_toBytes (mask : List Bool) : ofBytes (toBytes mask) = mask := by
  rw [ofBytes, toBytes, List.map_map]
  refine (List.map_congr_left fun b _ => ?_).trans (List.map_id mask)
  cases b <;> rfl

/-- `load_bed_masks_from_h5`, the masks. -/
def SyntheticFile.bedMasks (f : SyntheticFile) : BedMasks where
  static := f.static.map fun m => (m.1, ofBytes m.2)
  cols := f.cols.map fun m => (m.1, fun km => ofBytes (m.2 km))
  snapCols := f.snapCols

/-- `load_bed_masks_from_h5`, the column of a step. -/
def SyntheticFile.obsModelToCol (f : SyntheticFile) (k : ℤ) : Option ℕ :=
  (f.keys.zip f.vals).lookup k

namespace ObsChoice

variable (c : ObsChoice)

/-- `params_vec`: the variables behind the state variables. -/
def paramsVec : List String := c.vecInputs.drop c.numStateVars

/-- `all_observed`. -/
def allObserved : List String := c.observedVars ++ c.observedParams

/-- The variables that `generate_synthetic_observations` overwrites with `0.0`. -/
def zeroed (key : String) : Bool :=
  if c.observedParams.length = 0 then key ∈ c.paramsVec
  else key ∈ c.paramsVec ∧ key ∉ c.observedParams

variable (noise : ObsNoise) (obsT : List ℚ) (X : TrueState) (obs : ObsIndex)

/-- `bed_mask_map_cols[key][:, km]`: `final_mask` where a bed is drawn, and `False`
elsewhere. -/
def maskCol (key : String) (km : ℕ) : List Bool :=
  (List.range (c.dim key)).map fun i =>
    decide (key ∈ c.observed ∧ km ∈ c.bedSnapCols obsT) &&
      c.finalMask X (obs.times.getD km 0).toNat key i

/-- `generate_synthetic_observations` on rank `0`, up to the file that it writes. -/
def generateSyntheticObservations : Except ObsError SyntheticFile := do
  let hu ← c.utilsObs noise obsT X obs
  let beds := c.vecInputs.filter ObsSetup.keyIsBed
  return {
    huObs := fun km key i =>
      if c.zeroed key then .filled
      else match hu km key i with
        | some d => .drawn d
        | none => .nan
    static := beds.map fun key =>
      (key, toBytes ((List.range (c.dim key)).map (c.staticMask key)))
    cols := beds.map fun key => (key, fun km => toBytes (c.maskCol obsT X obs key km))
    snapCols := c.bedSnapCols obsT
    keys := obs.times
    vals := List.range obs.times.length }

/-- `JObs_fun` at step `k`, with `hu_obs` and the masks of the file. -/
def jObsFun (f : SyntheticFile) (k : ℤ) : Except OperatorError (List (String × ℕ)) :=
  let km := f.obsModelToCol k
  c.hMatrix f.bedMasks c.allObserved km
    (km.map fun km key i => (f.huObs km key i).isNumber)

/-- The operator for column `km` and its step selects the entries of the observed
variables that are not NaN, each of them once; none of them is filled in, and no drawn
entry of the column is left out. -/
structure SelectsObservations (f : SyntheticFile) (km : ℕ) (k : ℤ)
    (rows : List (String × ℕ)) : Prop where
  built : c.jObsFun f k = .ok rows
  once : (rows.map c.row).Nodup
  exact : ∀ key i, (key, i) ∈ rows ↔
    key ∈ c.allObserved ∧ i < c.dim key ∧ f.huObs km key i ≠ .nan
  real : ∀ e ∈ rows, ∃ d, f.huObs km e.1 e.2 = .drawn d
  complete : ∀ key ∈ c.vecInputs, ∀ i < c.dim key, ∀ d,
    f.huObs km key i = .drawn d → (key, i) ∈ rows

/-! ### What is selected -/

variable {c noise obsT X obs} {f : SyntheticFile}

/-- What is in the file. -/
lemma generate_ok (h : c.generateSyntheticObservations noise obsT X obs = .ok f) :
    (∃ hu, c.utilsObs noise obsT X obs = .ok hu ∧ ∀ km key i, f.huObs km key i =
      if c.zeroed key then .filled
      else match hu km key i with
        | some d => .drawn d
        | none => .nan) ∧
    f.cols = (c.vecInputs.filter ObsSetup.keyIsBed).map (fun key =>
      (key, fun km => toBytes (c.maskCol obsT X obs key km))) ∧
    f.snapCols = c.bedSnapCols obsT ∧ f.keys = obs.times ∧
    f.vals = List.range obs.times.length := by
  rw [generateSyntheticObservations, Keyed.bind_eq_ok] at h
  obtain ⟨hu, hhu, h⟩ := h
  obtain rfl := Except.ok.inj h
  exact ⟨⟨hu, hhu, fun _ _ _ => rfl⟩, rfl, rfl, rfl, rfl⟩

/-- A dictionary that is made for the keys of a list. -/
lemma lookup_map {α : Type} (l : List String) (g : String → α) (key : String) :
    (l.map fun key => (key, g key)).lookup key = if key ∈ l then some (g key) else none := by
  induction l with
  | nil => rfl
  | cons a l ih =>
      rw [List.map_cons, List.lookup_cons]
      by_cases ha : key = a
      · subst ha
        simp
      · simp [ha, ih, beq_eq_false_iff_ne.mpr ha]

/-- A dictionary that is made from two arrays. -/
lemma lookup_zip {l : List ℤ} (hl : l.Nodup) {vals : List ℕ} {km : ℕ} {k : ℤ}
    (hk : l[km]? = some k) : (l.zip vals).lookup k = vals[km]? := by
  induction l generalizing vals km with
  | nil => simp at hk
  | cons a l ih =>
      obtain ⟨ha, hl⟩ := List.nodup_cons.mp hl
      cases vals with
      | nil => rfl
      | cons b vals =>
          rw [List.zip_cons_cons, List.lookup_cons]
          cases km with
          | zero =>
              obtain rfl : a = k := by simpa using hk
              simp
          | succ km =>
              have hk' : l[km]? = some k := by simpa using hk
              have hne : k ≠ a := fun h => ha (h ▸ List.mem_of_getElem? hk')
              simp [beq_eq_false_iff_ne.mpr hne, ih hl hk']

variable (c obsT X obs) in
/-- The entries of a variable that the operator of column `km` selects. -/
def selected (f : SyntheticFile) (km : ℕ) (key : String) (i : ℕ) : Bool :=
  (!ObsSetup.keyIsBed key || (decide (km ∈ c.bedSnapCols obsT) &&
    c.finalMask X (obs.times.getD km 0).toNat key i)) && (f.huObs km key i).isNumber

section File

variable (hgen : c.generateSyntheticObservations noise obsT X obs = .ok f)

include hgen

lemma obsModelToCol_eq {km : ℕ} {k : ℤ} (hk : obs.times[km]? = some k) :
    f.obsModelToCol k = some km := by
  obtain ⟨-, -, -, hkeys, hvals⟩ := generate_ok hgen
  have hlt : km < obs.times.length := (List.getElem?_eq_some_iff.mp hk).1
  rw [SyntheticFile.obsModelToCol, hkeys, hvals, lookup_zip obs.sorted.nodup hk,
    List.getElem?_range hlt]

/-- The mask of a bed in a column, as it is read back. -/
lemma lookup_cols {key : String} (hin : key ∈ c.vecInputs) (hbed : ObsSetup.keyIsBed key) :
    ∃ mask, f.bedMasks.cols.lookup key = some mask ∧
      ∀ km, mask km = c.maskCol obsT X obs key km := by
  obtain ⟨-, hcols, -⟩ := generate_ok hgen
  refine ⟨fun km => ofBytes (toBytes (c.maskCol obsT X obs key km)), ?_,
    fun km => ofBytes_toBytes _⟩
  have hmap : f.bedMasks.cols = (c.vecInputs.filter ObsSetup.keyIsBed).map fun key =>
      (key, fun km => ofBytes (toBytes (c.maskCol obsT X obs key km))) := by
    rw [SyntheticFile.bedMasks, hcols, List.map_map]
    rfl
  rw [hmap, lookup_map, if_pos (List.mem_filter.mpr ⟨hin, hbed⟩)]

/-- The local indices of an observed bed in a column. -/
lemma bedIndices_eq {key : String} (hin : key ∈ c.vecInputs) (hobs : key ∈ c.observed)
    (hbed : ObsSetup.keyIsBed key) (km : ℕ) :
    ObsSetup.bedIndices f.bedMasks (some km) key (List.range (c.dim key)) =
      .ok ((List.range (c.dim key)).filter fun i => decide (km ∈ c.bedSnapCols obsT) &&
        c.finalMask X (obs.times.getD km 0).toNat key i) := by
  have hsnapCols : f.bedMasks.snapCols = c.bedSnapCols obsT := (generate_ok hgen).2.2.1
  obtain ⟨mask, hlookup, hmask⟩ := lookup_cols hgen hin hbed
  by_cases hsnap : km ∈ c.bedSnapCols obsT
  · have hlen : (mask km).length = (List.range (c.dim key)).length := by simp [hmask, maskCol]
    simp only [ObsSetup.bedIndices, hsnapCols, hsnap, not_true, if_false, hlookup,
      ObsSetup.selectMask, hlen, ne_eq, decide_true, Bool.true_and]
    refine congrArg Except.ok (List.filter_congr fun i hi => ?_)
    simp [hmask, maskCol, List.getD_eq_getElem?_getD, List.mem_range.mp hi, hobs, hsnap]
  · simp [ObsSetup.bedIndices, hsnapCols, hsnap, pure, Except.pure]

/-- What an observed variable contributes to the operator of a column. -/
lemma keyIndices_eq {key : String} (hin : key ∈ c.vecInputs) (hobs : key ∈ c.observed)
    (km : ℕ) : c.keyIndices f.bedMasks (some km)
      (some fun key i => (f.huObs km key i).isNumber) key =
        .ok (((List.range (c.dim key)).filter (selected c obsT X obs f km key)).map
          fun i => (key, i)) := by
  rw [ObsSetup.keyIndices, if_neg (not_not.mpr hin)]
  cases hbed : ObsSetup.keyIsBed key
  · simp only [Bool.false_eq_true, if_false]
    refine congrArg Except.ok (congrArg _ (List.filter_congr fun i _ => ?_))
    simp [selected, hbed]
  · simp only [if_true, bedIndices_eq hgen hin hobs hbed km]
    refine congrArg Except.ok (congrArg _ ?_)
    rw [List.filter_filter]
    refine List.filter_congr fun i _ => ?_
    simp [selected, hbed, Bool.and_comm]

/-- The operator of a column exists exactly if the observed variables do. -/
lemma jObsFun_ok_iff {km : ℕ} {k : ℤ} (hk : obs.times[km]? = some k)
    {rows : List (String × ℕ)} : c.jObsFun f k = .ok rows ↔
      (∀ key ∈ c.allObserved, key ∈ c.vecInputs) ∧ c.allObserved.flatMap (fun key =>
        ((List.range (c.dim key)).filter (selected c obsT X obs f km key)).map
          fun i => (key, i)) = rows := by
  have hmem : ∀ key ∈ c.allObserved, key ∈ c.observed := fun key hkey => by
    rwa [c.observed_eq]
  rw [jObsFun, obsModelToCol_eq hgen hk, Option.map_some, ObsSetup.hMatrix, Keyed.bind_eq_ok]
  constructor
  · rintro ⟨rows', hrows, hret⟩
    obtain ⟨g, hg, rfl⟩ := Keyed.collect_eq_ok.mp hrows
    have hin : ∀ key ∈ c.allObserved, key ∈ c.vecInputs := by
      intro key hkey
      by_contra hno
      have h := hg key hkey
      rw [ObsSetup.keyIndices, if_pos hno] at h
      exact Keyed.throw_bind_ne_ok h
    refine ⟨hin, ?_⟩
    have hret' : c.allObserved.flatMap g = rows :=
      Except.ok.inj (Keyed.check_eq_ok.mp hret).2
    rw [← hret']
    refine List.flatMap_congr fun key hkey => ?_
    exact Except.ok.inj ((keyIndices_eq hgen (hin key hkey) (hmem key hkey) km).symm.trans
      (hg key hkey))
  · rintro ⟨hin, rfl⟩
    refine ⟨_, Keyed.collect_eq_ok.mpr ⟨_, fun key hkey =>
      keyIndices_eq hgen (hin key hkey) (hmem key hkey) km, rfl⟩, ?_⟩
    -- every entry is a row of the state
    rw [if_neg]
    · rfl
    · simp only [List.any_eq_true, List.mem_flatMap, List.mem_map, List.mem_filter,
        List.mem_range, decide_eq_true_eq]
      rintro ⟨e, ⟨key, hkey, i, ⟨hi, -⟩, rfl⟩, hle⟩
      have hlt : c.row (key, i) < c.nModel := ObsSetup.row_lt ⟨hin key hkey, hi⟩
      omega

/-- An entry that is not overwritten is NaN, or drawn because it is observed. -/
lemma huObs_of_not_zeroed {km : ℕ} {k : ℤ} (hk : obs.times[km]? = some k) {key : String} {i : ℕ}
    (hz : c.zeroed key = false) :
    (f.huObs km key i ≠ .nan → ∃ d, f.huObs km key i = .drawn d) ∧
      (f.huObs km key i ≠ .nan ↔ ObsSetup.UtilsObserves c.toObsSetup obsT X km k.toNat key i) := by
  obtain ⟨⟨hu, hhu, hentry⟩, -⟩ := generate_ok hgen
  have hcol := ObsSetup.utilsObs_spec hhu hk
  have hdraw : ∀ e, hu km key i = some e ↔
      ObsSetup.UtilsObserves c.toObsSetup obsT X km k.toNat key i ∧
        ⟨k.toNat, X.value key i k.toNat + noise km key i⟩ = e :=
    fun e => ObsSetup.utilsColumn_apply hcol
  rw [hentry, hz]
  cases hval : hu km key i with
  | none =>
      refine ⟨by simp, by simp, fun hobs => ?_⟩
      have := (hdraw _).mpr ⟨hobs, rfl⟩
      rw [hval] at this
      simp at this
  | some d => exact ⟨fun _ => ⟨d, by simp⟩, fun _ => ((hdraw d).mp hval).1, fun _ => by simp⟩

/-- For an observed variable that is not overwritten, the operator selects what is not
NaN. -/
lemma selected_iff {km : ℕ} {k : ℤ} (hk : obs.times[km]? = some k) {key : String} {i : ℕ}
    (hz : c.zeroed key = false) :
    selected c obsT X obs f km key i ↔ f.huObs km key i ≠ .nan := by
  have hnumber : (f.huObs km key i).isNumber ↔ f.huObs km key i ≠ .nan := by
    cases f.huObs km key i <;> simp [ObsEntry.isNumber]
  rw [selected, Bool.and_eq_true, hnumber]
  refine and_iff_right_of_imp fun hnan => ?_
  obtain ⟨-, -, -, hbed⟩ := (huObs_of_not_zeroed hgen hk hz).2.mp hnan
  have hk' : obs.times.getD km 0 = k := by rw [List.getD_eq_getElem?_getD, hk, Option.getD_some]
  cases hkey : ObsSetup.keyIsBed key
  · simp
  · rw [hk']
    simpa using hbed hkey

end File

/-- An observed variable is overwritten only if it is a parameter that is listed with the
variables. -/
lemma zeroed_of_mem {key : String} (hkey : key ∈ c.allObserved) (hz : c.zeroed key = true) :
    key ∈ c.observedVars ∧ key ∈ c.paramsVec := by
  have hno : key ∈ c.paramsVec ∧ key ∉ c.observedParams := by
    rw [zeroed] at hz
    split_ifs at hz with h0
    · rw [List.length_eq_zero_iff.mp h0]
      exact ⟨by simpa using hz, List.not_mem_nil⟩
    · simpa using hz
  exact ⟨(List.mem_append.mp hkey).resolve_right hno.2, hno.1⟩

/-- And such a variable is. -/
lemma zeroed_of_observedVars {key : String} (hvar : key ∈ c.observedVars)
    (hparam : key ∈ c.paramsVec) : c.zeroed key = true := by
  have hno : key ∉ c.observedParams := fun h =>
    (List.nodup_append.mp c.observed_nodup).2.2 key hvar key h rfl
  rw [zeroed]
  split_ifs <;> simp [hparam, hno]

/-- The first entry of such a variable is not NaN, so it would be selected, but it is
filled in. -/
lemma SelectsObservations.dim_eq_zero {km : ℕ} {k : ℤ} {rows : List (String × ℕ)}
    (h : c.SelectsObservations f km k rows)
    (hgen : c.generateSyntheticObservations noise obsT X obs = .ok f) {key : String}
    (hvar : key ∈ c.observedVars) (hparam : key ∈ c.paramsVec) : c.dim key = 0 := by
  by_contra hdim
  have hfilled : f.huObs km key 0 = .filled := by
    obtain ⟨⟨hu, -, hentry⟩, -⟩ := generate_ok hgen
    rw [hentry, zeroed_of_observedVars hvar hparam, if_pos rfl]
  have hmem := (h.exact key 0).mpr
    ⟨List.mem_append_left _ hvar, Nat.pos_of_ne_zero hdim, by rw [hfilled]; simp⟩
  obtain ⟨d, hd⟩ := h.real _ hmem
  rw [hfilled] at hd
  simp at hd

/-- Different variables have different entries. -/
lemma nodup_entries {keys : List String} (hkeys : keys.Nodup) (dim : String → ℕ)
    (p : String → ℕ → Bool) :
    (keys.flatMap fun key =>
      ((List.range (dim key)).filter (p key)).map fun i => (key, i)).Nodup := by
  refine List.nodup_flatMap.mpr ⟨fun key _ => ?_, ?_⟩
  · exact (List.nodup_range.filter _).map fun i j h => (Prod.mk.inj h).2
  · refine hkeys.imp fun {a b} hne => ?_
    rw [Function.onFun, List.disjoint_left]
    rintro e he hf
    obtain ⟨i, -, rfl⟩ := List.mem_map.mp he
    obtain ⟨j, -, hj⟩ := List.mem_map.mp hf
    exact hne (Prod.mk.inj hj).1.symm

/-- **Partial mode**: the operators of all columns select exactly the observations if and
only if there is no column, or every observed variable is one of the state and no
parameter is listed with the observed variables, unless it has no entries. -/
theorem partialSelection_iff (c : ObsChoice)
    (hgen : c.generateSyntheticObservations noise obsT X obs = .ok f) :
    (∀ km k, obs.times[km]? = some k → ∃ rows, c.SelectsObservations f km k rows) ↔
      obs.times = [] ∨ (∀ key ∈ c.allObserved, key ∈ c.vecInputs) ∧
        ∀ key ∈ c.observedVars, key ∈ c.paramsVec → c.dim key = 0 := by
  constructor
  · intro h
    refine or_iff_not_imp_left.mpr fun hne => ?_
    obtain ⟨k, l, hl⟩ := List.exists_cons_of_ne_nil hne
    have hk : obs.times[0]? = some k := by rw [hl]; rfl
    obtain ⟨rows, hrows⟩ := h 0 k hk
    exact ⟨((jObsFun_ok_iff hgen hk).mp hrows.built).1, fun key hvar hparam =>
      hrows.dim_eq_zero hgen hvar hparam⟩
  · rintro (hnil | ⟨hin, hdim⟩) km k hk
    · rw [hnil] at hk
      simp at hk
    -- an entry of an observed variable is not set to zero
    have hz : ∀ key ∈ c.allObserved, ∀ i < c.dim key, c.zeroed key = false := by
      intro key hkey i hi
      by_contra hzero
      obtain ⟨hvar, hparam⟩ := zeroed_of_mem hkey (by simpa using hzero)
      rw [hdim key hvar hparam] at hi
      omega
    set rows := c.allObserved.flatMap (fun key =>
      ((List.range (c.dim key)).filter (selected c obsT X obs f km key)).map fun i => (key, i))
      with hrows
    -- the selected rows are the entries that are no `nan`
    have hexact : ∀ key i, (key, i) ∈ rows ↔
        key ∈ c.allObserved ∧ i < c.dim key ∧ f.huObs km key i ≠ .nan := by
      intro key i
      simp only [hrows, List.mem_flatMap, List.mem_map, List.mem_filter, List.mem_range,
        Prod.mk.injEq]
      constructor
      · rintro ⟨key, hkey, i, ⟨hi, hsel⟩, rfl, rfl⟩
        exact ⟨hkey, hi, (selected_iff hgen hk (hz key hkey i hi)).mp hsel⟩
      · rintro ⟨hkey, hi, hnan⟩
        exact ⟨key, hkey, i, ⟨hi, (selected_iff hgen hk (hz key hkey i hi)).mpr hnan⟩, rfl, rfl⟩
    refine ⟨rows, (jObsFun_ok_iff hgen hk).mpr ⟨hin, rfl⟩, ?_, hexact, fun e he => ?_,
      fun key hkey i hi d hd => ?_⟩
    · have hnodup : rows.Nodup := nodup_entries c.observed_nodup _ _
      refine hnodup.map_on fun e he e' he' => ?_
      obtain ⟨hkey, hi, -⟩ := (hexact e.1 e.2).mp he
      obtain ⟨hkey', hi', -⟩ := (hexact e'.1 e'.2).mp he'
      exact ObsSetup.row_injOn ⟨hin _ hkey, hi⟩ ⟨hin _ hkey', hi'⟩
    · obtain ⟨hkey, hi, hnan⟩ := (hexact e.1 e.2).mp he
      exact (huObs_of_not_zeroed hgen hk (hz _ hkey _ hi)).1 hnan
    · have hzero : c.zeroed key = false := by
        obtain ⟨⟨hu, -, hentry⟩, -⟩ := generate_ok hgen
        by_contra hzero
        rw [hentry, if_pos (by simpa using hzero)] at hd
        simp at hd
      have hnan : f.huObs km key i ≠ .nan := by rw [hd]; simp
      have hobs := ((huObs_of_not_zeroed hgen hk hzero).2.mp hnan).2.1
      rw [c.observed_eq] at hobs
      exact (hexact key i).mpr ⟨hobs, hi, hnan⟩

/-- A thickness and a mass balance of one entry each, the second one a parameter. -/
def thicknessAndSmb (observedVars observedParams : List String)
    (h : (observedVars ++ observedParams).Nodup) : ObsChoice where
  vecInputs := ["h", "smb"]
  dim _ := 1
  observed := observedVars ++ observedParams
  bedSnapshots := []
  di := 893 / 1000
  staticMask _ _ := true
  bedMaskMap _ _ := true
  observedVars := observedVars
  observedParams := observedParams
  numStateVars := 1
  vecInputs_nodup := by simp
  observed_nodup := h
  observed_eq := rfl

/-- A true state of one column. -/
def oneColumn : TrueState := ⟨1, fun _ _ _ => 1⟩

/-- One observation, at step `0`. -/
def stepZero : ObsIndex := ⟨[0], (List.pairwise_singleton _ 0).sortedLT⟩

/-- It can be drawn. -/
lemma generate_oneColumn (observedVars observedParams : List String)
    (h : (observedVars ++ observedParams).Nodup) :
    ∃ f, (thicknessAndSmb observedVars observedParams h).generateSyntheticObservations 0 [0]
      oneColumn stepZero = .ok f := by
  obtain ⟨hu, hhu⟩ : ∃ hu, (thicknessAndSmb observedVars observedParams h).utilsObs 0 [0] oneColumn
      stepZero = .ok hu := by
    refine ObsSetup.utilsObs_ok_iff.mpr fun km k hk key hkey _ => ?_
    obtain rfl : k = 0 := by simpa [stepZero] using List.mem_of_getElem? hk
    refine ⟨fun hbed => ?_, fun _ => Nat.one_pos⟩
    rcases List.mem_pair.mp hkey with rfl | rfl
    · exact absurd hbed (by decide +kernel)
    · exact absurd hbed (by decide +kernel)
  exact ⟨_, Keyed.bind_eq_ok.mpr ⟨hu, hhu, rfl⟩⟩

/-- The mass balance as an observed parameter: both entries are selected. -/
theorem partialSelection_observed_param : ∃ f, (thicknessAndSmb ["h"] ["smb"]
      (by simp)).generateSyntheticObservations 0 [0] oneColumn stepZero =
        .ok f ∧
    ∀ km k, stepZero.times[km]? = some k →
      ∃ rows, (thicknessAndSmb ["h"] ["smb"] (by simp)).SelectsObservations f km k rows := by
  obtain ⟨f, hf⟩ := generate_oneColumn ["h"] ["smb"] (by simp)
  refine ⟨f, hf, (partialSelection_iff (thicknessAndSmb ["h"] ["smb"] (by simp)) hf).mpr
    (Or.inr ⟨fun key hkey => hkey, fun key hkey hparam => ?_⟩)⟩
  obtain rfl : key = "h" := by simpa [thicknessAndSmb] using hkey
  exact absurd hparam (by decide +kernel)

/-- The mass balance as an observed variable: the operator selects the `0.0` that is
written for parameters that are not observed. -/
theorem not_partialSelection_param_as_var : ∃ f, (thicknessAndSmb ["h", "smb"] []
      (by simp)).generateSyntheticObservations 0 [0] oneColumn stepZero =
        .ok f ∧
    ¬ ∃ rows, (thicknessAndSmb ["h", "smb"] [] (by simp)).SelectsObservations f 0 0 rows := by
  obtain ⟨f, hf⟩ := generate_oneColumn ["h", "smb"] [] (by simp)
  refine ⟨f, hf, fun ⟨rows, hrows⟩ => ?_⟩
  have hvar : "smb" ∈ (thicknessAndSmb ["h", "smb"] [] (by simp)).observedVars := by
    simp [thicknessAndSmb]
  have hdim := hrows.dim_eq_zero hf hvar (by decide +kernel)
  simp [thicknessAndSmb] at hdim

end ObsChoice

/-! ### `EnKF_fully_parallel_IO.H_matrix` -/

namespace ObsSetup

variable (cfg : ObsSetup)

/-- The entries that one observed variable contributes; only `"bed"` itself is masked. -/
def fullKeyIndices (bedMaskMap : List (String × List Bool)) (key : String) :
    Except OperatorError (List (String × ℕ)) := do
  if key ∉ cfg.vecInputs then throw .keyError
  let idx ← if key = "bed" then
      match bedMaskMap.lookup key with
      | some mask => selectMask mask (List.range (cfg.dim key))
      | none => pure (List.range (cfg.dim key))
    else pure (List.range (cfg.dim key))
  return idx.map fun i => (key, i)

/-- The entries that the rows of `H` select. -/
def fullHMatrix (bedMaskMap : List (String × List Bool)) (observed : List String) :
    Except OperatorError (List (String × ℕ)) := do
  let obsIndices ← Keyed.collect (cfg.fullKeyIndices bedMaskMap) observed
  if obsIndices.length = 0 then throw .valueError
  if obsIndices.any fun e => cfg.nModel ≤ cfg.row e then throw .valueError
  return obsIndices

/-- `H_matrix` as the full-parallel driver calls it: the generator returns `ind_m` and
`m_obs` only, so there is no `bed_mask_map` among the arguments. -/
def driverHMatrix : Except OperatorError (List (String × ℕ)) := cfg.fullHMatrix [] cfg.observed

/-- Every row of the `H` that is written selects an entry that is drawn in column `km`. -/
def FullSelectsDrawn (hu : ℕ → ObsColumn) (km : ℕ) : Prop :=
  ∀ rows, cfg.driverHMatrix = .ok rows → ∀ e ∈ rows, ∃ d, hu km e.1 e.2 = some d

variable {cfg} {noise : ObsNoise} {obsT : List ℚ} {X : TrueState} {nt : ℕ} {hu : ℕ → ObsColumn}

/-- Without masks `H` has a row for every entry of every observed variable. -/
lemma driverHMatrix_ok_iff {rows : List (String × ℕ)} : cfg.driverHMatrix = .ok rows ↔
    (∀ key ∈ cfg.observed, key ∈ cfg.vecInputs) ∧ (∃ key ∈ cfg.observed, 0 < cfg.dim key) ∧
      cfg.observed.flatMap (fun key => (List.range (cfg.dim key)).map fun i => (key, i)) =
        rows := by
  -- with an empty dictionary there is no mask for the bed
  have hkey : ∀ key, key ∈ cfg.vecInputs → cfg.fullKeyIndices [] key =
      .ok ((List.range (cfg.dim key)).map fun i => (key, i)) := by
    intro key hin
    rw [fullKeyIndices, if_neg (not_not.mpr hin)]
    split <;> rfl
  have hlength : (cfg.observed.flatMap fun key =>
      (List.range (cfg.dim key)).map fun i => (key, i)).length = 0 ↔
        ¬ ∃ key ∈ cfg.observed, 0 < cfg.dim key := by
    rw [List.length_eq_zero_iff, List.flatMap_eq_nil_iff]
    simp
  rw [driverHMatrix, fullHMatrix, Keyed.bind_eq_ok]
  constructor
  · rintro ⟨rows', hrows, hret⟩
    obtain ⟨g, hg, rfl⟩ := Keyed.collect_eq_ok.mp hrows
    have hin : ∀ key ∈ cfg.observed, key ∈ cfg.vecInputs := by
      intro key hkey
      by_contra hno
      have h := hg key hkey
      rw [fullKeyIndices, if_pos hno] at h
      exact Keyed.throw_bind_ne_ok h
    have hflat : cfg.observed.flatMap g =
        cfg.observed.flatMap fun key => (List.range (cfg.dim key)).map fun i => (key, i) :=
      List.flatMap_congr fun key hmem =>
        Except.ok.inj ((hg key hmem).symm.trans (hkey key (hin key hmem)))
    rw [hflat] at hret
    obtain ⟨hne, hret'⟩ := Keyed.check_eq_ok.mp hret
    exact ⟨hin, not_not.mp fun hno => hne (hlength.mpr hno),
      Except.ok.inj (Keyed.check_eq_ok.mp hret').2⟩
  · rintro ⟨hin, hpos, rfl⟩
    refine ⟨_, Keyed.collect_eq_ok.mpr ⟨_, fun key hmem => hkey key (hin key hmem), rfl⟩, ?_⟩
    rw [if_neg (hlength.not.mpr (not_not.mpr hpos)), if_neg]
    · rfl
    · simp only [List.any_eq_true, List.mem_flatMap, List.mem_map, List.mem_range,
        decide_eq_true_eq]
      rintro ⟨e, ⟨key, hmem, i, hi, rfl⟩, hle⟩
      have hlt : cfg.row (key, i) < cfg.nModel := row_lt ⟨hin key hmem, hi⟩
      omega

/-- **Full mode**: every row selects an entry that is drawn in column `km` if and only if
no `H` is written, or the loop over the steps reaches the column and every observed bed
that has entries is drawn there, without a mask that leaves any out. -/
theorem fullSelection_iff (cfg : ObsSetup) (S : Schedule nt)
    (hgen : cfg.fullObs noise obsT X S.toObsIndex nt = .ok hu) {km : ℕ} {k : ℤ}
    (hk : S.times[km]? = some k) :
    cfg.FullSelectsDrawn hu km ↔
      (∃ key ∈ cfg.observed, key ∉ cfg.vecInputs) ∨ (∀ key ∈ cfg.observed, cfg.dim key = 0) ∨
        k < (nt : ℤ) ∧ ∀ key ∈ cfg.observed, keyIsBedExact key → ∀ i < cfg.dim key,
          km ∈ cfg.bedSnapCols obsT ∧ cfg.bedMaskMap key i := by
  have hgrid : ∀ k ∈ S.times, 0 ≤ k := fun k hk => (S.inGrid k hk).1
  obtain ⟨k, rfl⟩ := Int.eq_ofNat_of_zero_le (hgrid k (List.mem_of_getElem? hk))
  have hspec := fullObs_spec hgrid hgen hk
  constructor
  · intro h
    refine or_iff_not_imp_left.mpr fun hin => or_iff_not_imp_left.mpr fun hdim => ?_
    push Not at hin hdim
    obtain ⟨key₀, hmem₀, hdim₀⟩ := hdim
    -- without masks every entry has its row, so every entry must have been drawn
    have hdrawn : ∀ key ∈ cfg.observed, ∀ i < cfg.dim key, ∃ d, hu km key i = some d := by
      intro key hmem i hi
      refine h _ (driverHMatrix_ok_iff.mpr
        ⟨hin, ⟨key₀, hmem₀, Nat.pos_of_ne_zero hdim₀⟩, rfl⟩) (key, i) ?_
      exact List.mem_flatMap.mpr ⟨key, hmem, List.mem_map.mpr ⟨i, List.mem_range.mpr hi, rfl⟩⟩
    -- a column that the loop does not reach is empty
    have hlt : k < nt := by
      by_contra hlt
      obtain ⟨d, hd⟩ := hdrawn key₀ hmem₀ 0 (Nat.pos_of_ne_zero hdim₀)
      rw [if_neg hlt] at hspec
      rw [hspec] at hd
      simp at hd
    rw [if_pos hlt] at hspec
    refine ⟨by exact_mod_cast hlt, fun key hmem hbed i hi => ?_⟩
    obtain ⟨d, hd⟩ := hdrawn key hmem i hi
    have hobs := ((fullColumn_apply hspec).mp hd).1.2.2
    rwa [if_pos hbed] at hobs
  · rintro (⟨key, hmem, hno⟩ | hdim | ⟨hlt, hbeds⟩) rows hrows e he
    · exact absurd ((driverHMatrix_ok_iff.mp hrows).1 key hmem) hno
    · obtain ⟨key, hmem, hpos⟩ := (driverHMatrix_ok_iff.mp hrows).2.1
      exact absurd (hdim key hmem) hpos.ne'
    · obtain ⟨hin, -, rfl⟩ := driverHMatrix_ok_iff.mp hrows
      obtain ⟨key, hmem, hmap⟩ := List.mem_flatMap.mp he
      obtain ⟨i, hi, rfl⟩ := List.mem_map.mp hmap
      rw [if_pos (by exact_mod_cast hlt)] at hspec
      refine ⟨_, (fullColumn_apply hspec).mpr
        ⟨⟨hin key hmem, List.mem_range.mp hi, ?_⟩, rfl⟩⟩
      split
      · next hbed => exact hbeds key hmem hbed i (List.mem_range.mp hi)
      · exact hmem

/-- A thickness and a bed of one entry each, without snapshots of the bed. -/
def thicknessAndBed (observed : List String) : ObsSetup where
  vecInputs := ["h", "bed"]
  dim _ := 1
  observed := observed
  bedSnapshots := []
  di := 893 / 1000
  staticMask _ _ := true
  bedMaskMap _ _ := true

/-- One observation on a grid of one step, at step `0`. -/
def firstStep : Schedule 1 where
  times := [0]
  sorted := (List.pairwise_singleton _ 0).sortedLT
  inGrid k hk := by
    obtain rfl := List.mem_singleton.mp hk
    exact ⟨le_rfl, Int.one_nonneg⟩

/-- It can be drawn from a state of one column. -/
lemma fullObs_thicknessAndBed (observed : List String) : ∃ hu,
    (thicknessAndBed observed).fullObs (fun _ _ _ => 0) [0] ⟨1, fun _ _ _ => 1⟩
      firstStep.toObsIndex 1 = .ok hu := by
  obtain ⟨c, hc⟩ : ∃ c, (thicknessAndBed observed).fullColumn (fun _ _ _ => 0) [0]
      ⟨1, fun _ _ _ => 1⟩ 0 0 = .ok c := by
    refine Keyed.sweep_ok_iff.mpr fun key _ _ => ?_
    split
    · exact checkColumn_ok_iff.mpr Nat.one_pos
    · rfl
  have hstep : (thicknessAndBed observed).fullStep (fun _ _ _ => 0) [0] ⟨1, fun _ _ _ => 1⟩
      firstStep.toObsIndex (0, fun _ _ _ => none) 0 =
        .ok (1, Function.update (fun _ _ _ => none) 0 c) := by
    rw [fullStep, if_neg (by simp [firstStep, ObsIndex.mObs])]
    show (do
      let c ← (thicknessAndBed observed).fullColumn (fun _ _ _ => 0) [0] ⟨1, fun _ _ _ => 1⟩ 0 0
      return (1, Function.update (fun _ _ _ => none) 0 c)) = _
    rw [hc]
    rfl
  have hcreate : createHuObs firstStep.toObsIndex.mObs = .ok () :=
    createHuObs_ok_iff.mpr Nat.one_ne_zero
  refine ⟨Function.update (fun _ _ _ => none) 0 c, Keyed.bind_eq_ok.mpr
    ⟨(), hcreate, Keyed.bind_eq_ok.mpr ⟨(1, Function.update (fun _ _ _ => none) 0 c), ?_, rfl⟩⟩⟩
  rw [fullLoop, List.range_one, List.foldlM_cons, hstep]
  rfl

/-- The thickness alone: its row selects what is drawn. -/
theorem fullSelection_thickness : ∃ hu,
    (thicknessAndBed ["h"]).fullObs (fun _ _ _ => 0) [0] ⟨1, fun _ _ _ => 1⟩
      firstStep.toObsIndex 1 = .ok hu ∧ (thicknessAndBed ["h"]).FullSelectsDrawn hu 0 := by
  obtain ⟨hu, hhu⟩ := fullObs_thicknessAndBed ["h"]
  have hfirst : firstStep.times[0]? = some 0 := rfl
  refine ⟨hu, hhu, (fullSelection_iff (thicknessAndBed ["h"]) firstStep hhu hfirst).mpr
    (Or.inr (Or.inr ⟨Int.one_pos, fun key hkey hbed => ?_⟩))⟩
  obtain rfl := List.mem_singleton.mp hkey
  exact absurd hbed (by decide +kernel)

/-- With the bed observed, its row selects an entry that is not drawn. -/
theorem not_fullSelection_bed_off_snapshot : ∃ hu,
    (thicknessAndBed ["h", "bed"]).fullObs (fun _ _ _ => 0) [0] ⟨1, fun _ _ _ => 1⟩
      firstStep.toObsIndex 1 = .ok hu ∧
    ¬ (thicknessAndBed ["h", "bed"]).FullSelectsDrawn hu 0 := by
  obtain ⟨hu, hhu⟩ := fullObs_thicknessAndBed ["h", "bed"]
  refine ⟨hu, hhu, fun hsel => ?_⟩
  have hcol : (thicknessAndBed ["h", "bed"]).fullColumn (fun _ _ _ => 0) [0]
      ⟨1, fun _ _ _ => 1⟩ 0 0 = .ok (hu 0) :=
    fullObs_spec (k := 0) (fun k hk => (firstStep.inGrid k hk).1) hhu rfl
  obtain ⟨d, hd⟩ := hsel [("h", 0), ("bed", 0)] rfl ("bed", 0) (by simp)
  have hobs := ((fullColumn_apply hcol).mp hd).1.2.2
  rw [if_pos (by decide +kernel)] at hobs
  simp [bedSnapCols, thicknessAndBed] at hobs

end ObsSetup

end Icesee
