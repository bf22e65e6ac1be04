import Mathlib.Algebra.Order.Field.Basic
import Mathlib.Data.PNat.Basic
import Mathlib.Tactic.Linarith
import Mathlib.Tactic.NormNum
import Icesee.Lib.BlockCopy
import Icesee.Mpi.IndexMap

/-!
The ISSM fix of `parallel_write_ensemble_scattered`: thickness, surface and bed of every
member are made consistent before they are written.

The rows of the three variables are copied, changed under masks and written back. An index
that no variable has set is `0`, and with it the fix has a view of the first row in place of
a copy: `Arr` is an array of one dimension or of two, with NumPy's rules for masks between
them. `issmFix_iff` says when the fix does what it is for.
-/

namespace Icesee


/-! ### The index map on rank 0 -/

def thicknessNames : List String := ["thickness", "ice_thickness", "h"]
def surfaceNames : List String := ["surface", "ice_surface", "s"]
def bedNames : List String := ["bed", "bedrock", "base", "bedtopography"]

/-- `vec_inputs` and the rows of the variables. The variables that the fixes look at have
the same nodes, and rank 0 has the first `count` of them in its index map. -/
structure RootIndex where
  vecInputs : VecInputs
  size : ℕ → ℕ
  nodes : ℕ
  count : ℕ
  count_le : count ≤ nodes
  mesh : ∀ i, (vecInputs.names.getD i "").toLower ∈ thicknessNames ++ surfaceNames ++ bedNames →
    size i = nodes

namespace RootIndex

variable (ix : RootIndex)

/-- The row where variable `i` begins. -/
def start (i : ℕ) : ℕ := ((List.range i).map ix.size).sum

def nd : ℕ := ix.start ix.vecInputs.names.length

/-- The loop over `vec_inputs` that looks for a variable. The last one with a fitting name
stays. -/
def find (keys : List String) : Option ℕ :=
  ix.vecInputs.names.zipIdx.foldl
    (fun idx (vec, ii) => if vec.toLower ∈ keys then some ii else idx) none

def thicknessVar : Option ℕ := ix.find thicknessNames
def surfaceVar : Option ℕ := ix.find surfaceNames
def bedVar : Option ℕ := ix.find bedNames

end RootIndex

/-! ### Arrays of one dimension and of two -/

/-- What the fix raises. -/
inductive NumpyError
  | indexError
  | valueError
  deriving DecidableEq

/-- An array with the members as columns: rows of them, or a single one without a dimension
for the row. -/
structure Arr (α : Type) (N : ℕ) where
  twoDim : Bool
  row : ℕ → Fin N → α

namespace Arr

variable {α β γ : Type} {N : ℕ}

/-- Row `j`; the single row is repeated. -/
def get (a : Arr α N) (j : ℕ) : Fin N → α := a.row (if a.twoDim then j else 0)

def map (f : α → β) (a : Arr α N) : Arr β N := ⟨a.twoDim, fun j e => f (a.row j e)⟩

def zip (f : α → β → γ) (a : Arr α N) (b : Arr β N) : Arr γ N :=
  ⟨a.twoDim || b.twoDim, fun j e => f (a.get j e) (b.get j e)⟩

/-- `dst[np.where(mask)] = src[np.where(mask)]`, for a mask that is made from `src`. The
mask has an index array for each of its dimensions, and for more of them than an array has
it cannot be used there. The index arrays of a mask of one dimension are columns; rows of
`dst` that they pick are given the values at these columns, one for each member. -/
def putWhere (count : ℕ) (mask : Arr Bool N) (dst src : Arr α N) : Except NumpyError (Arr α N) :=
  if mask.twoDim then
    if src.twoDim && dst.twoDim then
      .ok ⟨true, fun j e => if mask.row j e then src.row j e else dst.row j e⟩
    else .error .indexError
  else if dst.twoDim then
    let cols := (List.finRange N).filter fun e => mask.row 0 e
    if cols.length = 1 ∨ cols.length = N then
      if cols.all fun c => (c : ℕ) < count then
        .ok ⟨true, fun j e =>
          if j ∈ cols.map Fin.val then src.row 0 (if cols.length = 1 then cols.headD e else e)
          else dst.row j e⟩
      else .error .indexError
    else .error .valueError
  else .ok ⟨false, fun _ e => if mask.row 0 e then src.row 0 e else dst.row 0 e⟩

end Arr

/-! ### The fix -/

/-- `recvbuf`: the rows of the state, with the members as columns. -/
abbrev Recvbuf (K : Type) (N : ℕ) : Type := BlockCopy.Rows (Fin N → K)

section Fix

variable {K : Type} [Field K] [LinearOrder K] {N : ℕ}

/-- `di`. -/
def densityRatio : K := (893 : ℕ) / (1000 : ℕ)

/-- `(rho_sw - rho_ice) / rho_sw`. -/
def freeboardRatio : K := ((1028 : ℕ) - (917 : ℕ)) / (1028 : ℕ)

/-- `recvbuf[idx, :]`: a copy of the rows of a variable, or a view of the first row. -/
def loadVar (ix : RootIndex) (A : Recvbuf K N) : Option ℕ → Except NumpyError (Arr K N)
  | some i => .ok ⟨true, fun j => A.row (ix.start i + j)⟩
  | none => if 0 < A.n then .ok ⟨false, fun _ => A.row 0⟩ else .error .indexError

/-- `recvbuf[idx, :] = arr`. -/
def storeVar (ix : RootIndex) (A : Recvbuf K N) (arr : Arr K N) : Option ℕ → Recvbuf K N
  | some i => ⟨A.n, fun r =>
      if ix.start i ≤ r ∧ r < ix.start i + ix.count then arr.get (r - ix.start i) else A.row r⟩
  | none => { A with row := Function.update A.row 0 (arr.row 0) }

/-- What an assignment into an array leaves in the buffer: a view is a part of it. -/
def keep (A : Recvbuf K N) (arr : Arr K N) : Recvbuf K N :=
  if arr.twoDim then A else { A with row := Function.update A.row 0 (arr.row 0) }

/-- What an array has after an assignment into the buffer. -/
def Arr.sync (arr : Arr K N) (A : Recvbuf K N) : Arr K N :=
  if arr.twoDim then arr else ⟨false, fun _ => A.row 0⟩

/-- The ISSM fix of `recvbuf`. -/
def issmFix (ix : RootIndex) (recvbuf : Recvbuf K N) :
    Except NumpyError (Recvbuf K N) := do
  let thickness ← loadVar ix recvbuf ix.thicknessVar
  let surface ← loadVar ix recvbuf ix.surfaceVar
  let bed ← loadVar ix recvbuf ix.bedVar
  let thickness := thickness.map fun x => if x < 1 then 1 else x
  let recvbuf := keep recvbuf thickness
  let surface := surface.sync recvbuf
  let bed := bed.sync recvbuf
  let oceanLevelset := thickness.zip (fun x b => x + b / densityRatio) bed
  -- floating ice
  let surface ← Arr.putWhere ix.count (oceanLevelset.map fun x => decide (x < 0)) surface
    (thickness.map fun x => x * freeboardRatio)
  let recvbuf := storeVar ix (keep recvbuf surface) surface ix.surfaceVar
  let thickness := thickness.sync recvbuf
  let bed := bed.sync recvbuf
  let base := surface.zip (fun x y => x - y) thickness
  let base ← Arr.putWhere ix.count (oceanLevelset.map fun x => decide (0 < x)) base bed
  let recvbuf := storeVar ix recvbuf (base.zip (fun x y => x + y) thickness) ix.surfaceVar
  return storeVar ix recvbuf (thickness.sync recvbuf) ix.thicknessVar

/-! ### What the fix is for -/

/-- The constraints of one node of one member. -/
structure Physical (thickness surface bed : K) : Prop where
  thick : 1 ≤ thickness
  above : bed ≤ surface - thickness
  grounded : 0 < thickness + bed / densityRatio → surface - thickness = bed
  floating : thickness + bed / densityRatio < 0 → surface = thickness * freeboardRatio

/-- After the fix every node is physical, and the other variables are as before. -/
structure Fixes (ix : RootIndex) (recvbuf fixed : Recvbuf K N) : Prop where
  n : fixed.n = recvbuf.n
  physical : ∀ t s b, ix.thicknessVar = some t → ix.surfaceVar = some s → ix.bedVar = some b →
    ∀ j < ix.nodes, ∀ e, Physical (fixed.row (ix.start t + j) e) (fixed.row (ix.start s + j) e)
      (fixed.row (ix.start b + j) e)
  others : ∀ i < ix.vecInputs.names.length, ix.thicknessVar ≠ some i → ix.surfaceVar ≠ some i →
    ix.bedVar ≠ some i → ∀ j < ix.size i,
      fixed.row (ix.start i + j) = recvbuf.row (ix.start i + j)

/-- The fix goes through, does that, and does nothing when it is applied once more. -/
def FixHolds (ix : RootIndex) (recvbuf : Recvbuf K N) : Prop :=
  ∃ fixed, issmFix ix recvbuf = .ok fixed ∧ Fixes ix recvbuf fixed ∧ issmFix ix fixed = .ok fixed

end Fix

namespace RootIndex

variable {ix : RootIndex}

/-! ### The rows of the variables -/

/-- The blocks of the variables. -/
def blocks (ix : RootIndex) : Tiling.Cuts ix.nd ix.vecInputs.names.length where
  cut := ix.start
  cut_zero := rfl
  cut_last := rfl
  mono i _ := by
    rw [start, start, List.range_succ, List.map_append, List.sum_append]
    exact Nat.le_add_right _ _

lemma size_blocks (i : ℕ) : ix.blocks.size i = ix.size i := by
  change ix.start (i + 1) - ix.start i = ix.size i
  rw [start, start, List.range_succ, List.map_append, List.sum_append, Nat.add_sub_cancel_left,
    List.map_singleton, List.sum_singleton]

/-- **The search**: what it finds has a fitting name, and it finds nothing only if no name
fits. -/
lemma find_spec (keys : List String) :
    (∀ i, ix.find keys = some i →
      i < ix.vecInputs.names.length ∧ (ix.vecInputs.names.getD i "").toLower ∈ keys) ∧
    (ix.find keys = none → ∀ vec ∈ ix.vecInputs.names, vec.toLower ∉ keys) := by
  rw [find]
  induction ix.vecInputs.names using List.reverseRecOn with
  | nil => exact ⟨nofun, fun _ vec hvec => absurd hvec List.not_mem_nil⟩
  | append_singleton names vec ih =>
      rw [List.zipIdx_append, List.foldl_append, List.zipIdx_singleton, List.foldl_cons,
        List.foldl_nil, Nat.zero_add, List.length_append, List.length_singleton]
      dsimp only
      by_cases hvec : vec.toLower ∈ keys
      · -- the last name fits, and stays
        rw [if_pos hvec]
        refine ⟨fun i hi => ?_, nofun⟩
        obtain rfl := Option.some.inj hi
        refine ⟨Nat.lt_succ_self _, ?_⟩
        rwa [List.getD_append_right _ _ _ _ le_rfl, Nat.sub_self, List.getD_cons_zero]
      · rw [if_neg hvec]
        refine ⟨fun i hi => ?_, fun hnone vec' hvec' => ?_⟩
        · obtain ⟨hlt, hkey⟩ := ih.1 i hi
          rw [List.getD_append _ _ _ _ hlt]
          exact ⟨Nat.lt_succ_of_lt hlt, hkey⟩
        · rcases List.mem_append.mp hvec' with h | h
          · exact ih.2 hnone vec' h
          · rwa [List.mem_singleton.mp h]

lemma find_eq_some {keys : List String} {i : ℕ} (h : ix.find keys = some i) :
    i < ix.vecInputs.names.length ∧ (ix.vecInputs.names.getD i "").toLower ∈ keys :=
  (find_spec keys).1 i h

/-- A variable with such a name is found. -/
lemma find_ne_none {keys : List String} {i : ℕ} (hi : i < ix.vecInputs.names.length)
    (hkey : (ix.vecInputs.names.getD i "").toLower ∈ keys) : ix.find keys ≠ none := by
  intro hnone
  refine (find_spec keys).2 hnone _ ?_ hkey
  rw [List.getD_eq_getElem _ _ hi]
  exact List.getElem_mem hi

/-- Names of different kinds are names of different variables. -/
lemma find_ne {keys keys' : List String} (hdisj : ∀ key ∈ keys, key ∉ keys') {i i' : ℕ}
    (h : ix.find keys = some i) (h' : ix.find keys' = some i') : i ≠ i' := by
  rintro rfl
  exact hdisj _ (find_eq_some h).2 (find_eq_some h').2

lemma size_of_find {keys : List String} (hkeys : keys ⊆ thicknessNames ++ surfaceNames ++ bedNames)
    {i : ℕ} (h : ix.find keys = some i) : ix.size i = ix.nodes :=
  ix.mesh i (hkeys (find_eq_some h).2)

/-- `icesee_get_index` with `var_nd` on the first of `p` ranks: the rows of a variable on the
mesh are the first ones of its block. -/
lemma indices_root {p : ℕ} (hp : 0 < p) (hcount : ix.count = (partitionCuts ix.nodes p hp).size 0)
    {i : ℕ} (hi : i < ix.vecInputs.names.length)
    (hmesh : (ix.vecInputs.names.getD i "").toLower ∈
      thicknessNames ++ surfaceNames ++ bedNames) :
    (varNdResult ix.vecInputs.names ((List.range ix.vecInputs.names.length).map ix.size) 0
      p).indices (ix.vecInputs.names.getD i "") = List.range' (ix.start i) ix.count := by
  have hsize : ((List.range ix.vecInputs.names.length).map ix.size).getD i 0 = ix.nodes := by
    rw [List.getD_eq_getElem?_getD, List.getElem?_map, List.getElem?_range hi]
    exact ix.mesh i hmesh
  have hstart : (((List.range ix.vecInputs.names.length).map ix.size).take i).sum = ix.start i := by
    rw [start, ← List.map_take, List.take_range, Nat.min_eq_left hi.le]
  rw [indices_varNdResult hp 0 hi, hsize, hstart, ← hcount, Tiling.Cuts.cut_zero, Nat.add_zero]

end RootIndex

/-! ### One node -/

section Node

variable {K : Type} [Field K] [LinearOrder K]

/-- The thickness of a node after the fix. -/
def nodeThickness (thickness : K) : K := if thickness < 1 then 1 else thickness

/-- The surface of a node after the fix, for the new thickness. -/
def nodeSurface (thickness surface bed : K) : K :=
  let level := thickness + bed / densityRatio
  let surface := if level < 0 then thickness * freeboardRatio else surface
  (if 0 < level then bed else surface - thickness) + thickness

lemma one_le_nodeThickness (thickness : K) : 1 ≤ nodeThickness thickness := by
  rw [nodeThickness]
  split_ifs with h
  · exact le_rfl
  · exact not_lt.mp h

lemma nodeThickness_of_le {thickness : K} (h : 1 ≤ thickness) :
    nodeThickness thickness = thickness := if_neg h.not_gt

/-- Once more changes nothing. -/
lemma nodeSurface_idem (thickness surface bed : K) :
    nodeSurface thickness (nodeSurface thickness surface bed) bed =
      nodeSurface thickness surface bed := by
  simp only [nodeSurface]
  split_ifs <;> simp only [sub_add_cancel]

variable [IsStrictOrderedRing K]

lemma densityRatio_pos : (0 : K) < densityRatio :=
  div_pos (Nat.cast_pos.mpr (by decide)) (Nat.cast_pos.mpr (by decide))

/-- Floating ice is above a bed that would lift it. -/
lemma freeboardRatio_bound : 1 - densityRatio ≤ (freeboardRatio : K) := by
  rw [densityRatio, freeboardRatio]
  norm_num

/-- A node is physical after the fix, but for one that is neither grounded nor afloat and
has the surface too low. -/
lemma physical_node_iff {thickness : K} (hthick : 1 ≤ thickness) (surface bed : K) :
    Physical thickness (nodeSurface thickness surface bed) bed ↔
      (thickness + bed / densityRatio = 0 → thickness + bed ≤ surface) := by
  rw [nodeSurface]
  rcases lt_trichotomy (thickness + bed / densityRatio) 0 with h | h | h
  · -- afloat, exactly at flotation, grounded
    simp only [if_neg h.not_gt, if_pos h, sub_add_cancel]
    refine iff_of_true ⟨hthick, ?_, fun h' => absurd h h'.not_gt, fun _ => rfl⟩
      fun h' => absurd h' h.ne
    have hbed : bed < -(thickness * densityRatio) := by
      have hmul := (lt_neg_iff_add_neg'.mpr h)
      rw [div_lt_iff₀ densityRatio_pos, neg_mul] at hmul
      exact hmul
    have hbound := mul_le_mul_of_nonneg_left (freeboardRatio_bound (K := K))
      (zero_le_one.trans hthick)
    rw [mul_sub, mul_one] at hbound
    linarith
  · simp only [h, lt_irrefl, if_false, sub_add_cancel]
    constructor
    · exact fun hp _ => by linarith [hp.above]
    · intro hle
      have hsurface := hle trivial
      exact ⟨hthick, by linarith, fun h' => absurd h h'.ne', fun h' => absurd h h'.ne⟩
  · simp only [if_pos h, if_neg h.not_gt]
    refine iff_of_true ⟨hthick, (add_sub_cancel_right bed thickness).ge, fun _ =>
      add_sub_cancel_right bed thickness, fun h' => absurd h h'.not_gt⟩ fun h' => absurd h' h.ne'

end Node

/-! ### The fix with all variables -/

section All

variable {K : Type} {N : ℕ} {ix : RootIndex}

/-- What is stored is in the rows of the variable that rank 0 has, and nowhere else. -/
lemma storeVar_row (A : Recvbuf K N) (arr : Arr K N) {i k : ℕ}
    (hi : i < ix.vecInputs.names.length) (hk : k < ix.vecInputs.names.length)
    (hsize : ix.size k = ix.nodes) {j : ℕ} (hj : j < ix.size i) :
    (storeVar ix A arr (some k)).row (ix.start i + j) =
      if i = k ∧ j < ix.count then arr.get j else A.row (ix.start i + j) := by
  have hcount := ix.count_le
  simp only [storeVar]
  by_cases h : ix.start k ≤ ix.start i + j ∧ ix.start i + j < ix.start k + ix.count
  · obtain rfl : i = k := ix.blocks.block_unique (i := j) (j := ix.start i + j - ix.start k) hi hk
      (by rwa [RootIndex.size_blocks]) (by rw [RootIndex.size_blocks]; omega)
      (by change ix.start i + j = ix.start k + _; omega)
    rw [if_pos h, if_pos ⟨rfl, by omega⟩, Nat.add_sub_cancel_left]
  · rw [if_neg h, if_neg]
    rintro ⟨rfl, hlt⟩
    exact h ⟨Nat.le_add_right _ _, by omega⟩

/-- What is stored later stays. -/
lemma storeVar_storeVar (A : Recvbuf K N) (arr arr' : Arr K N) (k : ℕ) :
    storeVar ix (storeVar ix A arr (some k)) arr' (some k) = storeVar ix A arr' (some k) := by
  simp only [storeVar]
  congr 1
  funext r
  split_ifs <;> rfl

/-- Storing what is there. -/
lemma storeVar_eq_self {A : Recvbuf K N} {arr : Arr K N} {k : ℕ}
    (h : ∀ j < ix.count, arr.get j = A.row (ix.start k + j)) : storeVar ix A arr (some k) = A := by
  simp only [storeVar]
  congr 1
  funext r
  split_ifs with hr
  · rw [h _ (by omega), Nat.add_sub_cancel' hr.1]
  · rfl

variable [Field K] [LinearOrder K]

/-- **The fix** with all three variables. -/
lemma issmFix_some {t s b : ℕ} (ht : ix.thicknessVar = some t) (hs : ix.surfaceVar = some s)
    (hb : ix.bedVar = some b) (A : Recvbuf K N) :
    issmFix ix A = .ok (storeVar ix (storeVar ix A ⟨true, fun j e =>
        nodeSurface (nodeThickness (A.row (ix.start t + j) e)) (A.row (ix.start s + j) e)
          (A.row (ix.start b + j) e)⟩ (some s))
      ⟨true, fun j e => nodeThickness (A.row (ix.start t + j) e)⟩ (some t)) := by
  rw [issmFix, ht, hs, hb]
  refine (congrArg (fun B => Except.ok (storeVar ix B _ (some t)))
    (storeVar_storeVar A _ _ s)).trans ?_
  simp only [Arr.zip, Arr.map, Arr.get, decide_eq_true_eq]
  rfl

/-- The nodes and the other rows after the fix. -/
lemma issmFix_rows {t s b : ℕ} (ht : ix.thicknessVar = some t) (hs : ix.surfaceVar = some s)
    (hb : ix.bedVar = some b) (A : Recvbuf K N) : ∃ fixed, issmFix ix A = .ok fixed ∧
      fixed.n = A.n ∧
      (∀ j < ix.nodes, ∀ e,
        fixed.row (ix.start t + j) e = (if j < ix.count then
          nodeThickness (A.row (ix.start t + j) e) else A.row (ix.start t + j) e) ∧
        fixed.row (ix.start s + j) e = (if j < ix.count then
          nodeSurface (nodeThickness (A.row (ix.start t + j) e)) (A.row (ix.start s + j) e)
            (A.row (ix.start b + j) e) else A.row (ix.start s + j) e)) ∧
      ∀ i < ix.vecInputs.names.length, i ≠ t → i ≠ s → ∀ j < ix.size i,
        fixed.row (ix.start i + j) = A.row (ix.start i + j) := by
  have hts : t ≠ s := RootIndex.find_ne (by decide) ht hs
  have hsizet := RootIndex.size_of_find (by decide) ht
  have hsizes := RootIndex.size_of_find (by decide) hs
  have htlt := (RootIndex.find_eq_some ht).1
  have hslt := (RootIndex.find_eq_some hs).1
  -- the surface is stored before the thickness, in rows of its own
  refine ⟨_, issmFix_some ht hs hb A, rfl, fun j hj e => ⟨?_, ?_⟩, fun i hi hit his j hj => ?_⟩
  · rw [storeVar_row _ _ htlt htlt hsizet (by rwa [hsizet]),
      storeVar_row _ _ htlt hslt hsizes (by rwa [hsizet])]
    simp only [hts, true_and, false_and, if_false]
    split_ifs <;> rfl
  · rw [storeVar_row _ _ hslt htlt hsizet (by rwa [hsizes]),
      storeVar_row _ _ hslt hslt hsizes (by rwa [hsizes])]
    simp only [hts.symm, true_and, false_and, if_false]
    split_ifs <;> rfl
  · rw [storeVar_row _ _ hi htlt hsizet hj, storeVar_row _ _ hi hslt hsizes hj]
    simp only [hit, his, false_and, if_false]

/-- What the fix left is left once more. -/
lemma issmFix_idem {A fixed : Recvbuf K N} {t s b : ℕ} (ht : ix.thicknessVar = some t)
    (hs : ix.surfaceVar = some s) (hb : ix.bedVar = some b) (h : issmFix ix A = .ok fixed) :
    issmFix ix fixed = .ok fixed := by
  obtain ⟨_, hfixed, -, hnodes, hothers⟩ := issmFix_rows ht hs hb A
  obtain rfl := Except.ok.inj (h.symm.trans hfixed)
  have hbt := RootIndex.find_ne (by decide) hb ht
  have hbs := RootIndex.find_ne (by decide) hb hs
  -- the bed is not touched, the thickness and the surface are what the fix has made of them
  have hbed : ∀ j < ix.count, fixed.row (ix.start b + j) = A.row (ix.start b + j) := fun j hj =>
    hothers b (RootIndex.find_eq_some hb).1 hbt hbs j
      (by rw [RootIndex.size_of_find (by decide) hb]; exact hj.trans_le ix.count_le)
  have hthick : ∀ j < ix.count, ∀ e, fixed.row (ix.start t + j) e =
      nodeThickness (A.row (ix.start t + j) e) := fun j hj e =>
    (hnodes j (hj.trans_le ix.count_le) e).1.trans (if_pos hj)
  have hsurface : ∀ j < ix.count, ∀ e, fixed.row (ix.start s + j) e =
      nodeSurface (nodeThickness (A.row (ix.start t + j) e)) (A.row (ix.start s + j) e)
        (A.row (ix.start b + j) e) := fun j hj e =>
    (hnodes j (hj.trans_le ix.count_le) e).2.trans (if_pos hj)
  have hstores : storeVar ix fixed ⟨true, fun j e =>
      nodeSurface (nodeThickness (fixed.row (ix.start t + j) e)) (fixed.row (ix.start s + j) e)
        (fixed.row (ix.start b + j) e)⟩ (some s) = fixed := storeVar_eq_self fun j hj => by
    funext e
    simp only [Arr.get, if_true]
    rw [hthick j hj, hsurface j hj, hbed j hj, nodeThickness_of_le (one_le_nodeThickness _),
      nodeSurface_idem]
  have hstoret : storeVar ix fixed ⟨true, fun j e => nodeThickness (fixed.row (ix.start t + j) e)⟩
      (some t) = fixed := storeVar_eq_self fun j hj => by
    funext e
    simp only [Arr.get, if_true]
    rw [hthick j hj, nodeThickness_of_le (one_le_nodeThickness _)]
  rw [issmFix_some ht hs hb, hstores, hstoret]

end All

/-! ### The fix without some variable -/

section Views

variable {K : Type} {N : ℕ} {ix : RootIndex}

/-- No column is picked, and the values of no column do not fit the rows. -/
lemma Arr.putWhere_of_none {mask : Arr Bool N} {dst src : Arr K N} (hN : 0 < N)
    (hmask : mask.twoDim = false) (hdst : dst.twoDim = true)
    (hnone : ∀ e, mask.row 0 e = false) (count : ℕ) :
    Arr.putWhere count mask dst src = .error .valueError := by
  have hcols : ((List.finRange N).filter fun e => mask.row 0 e) = [] :=
    List.filter_eq_nil_iff.mpr fun e _ => by rw [hnone e]; exact Bool.false_ne_true
  have hzero : ¬(0 = 1 ∨ 0 = N) := by omega
  simp only [Arr.putWhere, hmask, hdst, hcols, List.length_nil, hzero, if_true, if_false,
    Bool.false_eq_true]

lemma loadVar_none {A : Recvbuf K N} (hn : 0 < A.n) :
    loadVar ix A none = .ok ⟨false, fun _ => A.row 0⟩ := if_pos hn

end Views

section Missing

variable {K : Type} [Field K] [LinearOrder K] [IsStrictOrderedRing K] {N : ℕ+} {ix : RootIndex}

/-- Ice of this thickness on a bed of the same number is grounded. -/
lemma level_pos (x : K) : 0 < nodeThickness x + nodeThickness x / densityRatio := by
  have hpos : 0 < nodeThickness x := zero_lt_one.trans_le (one_le_nodeThickness x)
  exact add_pos hpos (div_pos hpos densityRatio_pos)

/-- **What the fix raises** without some of the variables: a mask of two dimensions, which the
thickness or the bed gives, meets a view, or the values of no column meet the surface. -/
theorem issmFix_error {A : Recvbuf K N} (hn : 0 < A.n)
    (hmissing : ix.thicknessVar = none ∨ ix.surfaceVar = none ∨ ix.bedVar = none)
    (hsome : ix.thicknessVar ≠ none ∨ ix.surfaceVar ≠ none ∨ ix.bedVar ≠ none) :
    issmFix ix A = .error
      (if ix.thicknessVar ≠ none ∨ ix.bedVar ≠ none then .indexError else .valueError) := by
  cases ht : ix.thicknessVar with
  | none =>
      cases hb : ix.bedVar with
      | none =>
          obtain ⟨s, hs⟩ : ∃ s, ix.surfaceVar = some s := by
            simpa [ht, hb, Option.ne_none_iff_exists'] using hsome
          simp only [issmFix, ht, hs, hb, loadVar, if_pos hn, bind, Except.bind]
          -- only the surface has rows, and the mask of the view picks none of them
          rw [Arr.putWhere_of_none N.pos rfl rfl
            (fun e => decide_eq_false (level_pos (A.row 0 e)).not_gt)]
          simp
      | some b =>
          -- the thickness has no second dimension for the mask
          cases hs : ix.surfaceVar <;>
            simp [issmFix, ht, hs, hb, loadVar, hn, Arr.putWhere, Arr.map, Arr.zip, Arr.sync, bind,
              Except.bind]
  | some t =>
      cases hs : ix.surfaceVar with
      | none =>
          cases hb : ix.bedVar <;>
            simp [issmFix, ht, hs, hb, loadVar, hn, Arr.putWhere, Arr.map, Arr.zip, Arr.sync, bind,
              Except.bind]
      | some s =>
          -- the second assignment takes the values of the bed
          obtain hb : ix.bedVar = none := by simpa [ht, hs] using hmissing
          simp [issmFix, ht, hs, hb, loadVar, hn, Arr.putWhere, Arr.map, Arr.zip, Arr.sync, bind,
            Except.bind]

omit [IsStrictOrderedRing K] in
/-- A view needs a row. -/
lemma pos_of_issmFix {A fixed : Recvbuf K N} (h : issmFix ix A = .ok fixed)
    (hmissing : ix.thicknessVar = none ∨ ix.surfaceVar = none ∨ ix.bedVar = none) : 0 < A.n := by
  have hload : ∀ {i : Option ℕ} {arr : Arr K N}, loadVar ix A i = .ok arr → i = none → 0 < A.n := by
    rintro _ arr h rfl
    by_contra hn
    rw [loadVar, if_neg hn] at h
    cases h
  obtain ⟨thickness, hthickness, h⟩ := Keyed.bind_eq_ok.mp h
  obtain ⟨surface, hsurface, h⟩ := Keyed.bind_eq_ok.mp h
  obtain ⟨bed, hbed, -⟩ := Keyed.bind_eq_ok.mp h
  rcases hmissing with hi | hi | hi
  · exact hload hthickness hi
  · exact hload hsurface hi
  · exact hload hbed hi

/-- Without all three the first row is doubled. -/
lemma issmFix_none {A : Recvbuf K N} (ht : ix.thicknessVar = none) (hs : ix.surfaceVar = none)
    (hb : ix.bedVar = none) (hn : 0 < A.n) : ∃ fixed, issmFix ix A = .ok fixed ∧
      fixed.row 0 = fun e => nodeThickness (A.row 0 e) + nodeThickness (A.row 0 e) := by
  rw [issmFix, ht, hs, hb, loadVar_none hn]
  refine ⟨_, rfl, funext fun e => ?_⟩
  have hpos := level_pos (A.row 0 e)
  have hneg := hpos.not_gt
  simp only [nodeThickness] at hpos hneg ⊢
  simp [Arr.zip, Arr.map, Arr.get, Arr.sync, keep, storeVar, hpos, hneg]

/-- **When the fix goes through**: all three variables are there, or none. -/
theorem issmFix_ok_iff {A : Recvbuf K N} (hn : 0 < A.n) : (∃ fixed, issmFix ix A = .ok fixed) ↔
    (ix.thicknessVar ≠ none ∧ ix.surfaceVar ≠ none ∧ ix.bedVar ≠ none) ∨
      (ix.thicknessVar = none ∧ ix.surfaceVar = none ∧ ix.bedVar = none) := by
  by_cases hmissing : ix.thicknessVar = none ∨ ix.surfaceVar = none ∨ ix.bedVar = none
  · by_cases hsome : ix.thicknessVar ≠ none ∨ ix.surfaceVar ≠ none ∨ ix.bedVar ≠ none
    · rw [issmFix_error hn hmissing hsome]
      refine iff_of_false nofun ?_
      tauto
    · push Not at hsome
      obtain ⟨fixed, hfixed, -⟩ := issmFix_none hsome.1 hsome.2.1 hsome.2.2 hn
      exact iff_of_true ⟨fixed, hfixed⟩ (.inr hsome)
  · push Not at hmissing
    obtain ⟨t, ht⟩ := Option.ne_none_iff_exists'.mp hmissing.1
    obtain ⟨b, hb⟩ := Option.ne_none_iff_exists'.mp hmissing.2.2
    obtain ⟨s, hs⟩ := Option.ne_none_iff_exists'.mp hmissing.2.1
    exact iff_of_true ⟨_, issmFix_some ht hs hb A⟩ (.inl hmissing)

end Missing

/-! ### When the fix does what it is for -/

section Main

variable {K : Type} [Field K] [LinearOrder K] [IsStrictOrderedRing K] {N : ℕ+} (ix : RootIndex)

/-- What the fix needs of a node: one that rank 0 has is not just about to float with its
surface too low, and one that it does not have is physical already. -/
def RootIndex.NodeFits (j : ℕ) (thickness surface bed : K) : Prop :=
  if j < ix.count then
    nodeThickness thickness + bed / densityRatio = 0 → nodeThickness thickness + bed ≤ surface
  else Physical thickness surface bed

variable {ix}

/-- With all three variables it is a matter of the nodes. -/
lemma fixHolds_iff_nodes {t s b : ℕ} (ht : ix.thicknessVar = some t) (hs : ix.surfaceVar = some s)
    (hb : ix.bedVar = some b) (A : Recvbuf K N) : FixHolds ix A ↔
      ∀ j < ix.nodes, ∀ e, ix.NodeFits j (A.row (ix.start t + j) e) (A.row (ix.start s + j) e)
        (A.row (ix.start b + j) e) := by
  obtain ⟨fixed, hfixed, hn, hnodes, hothers⟩ := issmFix_rows ht hs hb A
  have hbt := RootIndex.find_ne (by decide) hb ht
  have hbs := RootIndex.find_ne (by decide) hb hs
  -- a node is physical after the fix exactly if it fits
  have hfits : ∀ j < ix.nodes, ∀ e, Physical (fixed.row (ix.start t + j) e)
      (fixed.row (ix.start s + j) e) (fixed.row (ix.start b + j) e) ↔
        ix.NodeFits j (A.row (ix.start t + j) e) (A.row (ix.start s + j) e)
          (A.row (ix.start b + j) e) := by
    intro j hj e
    have hbed := hothers b (RootIndex.find_eq_some hb).1 hbt hbs j
      (by rwa [RootIndex.size_of_find (by decide) hb])
    rw [(hnodes j hj e).1, (hnodes j hj e).2, hbed, RootIndex.NodeFits]
    split_ifs
    · exact physical_node_iff (one_le_nodeThickness _) _ _
    · rfl
  constructor
  · rintro ⟨_, hfix, ⟨-, hphysical, -⟩, -⟩ j hj e
    obtain rfl := Except.ok.inj (hfixed.symm.trans hfix)
    exact (hfits j hj e).mp (hphysical t s b ht hs hb j hj e)
  · refine fun h => ⟨fixed, hfixed, ⟨hn, ?_, ?_⟩, issmFix_idem ht hs hb hfixed⟩
    · intro t' s' b' ht' hs' hb' j hj e
      obtain rfl := Option.some.inj (ht.symm.trans ht')
      obtain rfl := Option.some.inj (hs.symm.trans hs')
      obtain rfl := Option.some.inj (hb.symm.trans hb')
      exact (hfits j hj e).mpr (h j hj e)
    · exact fun i hi hit his _ j hj => hothers i hi (fun h => hit (ht.trans (congrArg some h.symm)))
        (fun h => his (hs.trans (congrArg some h.symm))) j hj

/-- Without one of them it does not hold. -/
lemma not_fixHolds_of_missing
    (hmissing : ix.thicknessVar = none ∨ ix.surfaceVar = none ∨ ix.bedVar = none)
    (X : ℕ → Fin N → K) : ¬FixHolds ix ⟨ix.nd, X⟩ := by
  rintro ⟨fixed, hfix, hfixes, -⟩
  have hn := pos_of_issmFix hfix hmissing
  by_cases hsome : ix.thicknessVar ≠ none ∨ ix.surfaceVar ≠ none ∨ ix.bedVar ≠ none
  · rw [issmFix_error hn hmissing hsome] at hfix
    cases hfix
  push Not at hsome
  obtain ⟨ht, hs, hb⟩ := hsome
  obtain ⟨_, hfix', hrow⟩ := issmFix_none ht hs hb hn
  obtain rfl := Except.ok.inj (hfix.symm.trans hfix')
  -- the first row is one of some variable, and that has been doubled
  obtain ⟨i, hi, j, hj, hij⟩ := ix.blocks.exists_block hn
  rw [RootIndex.size_blocks] at hj
  have hsame := hfixes.others i hi (by rw [ht]; exact nofun) (by rw [hs]; exact nofun)
    (by rw [hb]; exact nofun) j hj
  have hzero : ix.start i + j = 0 := hij
  rw [hzero, hrow] at hsame
  have hdouble : nodeThickness (X 0 ⟨0, N.pos⟩) + nodeThickness (X 0 ⟨0, N.pos⟩) =
      X 0 ⟨0, N.pos⟩ := congrFun hsame ⟨0, N.pos⟩
  have hone := one_le_nodeThickness (X 0 ⟨0, N.pos⟩)
  rcases lt_or_ge (X 0 ⟨0, N.pos⟩) 1 with hlt | hge
  · linarith
  · rw [nodeThickness_of_le hge] at hdouble
    linarith

/-- **The ISSM fix** does what it is for exactly if all three variables are there and every
node fits. -/
theorem issmFix_iff (ix : RootIndex) (X : ℕ → Fin N → K) : FixHolds ix ⟨ix.nd, X⟩ ↔
    ∃ t s b, ix.thicknessVar = some t ∧ ix.surfaceVar = some s ∧ ix.bedVar = some b ∧
      ∀ j < ix.nodes, ∀ e, ix.NodeFits j (X (ix.start t + j) e) (X (ix.start s + j) e)
        (X (ix.start b + j) e) := by
  rcases ht : ix.thicknessVar with _ | t
  · exact iff_of_false (not_fixHolds_of_missing (.inl ht) X) nofun
  rcases hs : ix.surfaceVar with _ | s
  · exact iff_of_false (not_fixHolds_of_missing (.inr (.inl hs)) X) (by simp)
  rcases hb : ix.bedVar with _ | b
  · exact iff_of_false (not_fixHolds_of_missing (.inr (.inr hb)) X) (by simp)
  simpa using fixHolds_iff_nodes ht hs hb (⟨ix.nd, X⟩ : Recvbuf K N)

end Main

/-! ### One node and one member -/

/-- Variables with one node. -/
def oneNode (names : VecInputs) : RootIndex where
  vecInputs := names
  size := fun _ => 1
  nodes := 1
  count := 1
  count_le := Nat.le_refl 1
  mesh := fun _ _ => rfl

def threeVars : RootIndex := oneNode ⟨["thickness", "surface", "bed"], by decide⟩

def noBed : RootIndex := oneNode ⟨["thickness", "surface"], by decide⟩

/-- Ice of thickness `1000` on a bed at `-800` is grounded, and the fix makes it so. -/
theorem issmFix_iff_grounded :
    FixHolds threeVars
      (⟨threeVars.nd, fun i (_ : Fin (1 : ℕ+)) => [1000, 100, -800].getD i (0 : ℚ)⟩) := by
  refine (issmFix_iff threeVars _).mpr ⟨0, 1, 2, by decide +kernel, by decide +kernel,
    by decide +kernel, fun j hj e => ?_⟩
  obtain rfl : j = 0 := Nat.lt_one_iff.mp hj
  have hlevel : nodeThickness (1000 : ℚ) + -800 / densityRatio ≠ 0 := by
    norm_num [nodeThickness, densityRatio]
  exact fun h => absurd h hlevel

/-- On a bed at `-893` it is just about to float, with its surface at `100` and so its base
below the bed. Without a bed the fix raises. -/
theorem issmFix_flotation :
    ¬FixHolds threeVars
      (⟨threeVars.nd, fun i (_ : Fin (1 : ℕ+)) => [1000, 100, -893].getD i (0 : ℚ)⟩) ∧
    ¬FixHolds noBed (⟨noBed.nd, fun i (_ : Fin (1 : ℕ+)) => [1000, 100].getD i (0 : ℚ)⟩) := by
  refine ⟨fun h => ?_, not_fixHolds_of_missing (.inr (.inr (by decide +kernel))) _⟩
  have hfits := (fixHolds_iff_nodes (t := 0) (s := 1) (b := 2) (by decide +kernel)
    (by decide +kernel) (by decide +kernel) _).mp h
  have hlevel : nodeThickness (1000 : ℚ) + -893 / densityRatio = 0 := by
    norm_num [nodeThickness, densityRatio]
  have hle : nodeThickness (1000 : ℚ) + -893 ≤ 100 :=
    hfits 0 Nat.zero_lt_one ⟨0, Nat.zero_lt_one⟩ hlevel
  norm_num [nodeThickness] at hle

end Icesee
