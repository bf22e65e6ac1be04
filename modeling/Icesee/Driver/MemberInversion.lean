import Icesee.Driver.Inversion
import Icesee.Lib.Deal
import Icesee.Mpi.IndexMap
import Icesee.Store.StepWriters

/-!
The inversion of every member in `parallel_write_ensemble_scattered`.

The ranks deal the members among themselves; each inverts its own members and sends what it
found as a list of updates, and the root applies the lists one after the other. The rows of
an update are those that the index map of its own rank has of the friction, so that the
updates go through only where that map has all of them (`invertMembers_ok_iff`).
`memberInversion_iff` says when the full state with the friction of every member replaced is
what is written, for any number of ranks and any order of the lists.
-/

namespace Icesee

open Deal Tiling

variable {N : ℕ}

/-- The names under which a model returns the friction, in lower case. -/
def frictionNames : List String :=
  ["coefficient", "friction", "friction_coefficient", "fcoef", "frictioncoefficient"]

/-- What `icesee_get_index` gives a rank of every variable: `dim` rows from `start_idx` on. -/
structure RankRows (hdim : ℕ) where
  startIdx : ℕ
  dim : ℕ
  le : startIdx + dim ≤ hdim
  dim_pos : 0 < dim

/-- A rank that has every row. -/
def RankRows.all {hdim : ℕ} (h : 0 < hdim) : RankRows hdim := ⟨0, hdim, hdim.zero_add.le, h⟩

namespace Inversion

variable (inv : Inversion) (own : RankRows inv.hdim)

/-- The name of the friction. -/
def frictionName : String := inv.vecInputs.getD inv.frictionIdx ""

/-- `indx_map[key]` on a rank. -/
def indexMap (key : String) : Except RunError (List ℕ) := do
  let varStart ← inv.indexStart key
  let start := varStart + own.startIdx
  return arange start (start + own.dim)

/-- The injection of the analysis `G` into the state `F` before it, on a rank with the rows
`own`. -/
def injectOn {α : Type} (F G : BlockCopy.Rows α) : Except RunError (BlockCopy.Rows α) :=
  inv.vecInputsNew.zipIdx.foldlM (fun A (key, ii) => do
    let start ← inv.indexStart key
    A.setRows .valueError (start + own.startIdx) (start + own.startIdx + own.dim)
      (G.slice (ii * inv.hdim) (ii * inv.hdim + inv.hdim))) F

end Inversion

/-- The inverse step of a model: a dictionary of variables for a member and its column. The
friction that it returns has a value for every row. -/
structure InverseStep (inv : Inversion) (N : ℕ) where
  inverseStepSingle : Fin N → (ℕ → ℝ) → List (String × List ℝ)
  nodup : ∀ ens x, ((inverseStepSingle ens x).map Prod.fst).Nodup
  fits : ∀ ens x, ∀ p ∈ inverseStepSingle ens x, p.1.toLower ∈ frictionNames →
    p.1 = inv.frictionName ∧ p.2.length = inv.hdim

/-- `update_dict`: the member, and `friction_idx` with `friction_val` if the model returned a
friction. -/
structure MemberUpdate (N : ℕ) where
  ensId : Fin N
  friction : Option (List ℕ × List ℝ)

/-- The update of one member, from what the inverse step returned. -/
def updateDict (inv : Inversion) (own : RankRows inv.hdim) (ens : Fin N)
    (data : List (String × List ℝ)) : Except RunError (MemberUpdate N) :=
  data.foldlM (fun upd (key, value) =>
    if key.toLower ∈ frictionNames then do
      let frictionIdx ← inv.indexMap own key
      return { upd with friction := some (frictionIdx, value) }
    else return upd) ⟨ens, none⟩

/-- `data_before_arr[friction_idx, ens_id] = friction_val`, in an array that has the rows. A
single value is repeated. -/
def applyUpdate (A : Recvbuf ℝ N) (upd : MemberUpdate N) : Except RunError (Recvbuf ℝ N) :=
  match upd.friction with
  | none => .ok A
  | some (idx, value) =>
      if value.length = idx.length ∨ value.length = 1 then
        .ok ⟨A.n, fun r e => if e = upd.ensId ∧ r ∈ idx then
          value.getD (if value.length = 1 then 0 else idx.idxOf r) 0 else A.row r e⟩
      else .error .valueError

/-- `range(rank, Nens, size)`. -/
def members (N size rank : ℕ) : List (Fin N) :=
  (hand N size (roundsFor N size) rank).pmap Fin.mk fun _ h => (mem_hand.mp h).2

namespace InverseStep

variable {inv : Inversion} (model : InverseStep inv N)

/-- The inversion on `size` ranks with the rows `own`. The lists of updates are applied in a
given order. -/
def invertMembers (size : ℕ) (own : ℕ → RankRows inv.hdim) (order : List ℕ)
    (full : Recvbuf ℝ N) : Except RunError (Recvbuf ℝ N) := do
  let gatheredUpdates ← (List.range size).mapM fun rank =>
    (members N size rank).mapM fun ens =>
      updateDict inv (own rank) ens (model.inverseStepSingle ens fun r => full.row r ens)
  (order.flatMap fun rank => gatheredUpdates.getD rank []).foldlM applyUpdate full

/-- The friction that the inverse step returns for a member. -/
def friction (full : Recvbuf ℝ N) (ens : Fin N) : Option (List ℝ) :=
  ((model.inverseStepSingle ens fun r => full.row r ens).find?
    fun p => p.1.toLower ∈ frictionNames).map Prod.snd

/-- An entry of the column of a member, whose friction has been replaced. -/
def patch (inv : Inversion) (r : ℕ) : Option (List ℝ) → ℝ → ℝ
  | none, x => x
  | some value, x =>
      if inv.frictionIdx * inv.hdim ≤ r ∧ r < inv.frictionIdx * inv.hdim + inv.hdim then
        value.getD (r - inv.frictionIdx * inv.hdim) 0 else x

/-- The full state with the friction of every member replaced. -/
def replaced (full : Recvbuf ℝ N) : Recvbuf ℝ N :=
  ⟨full.n, fun r e => patch inv r (model.friction full e) (full.row r e)⟩

end InverseStep

/-! ### Rows of a rank -/

namespace Inversion

variable {inv : Inversion} {own : RankRows inv.hdim}

/-- `indx_map` has the array that `icesee_get_index` makes for the rank. -/
lemma indexMap_eq_indices (kw : EqualSizes) (hnames : kw.vecInputs.names = inv.vecInputs)
    (hhdim : kw.hdim = inv.hdim) (localSize : ℕ) {i : ℕ} {key : String}
    (hkey : inv.vecInputs[i]? = some key) : inv.indexMap own key = .ok (IndexResult.indices
      ⟨(kw.indexLoop own.startIdx own.dim kw.vecInputs.names (fun _ => none) 0).1, localSize⟩
      key) := by
  obtain ⟨hi, hget⟩ := List.getElem?_eq_some_iff.mp hkey
  rw [← hnames] at hi
  have hname : kw.vecInputs.names.getD i "" = key := by
    rw [hnames, List.getD_eq_getElem?_getD, hkey, Option.getD_some]
  rw [← hname, kw.indices_indexLoop _ _ _ hi, hname, indexMap, indexStart_eq hkey, hhdim]
  exact congrArg Except.ok (by rw [arange, Nat.add_sub_cancel_left])

/-- A rank with all rows injects as the injection does. -/
lemma injectOn_eq_inject {α : Type} (h : own.dim = inv.hdim) (F G : BlockCopy.Rows α) :
    inv.injectOn own F G = inv.inject F G := by
  have hstart : own.startIdx = 0 := by
    have := own.le
    omega
  rw [injectOn, inject, hstart, h]
  rfl

/-- The friction is there. -/
lemma getElem?_frictionIdx : inv.vecInputs[inv.frictionIdx]? = some inv.frictionName := by
  rw [frictionName, List.getD_eq_getElem _ _ inv.friction_lt]
  exact List.getElem?_eq_getElem inv.friction_lt

/-- The rows of the friction that a rank has. -/
def frictionRows (inv : Inversion) (own : RankRows inv.hdim) : List ℕ :=
  List.range' (inv.frictionIdx * inv.hdim + own.startIdx) own.dim

lemma indexMap_frictionName : inv.indexMap own inv.frictionName = .ok (inv.frictionRows own) := by
  rw [indexMap, indexStart_eq getElem?_frictionIdx, frictionRows]
  exact congrArg Except.ok (by rw [arange, Nat.add_sub_cancel_left])

end Inversion

/-! ### Updates -/

namespace InverseStep

variable {inv : Inversion} (model : InverseStep inv N)

/-- The dictionary has one friction at most, and that is the one of the update. -/
lemma updateDict_eq (own : RankRows inv.hdim) (full : Recvbuf ℝ N) (ens : Fin N) :
    updateDict inv own ens (model.inverseStepSingle ens fun r => full.row r ens) =
      .ok ⟨ens, (model.friction full ens).map fun value => (inv.frictionRows own, value)⟩ := by
  have key : ∀ (data : List (String × List ℝ)) (upd : MemberUpdate N),
      (data.map Prod.fst).Nodup →
      (∀ p ∈ data, p.1.toLower ∈ frictionNames → p.1 = inv.frictionName) →
      data.foldlM (fun upd (key, value) =>
        if key.toLower ∈ frictionNames then do
          let frictionIdx ← inv.indexMap own key
          return { upd with friction := some (frictionIdx, value) }
        else return upd) upd =
      (.ok ⟨upd.ensId, ((data.find? fun p => p.1.toLower ∈ frictionNames).map
        fun p => (inv.frictionRows own, p.2)).or upd.friction⟩ : Except RunError _) := by
    intro data
    -- along the dictionary, for any update so far
    induction data with
    | nil => exact fun upd _ _ => rfl
    | cons p data ih =>
        intro upd hnodup hdata
        rw [List.map_cons, List.nodup_cons] at hnodup
        have hrest := fun q hq => hdata q (List.mem_cons_of_mem p hq)
        rw [List.foldlM_cons]
        dsimp only
        by_cases hp : p.1.toLower ∈ frictionNames
        · have hname := hdata p List.mem_cons_self hp
          -- another friction would have the same name
          have hnone : data.find? (fun p => p.1.toLower ∈ frictionNames) = none := by
            refine List.find?_eq_none.mpr fun q hq hlower => hnodup.1 ?_
            rw [hname, ← hrest q hq (of_decide_eq_true hlower)]
            exact List.mem_map_of_mem hq
          rw [if_pos hp, hname, Inversion.indexMap_frictionName,
            List.find?_cons_of_pos (by simpa using hp)]
          refine (ih _ hnodup.2 hrest).trans ?_
          rw [hnone]
          rfl
        · rw [if_neg hp, List.find?_cons_of_neg (by simpa using hp)]
          exact ih upd hnodup.2 hrest
  rw [updateDict, key _ _ (model.nodup ens _) fun p hp hlower => (model.fits ens _ p hp hlower).1,
    Option.or_none, friction, Option.map_map]
  rfl

lemma length_friction {full : Recvbuf ℝ N} {ens : Fin N} {value : List ℝ}
    (h : model.friction full ens = some value) : value.length = inv.hdim := by
  obtain ⟨p, hp, rfl⟩ := Option.map_eq_some_iff.mp h
  have hlower := List.find?_some hp
  exact (model.fits ens _ p (List.mem_of_find?_eq_some hp) (of_decide_eq_true hlower)).2

/-- The update of a member goes through if its rank has all rows of the friction. -/
def Whole (full : Recvbuf ℝ N) (own : RankRows inv.hdim) (ens : Fin N) : Prop :=
  model.friction full ens ≠ none → own.dim = inv.hdim

/-- **One update**: it goes through only with all rows of the friction, and then replaces those
of its own member. -/
lemma applyUpdate_ok_iff (own : RankRows inv.hdim) (full A B : Recvbuf ℝ N) (ens : Fin N) :
    applyUpdate A ⟨ens, (model.friction full ens).map fun value =>
        (inv.frictionRows own, value)⟩ = .ok B ↔
      model.Whole full own ens ∧ ⟨A.n, fun r e =>
        if e = ens then patch inv r (model.friction full ens) (A.row r e) else A.row r e⟩ = B := by
  rw [applyUpdate, Whole]
  cases h : model.friction full ens with
  | none => simp [patch]
  | some value =>
      have hlen := model.length_friction h
      have hrows : (inv.frictionRows own).length = own.dim := List.length_range'
      have hdim := own.dim_pos
      have hle := own.le
      have hfits : value.length = (inv.frictionRows own).length ∨ value.length = 1 ↔
          own.dim = inv.hdim := by
        rw [hlen, hrows]
        omega
      dsimp only [Option.map_some]
      simp only [hfits]
      by_cases hwhole : own.dim = inv.hdim
      · have hstart : own.startIdx = 0 := by omega
        rw [if_pos hwhole, and_iff_right fun _ => hwhole, Except.ok.injEq, Inversion.frictionRows,
          hstart, hwhole, Nat.add_zero]
        refine Eq.congr_left ?_
        congr 1
        funext r e
        rw [ite_and, patch]
        refine if_congr Iff.rfl ?_ rfl
        by_cases hr : inv.frictionIdx * inv.hdim ≤ r ∧
            r < inv.frictionIdx * inv.hdim + inv.hdim
        · rw [if_pos hr, if_pos (List.mem_range'_1.mpr hr), idxOf_range' hr]
          -- a single value belongs to a single row
          split_ifs with hone
          · rw [show r - inv.frictionIdx * inv.hdim = 0 by omega]
          · rfl
        · rw [if_neg hr, if_neg fun hmem => hr (List.mem_range'_1.mp hmem)]
      · rw [if_neg hwhole]
        exact iff_of_false (by simp) fun hc => hwhole (hc.1 (Option.some_ne_none _))

/-- **All updates**: they go through if each does, and meet the columns of their members. -/
lemma foldlM_applyUpdate_ok_iff (own : Fin N → RankRows inv.hdim) (full : Recvbuf ℝ N)
    {js : List (Fin N)} (hjs : js.Nodup) (A B : Recvbuf ℝ N) :
    (js.map fun ens => ⟨ens, (model.friction full ens).map fun value =>
        (inv.frictionRows (own ens), value)⟩).foldlM applyUpdate A = .ok B ↔
      (∀ ens ∈ js, model.Whole full (own ens) ens) ∧ ⟨A.n, fun r e =>
        if e ∈ js then patch inv r (model.friction full e) (A.row r e) else A.row r e⟩ = B := by
  induction js generalizing A with
  | nil => simp [pure, Except.pure]
  | cons ens js ih =>
      obtain ⟨hens, hjs⟩ := List.nodup_cons.mp hjs
      rw [List.map_cons, List.foldlM_cons, Keyed.bind_eq_ok]
      simp only [applyUpdate_ok_iff, ih hjs, List.forall_mem_cons]
      -- no later update has the number `ens`
      have hcols : ∀ r e, (if e ∈ js then patch inv r (model.friction full e)
          (if e = ens then patch inv r (model.friction full ens) (A.row r e) else A.row r e)
        else if e = ens then patch inv r (model.friction full ens) (A.row r e) else A.row r e) =
          if e ∈ ens :: js then patch inv r (model.friction full e) (A.row r e)
            else A.row r e := by
        intro r e
        rcases eq_or_ne e ens with rfl | hne
        · rw [if_neg hens, if_pos rfl, if_pos List.mem_cons_self]
        · rw [if_neg hne]
          exact if_congr (by rw [List.mem_cons, or_iff_right hne]) rfl rfl
      simp only [← hcols]
      constructor
      · rintro ⟨_, ⟨hwhole, rfl⟩, hrest, hB⟩
        exact ⟨⟨hwhole, hrest⟩, hB⟩
      · rintro ⟨⟨hwhole, hrest⟩, hB⟩
        exact ⟨_, ⟨hwhole, rfl⟩, hrest, hB⟩

/-! ### All members -/

/-- **The members** are each inverted by one rank, once, whatever the order of the ranks. -/
lemma flatMap_members_perm {size : ℕ} (hsize : 0 < size) {order : List ℕ}
    (horder : order.Perm (List.range size)) :
    (order.flatMap (members N size)).Perm (List.finRange N) := by
  refine (List.map_perm_map_iff Fin.val_injective).mp ?_
  have hval : ∀ rank, (members N size rank).map Fin.val = hand N size (roundsFor N size) rank :=
    fun rank => by rw [members, List.map_pmap, List.pmap_eq_map, List.map_id']
  rw [List.map_flatMap, List.map_coe_finRange_eq_range]
  simp only [hval]
  exact (horder.flatMap_right _).trans (flatMap_hand_perm hsize)

/-- A member is inverted by the rank that it is congruent to. -/
lemma mod_of_mem_members {size rank : ℕ} (hrank : rank < size) {ens : Fin N}
    (h : ens ∈ members N size rank) : (ens : ℕ) % size = rank := by
  obtain ⟨c, hc, rfl⟩ := List.mem_pmap.mp h
  exact ((mem_hand_iff hrank).mp hc).1

/-- **The inversion** goes through exactly if every member with a friction is inverted by a rank
that has all rows of it, and then the friction of every member has been replaced. Neither the
number of ranks nor the order of their lists is in the result. -/
theorem invertMembers_ok_iff {size : ℕ} (hsize : 0 < size) (own : ℕ → RankRows inv.hdim)
    {order : List ℕ} (horder : order.Perm (List.range size)) (full B : Recvbuf ℝ N) :
    model.invertMembers size own order full = .ok B ↔
      (∀ ens : Fin N, model.Whole full (own (ens % size)) ens) ∧ model.replaced full = B := by
  have hperm := flatMap_members_perm (N := N) hsize horder
  have hrank : ∀ rank, ((members N size rank).mapM fun ens => updateDict inv (own rank) ens
      (model.inverseStepSingle ens fun r => full.row r ens)) =
      (.ok ((members N size rank).map fun ens => ⟨ens, (model.friction full ens).map fun value =>
        (inv.frictionRows (own rank), value)⟩) : Except RunError _) := by
    intro rank
    simp only [updateDict_eq]
    exact List.mapM_pure
  have hgather : ((List.range size).mapM fun rank => (members N size rank).mapM fun ens =>
      updateDict inv (own rank) ens (model.inverseStepSingle ens fun r => full.row r ens)) =
      (.ok ((List.range size).map fun rank => (members N size rank).map fun ens =>
        ⟨ens, (model.friction full ens).map fun value =>
          (inv.frictionRows (own rank), value)⟩) : Except RunError _) := by
    simp only [hrank]
    exact List.mapM_pure
  -- a member is in the list of one rank only, so its updates name the rank by the member
  have hlists : (order.flatMap fun rank => ((List.range size).map fun rank =>
      (members N size rank).map fun ens => (⟨ens, (model.friction full ens).map fun value =>
        (inv.frictionRows (own rank), value)⟩ : MemberUpdate N)).getD rank []) =
      (order.flatMap (members N size)).map fun ens => ⟨ens, (model.friction full ens).map
        fun value => (inv.frictionRows (own (ens % size)), value)⟩ := by
    rw [List.map_flatMap]
    refine List.flatMap_congr fun rank hrank => ?_
    have hlt := List.mem_range.mp (horder.mem_iff.mp hrank)
    rw [List.getD_eq_getElem _ _ (by simpa using hlt), List.getElem_map, List.getElem_range]
    exact List.map_congr_left fun ens hens => by rw [mod_of_mem_members hlt hens]
  rw [invertMembers, hgather]
  change (order.flatMap _).foldlM applyUpdate full = .ok B ↔ _
  rw [hlists, model.foldlM_applyUpdate_ok_iff (fun ens => own (ens % size)) full
    (hperm.nodup_iff.mpr (List.nodup_finRange N))]
  simp only [hperm.mem_iff, List.mem_finRange, forall_const, if_true, replaced]

end InverseStep

/-! ### What is written -/

/-- A call of the scattered writer with the inversion on `size` ranks. The file of the ensemble
before the analysis has the full state. -/
structure InversionCall (N : ℕ) extends ScatteredArgs N where
  timestep_ne : timestep ≠ 0
  inversion : inversionFlag = true
  inv : Inversion
  before : Recvbuf ℝ N
  before_n : before.n = inv.nd
  model : InverseStep inv N
  size : ℕ+
  own : ℕ → RankRows inv.hdim
  order : List ℕ
  order_perm : order.Perm (List.range size)

namespace InversionCall

/-- The injection on the root and the inversion of the members. -/
def invert (call : InversionCall N) (recvbuf : Recvbuf ℝ N) : Option (Recvbuf ℝ N) := do
  let full ← (call.inv.injectOn (call.own 0) call.before recvbuf).toOption
  (call.model.invertMembers call.size call.own call.order full).toOption

/-- The ranks that invert a member have all rows of the friction, as far as the model returns
one. -/
def AllWhole (call : InversionCall N) (full : Recvbuf ℝ N) : Prop :=
  ∀ ens : Fin N, call.model.Whole full (call.own (ens % call.size)) ens

variable {call : InversionCall N} {prepared full : Recvbuf ℝ N}

/-- What is left of the full state after the inversion. -/
lemma invert_eq_some_iff
    (hinject : call.inv.injectOn (call.own 0) call.before prepared = .ok full) {ens : Recvbuf ℝ N} :
    call.invert prepared = some ens ↔ call.AllWhole full ∧ call.model.replaced full = ens := by
  rw [AllWhole, ← call.model.invertMembers_ok_iff call.size.pos call.own call.order_perm full ens,
    invert, hinject]
  change (call.model.invertMembers call.size call.own call.order full).toOption = some ens ↔ _
  cases call.model.invertMembers call.size call.own call.order full <;> simp [Except.toOption]

/-- The writer with the inversion. -/
lemma write_eq {behind mean : ℕ → ℝ} {chunks : List (List (Fin N → ℝ))} {f : StepFile N}
    (hprep : call.prepare (f.slice (call.timestep - 1))
      ⟨(chunks.map List.length).sum, fun r => chunks.flatten.getD r 0⟩ = some prepared) :
    call.parallelWriteEnsembleScattered behind mean chunks call.invert (some f) =
      (call.invert prepared).bind fun ens =>
        if f.nd = ens.n ∧ call.timestep ≤ f.nt then
          some (f.put call.denkfFlag call.timestep ens.row fun r => rowMean (ens.row r))
        else none := by
  rw [ScatteredArgs.parallelWriteEnsembleScattered, gatherChunks_eq]
  simp only [Option.bind_eq_bind, Option.bind_some, if_neg call.timestep_ne, hprep, call.inversion,
    if_true]

/-- Writing the replaced state. -/
lemma put_replaced_iff {N : ℕ+} (call : InversionCall N) (full : Recvbuf ℝ N) (f : StepFile N) :
    (∃ file', ((some f).bind fun f => if f.nd = full.n ∧ call.timestep ≤ f.nt then
        some (f.put call.denkfFlag call.timestep (call.model.replaced full).row
          fun r => rowMean ((call.model.replaced full).row r)) else none) = some file' ∧
        FaithfulStep call.timestep full.n (call.model.replaced full).row
          (fun r => rowMean ((call.model.replaced full).row r)) (some f) file') ↔
      FileFits call.timestep full.n (some f) ∧
        NothingAdded call.denkfFlag full.n (call.model.replaced full).row :=
  faithful_write_iff call.denkfFlag call.timestep_ne fun _ _ _ => rfl

end InversionCall

variable {N : ℕ+}

/-- **The inversion of the members.** What is written is the full state with the friction of
every member replaced exactly if there is a file for it, the ranks that invert a member have
all rows of the friction, and nothing is added to the slice. -/
theorem memberInversion_iff (call : InversionCall N) (behind mean : ℕ → ℝ)
    (chunks : List (List (Fin N → ℝ))) (f : StepFile N) (prepared full : Recvbuf ℝ N)
    (hprep : call.prepare (f.slice (call.timestep - 1))
      ⟨(chunks.map List.length).sum, fun r => chunks.flatten.getD r 0⟩ = some prepared)
    (hinject : call.inv.injectOn (call.own 0) call.before prepared = .ok full) :
    (∃ file', call.parallelWriteEnsembleScattered behind mean chunks call.invert (some f) =
        some file' ∧ FaithfulStep call.timestep full.n (call.model.replaced full).row
          (fun r => rowMean ((call.model.replaced full).row r)) (some f) file') ↔
      FileFits call.timestep full.n (some f) ∧ call.AllWhole full ∧
        NothingAdded call.denkfFlag full.n (call.model.replaced full).row := by
  rw [and_left_comm, ← call.put_replaced_iff, InversionCall.write_eq hprep]
  constructor
  · rintro ⟨file', hput, hfaithful⟩
    obtain ⟨ens, hens, hput⟩ := Option.bind_eq_some_iff.mp hput
    obtain ⟨hwhole, rfl⟩ := (InversionCall.invert_eq_some_iff hinject).mp hens
    exact ⟨hwhole, file', hput, hfaithful⟩
  · rintro ⟨hwhole, file', hput, hfaithful⟩
    rw [(InversionCall.invert_eq_some_iff hinject).mpr ⟨hwhole, rfl⟩]
    exact ⟨file', hput, hfaithful⟩

/-! ### A friction of one row -/

/-- A variable and a friction of one row each; the friction is `0` before, and the inverse step
returns `1`. -/
noncomputable def oneFriction (denkfFlag : Bool) : InversionCall 1 where
  timestep := 1
  dt := 1
  sigQ := []
  index := oneNode ⟨["smb"], by decide⟩
  nt := 1
  denkfFlag := denkfFlag
  inversionFlag := true
  timestep_ne := Nat.one_ne_zero
  inversion := rfl
  inv := ⟨["smb", "friction"], 1, 1, by decide, Nat.one_pos, by decide⟩
  before := ⟨2, fun _ _ => 0⟩
  before_n := rfl
  model := {
    inverseStepSingle := fun _ _ => [("friction", [1])]
    nodup := fun _ _ => List.nodup_singleton _
    fits := fun _ _ p hp _ => by
      obtain rfl := List.mem_singleton.mp hp
      exact ⟨rfl, rfl⟩ }
  size := ⟨1, Nat.one_pos⟩
  own := fun _ => .all Nat.one_pos
  order := [0]
  order_perm := List.Perm.refl _

lemma prepare_oneFriction (denkfFlag : Bool) (bedPrior recvbuf : Recvbuf ℝ 1) :
    (oneFriction denkfFlag).prepare bedPrior recvbuf = some recvbuf :=
  ScatteredArgs.prepare_of_no_bed _
    (show ∀ vec ∈ ["smb"], vec.toLower ∉ bedNames by decide +kernel)
    (show "".toLower ≠ "issm" by decide +kernel) _ _

lemma friction_oneFriction (denkfFlag : Bool) (full : Recvbuf ℝ 1) (ens : Fin 1) :
    (oneFriction denkfFlag).model.friction full ens = some [1] := by
  have hlower : "friction".toLower ∈ frictionNames := by decide +kernel
  change ([("friction", [(1 : ℝ)])].find? fun p => p.1.toLower ∈ frictionNames).map Prod.snd = _
  rw [List.find?_cons_of_pos (by simpa using hlower)]
  rfl

/-- The injection goes through. -/
lemma inject_oneFriction (denkfFlag : Bool) : ∃ full, (oneFriction denkfFlag).inv.injectOn
    ((oneFriction denkfFlag).own 0) (oneFriction denkfFlag).before
      ⟨1, fun r => [fun _ => 1].getD r 0⟩ = .ok full ∧ full.n = 2 := by
  obtain ⟨full, hfull, hn, -⟩ := Inversion.inject_spec (oneFriction denkfFlag).before
    ⟨1, fun r => [fun _ => 1].getD r 0⟩
    (show (oneFriction denkfFlag).before.n = (oneFriction denkfFlag).inv.nd from rfl) rfl
  exact ⟨full, (Inversion.injectOn_eq_inject rfl _ _).trans hfull, hn⟩

/-- Without the flag the friction is written. -/
theorem memberInversion_iff_oneFriction : ∃ full file',
    (oneFriction false).parallelWriteEnsembleScattered (fun _ => 0) (fun _ => 0) [[fun _ => 1]]
        (oneFriction false).invert (some (StepFile.create 1 2 1)) = some file' ∧
      FaithfulStep 1 full.n ((oneFriction false).model.replaced full).row
        (fun r => rowMean (((oneFriction false).model.replaced full).row r))
        (some (StepFile.create 1 2 1)) file' := by
  obtain ⟨full, hfull, hn⟩ := inject_oneFriction false
  refine ⟨full, (memberInversion_iff (N := 1) (oneFriction false) _ _ [[fun _ => 1]] _ _ full
    (prepare_oneFriction false _ _) hfull).mpr ⟨.inr ⟨_, rfl, hn.symm, le_rfl⟩, ?_, .inl rfl⟩⟩
  exact fun _ _ => rfl

/-- With the flag it is not: the mean of its row is on top. -/
theorem memberInversion_denkf : ∃ full, (oneFriction true).inv.injectOn ((oneFriction true).own 0)
      (oneFriction true).before ⟨1, fun r => [fun _ => 1].getD r 0⟩ = .ok full ∧
    ¬∃ file', (oneFriction true).parallelWriteEnsembleScattered (fun _ => 0) (fun _ => 0)
        [[fun _ => 1]] (oneFriction true).invert (some (StepFile.create 1 2 1)) =
          some file' ∧
      FaithfulStep 1 full.n ((oneFriction true).model.replaced full).row
        (fun r => rowMean (((oneFriction true).model.replaced full).row r))
        (some (StepFile.create 1 2 1)) file' := by
  obtain ⟨full, hfull, hn⟩ := inject_oneFriction true
  refine ⟨full, hfull, ?_⟩
  rintro ⟨file', hput, hfaithful⟩
  rw [InversionCall.write_eq (N := 1) (prepare_oneFriction true _ _)] at hput
  obtain ⟨ens, hens, hput⟩ := Option.bind_eq_some_iff.mp hput
  obtain ⟨-, rfl⟩ := (InversionCall.invert_eq_some_iff hfull).mp hens
  obtain ⟨-, hflag | hzero⟩ :=
    (InversionCall.put_replaced_iff (N := 1) (oneFriction true) full _).mp ⟨file', hput, hfaithful⟩
  · cases hflag
  · have hrow : rowMean (((oneFriction true).model.replaced full).row 1) = 0 :=
      hzero 1 (by rw [hn]; exact Nat.one_lt_two)
    -- the written row is all ones, and the flag adds its mean
    have hentry : ((oneFriction true).model.replaced full).row 1 = fun _ => 1 := by
      funext e
      change InverseStep.patch _ 1 ((oneFriction true).model.friction full e) _ = 1
      rw [friction_oneFriction]
      rfl
    have hone : rowMean (fun _ : Fin 1 => (1 : ℝ)) = 0 := hentry ▸ hrow
    simp [rowMean] at hone

end Icesee
