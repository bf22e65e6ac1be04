import Mathlib.Algebra.Field.Basic
import Mathlib.Algebra.Field.Rat
import Icesee.Driver.Timeline
import Icesee.Lib.Keyed

/-!
The initial ensemble of the full-parallel run.

* **Inputs.** `InitInputs` has what `initialize_ensemble(j)` returns for any of the
  variables, and the noise. `initialValue` is what column `j` should start with.
* **Rounds.** A rank uses one working vector for all its members. `carried_eq` is the
  recurrence that follows, from member `j - size` to member `j`, and
  `carried_eq_initialValue_iff` says when nothing is carried over. The partial run takes
  a fresh column for every member (`partialColumn_eq`).
* **Sequential.** Rank `0` builds the matrix in a zarr array, and hands that to `Scatterv`,
  which takes memory only and raises (`not_initializeSequential`). Were it a numpy array,
  every rank would write its block of rows to one row, that of the number of its rows
  (`scatterRows_ndarray_iff`).
-/

namespace Icesee

open Handler Tiling

variable {K : Type} [Field K]

/-! ### Inputs -/

/-- The inputs of the initialization. `sizes` are the rows of the variables, in the order of
the state, as `indx_map` has them; `data j` are the items of the dictionary that
`initialize_ensemble(j)` returns: the number of a variable and its values. -/
structure InitInputs (K : Type) where
  sizes : List ℕ
  data : ℕ → List (ℕ × (ℕ → K))
  nodup : ∀ j, ((data j).map Prod.fst).Nodup
  noise : ℕ → ℕ → K
  initialSpreadFactor : K

namespace InitInputs

variable (inp : InitInputs K)

/-- A row of variable `m`. -/
def InBlock (sizes : List ℕ) (m i : ℕ) : Prop :=
  (sizes.take m).sum ≤ i ∧ i < (sizes.take m).sum + sizes.getD m 0

instance (sizes : List ℕ) (m i : ℕ) : Decidable (InBlock sizes m i) := by
  unfold InBlock
  infer_instance

/-- `for key, value in data.items(): ensemble_vec[indx_map[key]] = value`. -/
def fill (sizes : List ℕ) (items : List (ℕ × (ℕ → K))) (vec : ℕ → K) : ℕ → K :=
  items.foldl (fun vec p i =>
    if InBlock sizes p.1 i then p.2 (i - (sizes.take p.1).sum) else vec i) vec

/-- One member: the values of the model, and `ensemble_vec += alpha*noise`. -/
def setup (j : ℕ) (vec : ℕ → K) : ℕ → K :=
  fun i => fill inp.sizes (inp.data j) vec i + inp.initialSpreadFactor * inp.noise j i

/-- What the model of member `j` returned for row `i`, if it returned the variable. -/
def returned (j i : ℕ) : Option K :=
  ((inp.data j).find? fun p => InBlock inp.sizes p.1 i).map fun p =>
    p.2 (i - (inp.sizes.take p.1).sum)

/-- Row `i` of the initial value of member `j`. -/
def initialValue (j i : ℕ) : K :=
  (inp.returned j i).getD 0 + inp.initialSpreadFactor * inp.noise j i

/-- A row belongs to the block of one variable. -/
lemma InBlock.unique {sizes : List ℕ} {m m' i : ℕ} (h : InBlock sizes m i)
    (h' : InBlock sizes m' i) : m = m' := by
  have hlt : ∀ {m}, InBlock sizes m i → m < sizes.length := by
    intro m hm
    by_contra hge
    have hsize : sizes.getD m 0 = 0 := by
      rw [List.getD_eq_getElem?_getD, List.getElem?_eq_none (not_lt.mp hge), Option.getD_none]
    obtain ⟨hle, hlt⟩ := hm
    omega
  refine (Cuts.ofSizes sizes).block_unique (i := i - (sizes.take m).sum)
    (j := i - (sizes.take m').sum) (hlt h) (hlt h') ?_ ?_ ?_
  · rw [Cuts.size_ofSizes]
    exact Nat.sub_lt_left_of_lt_add h.1 h.2
  · rw [Cuts.size_ofSizes]
    exact Nat.sub_lt_left_of_lt_add h'.1 h'.2
  · rw [Cuts.cut_ofSizes, Cuts.cut_ofSizes, Nat.add_sub_cancel' h.1, Nat.add_sub_cancel' h'.1]

omit [Field K] in
/-- The items fill the rows of their variables, and no others. -/
lemma fill_apply {sizes : List ℕ} {items : List (ℕ × (ℕ → K))}
    (hnodup : (items.map Prod.fst).Nodup) (vec : ℕ → K) (i : ℕ) :
    fill sizes items vec i = ((items.find? fun p => InBlock sizes p.1 i).map fun p =>
      p.2 (i - (sizes.take p.1).sum)).getD (vec i) := by
  induction items generalizing vec with
  | nil => rfl
  | cons p items ih =>
      rw [List.map_cons, List.nodup_cons] at hnodup
      rw [fill, List.foldl_cons, ← fill, ih hnodup.2, List.find?_cons]
      by_cases hp : InBlock sizes p.1 i
      · -- no later item has this variable
        have hnone : items.find? (fun p => InBlock sizes p.1 i) = none := by
          rw [List.find?_eq_none]
          intro q hq hqi
          have heq : p.1 = q.1 := hp.unique (of_decide_eq_true hqi)
          exact hnodup.1 (List.mem_map.mpr ⟨q, hq, heq.symm⟩)
        rw [hnone, decide_eq_true hp, if_pos hp]
        rfl
      · rw [decide_eq_false hp, if_neg hp]

/-- What a member leaves in a working vector. -/
lemma setup_apply (j : ℕ) (vec : ℕ → K) (i : ℕ) : inp.setup j vec i =
    (inp.returned j i).getD (vec i) + inp.initialSpreadFactor * inp.noise j i := by
  rw [setup, fill_apply (inp.nodup j), returned]

/-- On zeros a member leaves its initial value. -/
lemma setup_zero (j : ℕ) : inp.setup j (fun _ => 0) = inp.initialValue j :=
  funext fun i => inp.setup_apply j _ i

/-! ### Rounds -/

variable (w : World)

/-- The member of a rank in a round, if there is one. -/
def memberOf (rank round : ℕ) : Option ℕ :=
  let d := w.distribution rank
  let ensembleId := d.color + round * d.subcommSizeMin.getD 1
  if ensembleId < w.nens then some ensembleId else none

/-- The working vector of a rank of the full-parallel run after some rounds. -/
def working (rank : ℕ) : ℕ → ℕ → K
  | 0 => fun _ => 0
  | round + 1 =>
      match memberOf w rank round with
      | some j => inp.setup j (working rank round)
      | none => working rank round

/-- What the ranks write in a round. -/
def roundWrites (round : ℕ) : List (ℕ × (ℕ → K)) :=
  (List.range w.size).filterMap fun rank =>
    (memberOf w rank round).map fun j => (j, inp.working w rank (round + 1))

/-- The matrix `ensemble_vec` of a rank of the partial run after some rounds. -/
def workingMatrix (rank : ℕ) : ℕ → ℕ → ℕ → K
  | 0 => fun _ _ => 0
  | round + 1 =>
      match memberOf w rank round with
      | some j => Function.update (workingMatrix rank round) j
          (inp.setup j (workingMatrix rank round j))
      | none => workingMatrix rank round

/-- The rank of a member, and the number of rounds after which it is done. -/
lemma memberOf_eq {j : ℕ} (hj : j < w.nens) : memberOf w (j % w.size) (j / w.size) = some j := by
  have hid : j % w.size + j / w.size * w.size = j := by
    rw [Nat.mul_comm]
    exact Nat.mod_add_div j w.size
  rw [memberOf, w.distribution_eq (Nat.mod_lt j w.size_pos), Option.getD_some, hid, if_pos hj]

/-- A rank has member `j` only in one round. -/
lemma memberOf_eq_some {rank round j : ℕ} (hr : rank < w.size)
    (h : memberOf w rank round = some j) : j < w.nens ∧ rank = j % w.size ∧ round = j / w.size := by
  rw [memberOf, w.distribution_eq hr, Option.getD_some] at h
  split_ifs at h with hlt
  obtain rfl := Option.some.inj h
  refine ⟨hlt, ?_, ?_⟩
  · rw [Nat.add_mul_mod_self_right, Nat.mod_eq_of_lt hr]
  · rw [Nat.add_mul_div_right _ _ w.size_pos, Nat.div_eq_of_lt hr, Nat.zero_add]

/-- The column that the full-parallel run writes for member `j`. -/
def carried (j : ℕ) : ℕ → K := inp.working w (j % w.size) (j / w.size + 1)

/-- The column that the partial run has for member `j`. -/
def partialColumn (j : ℕ) : ℕ → K := inp.workingMatrix w (j % w.size) (j / w.size + 1) j

variable {w}

/-- **Carrying over.** Where the model of member `j` returns nothing, its column goes on
from the column of the member that its rank had before. -/
lemma carried_eq {j : ℕ} (hj : j < w.nens) (i : ℕ) : inp.carried w j i =
    (inp.returned j i).getD (if w.size ≤ j then inp.carried w (j - w.size) i else 0) +
      inp.initialSpreadFactor * inp.noise j i := by
  rw [carried, working, memberOf_eq w hj]
  change inp.setup j (inp.working w (j % w.size) (j / w.size)) i = _
  rw [setup_apply]
  congr 2
  split_ifs with hle
  · rw [carried, Nat.mod_eq_sub_mod hle, Nat.div_eq_sub_div w.size_pos hle]
  · rw [Nat.div_eq_of_lt (not_le.mp hle)]
    rfl

/-- The partial run starts every member from zeros. -/
theorem partialColumn_eq {j : ℕ} (hj : j < w.nens) :
    inp.partialColumn w j = inp.initialValue j := by
  have hzero : ∀ round ≤ j / w.size,
      inp.workingMatrix w (j % w.size) round j = fun _ => 0 := by
    intro round hround
    induction round with
    | zero => rfl
    | succ round ih =>
        rw [workingMatrix]
        cases hm : memberOf w (j % w.size) round with
        | none => exact ih (by omega)
        | some j' =>
            have hr := (memberOf_eq_some w (Nat.mod_lt j w.size_pos) hm).2.2
            have hne : j ≠ j' := by
              rintro rfl
              omega
            exact (Function.update_of_ne hne _ _).trans (ih (by omega))
  rw [partialColumn, workingMatrix, memberOf_eq w hj]
  refine (Function.update_self _ _ _).trans ?_
  rw [hzero _ le_rfl, setup_zero]

/-- Nothing is carried over: where a member leaves a variable out, the member that its
rank had before has the initial value zero. -/
def NothingCarried (w : World) (nd : ℕ) : Prop :=
  ∀ j < w.nens, w.size ≤ j → ∀ i < nd, inp.returned j i = none →
    inp.initialValue (j - w.size) i = 0

/-- **Working vector.** The columns are the initial values exactly if nothing is carried
over. -/
theorem carried_eq_initialValue_iff (nd : ℕ) :
    (∀ i < nd, ∀ j < w.nens, inp.carried w j i = inp.initialValue j i) ↔
      inp.NothingCarried w nd := by
  refine ⟨fun h j hj hle i hi hnone => ?_, fun h i hi j hj => ?_⟩
  · have hpos := w.size_pos
    have hcol := h i hi j hj
    rw [inp.carried_eq hj, initialValue, hnone, if_pos hle, h i hi (j - w.size) (by omega)] at hcol
    simpa using hcol
  · -- along the members of one rank
    induction j using Nat.strong_induction_on with
    | h j ih =>
        rw [inp.carried_eq hj, initialValue]
        cases hret : inp.returned j i with
        | some x => rfl
        | none =>
            congr 1
            split_ifs with hle
            · have hpos := w.size_pos
              rw [Option.getD_none, ih (j - w.size) (by omega) (by omega), h j hj hle i hi hret]
              rfl
            · rfl

/-- The writes of a round are the columns of its members. -/
lemma roundWrites_eq (round : ℕ) : inp.roundWrites w round =
    (w.roundMembers round).map fun j => (j, inp.carried w j) := by
  have hmembers : w.roundMembers round =
      (List.range w.size).filterMap fun rank => memberOf w rank round := rfl
  rw [roundWrites, hmembers, List.map_filterMap]
  refine List.filterMap_congr fun rank hrank => ?_
  cases hm : memberOf w rank round with
  | none => rfl
  | some j =>
      obtain ⟨-, hr, hround⟩ := memberOf_eq_some w (List.mem_range.mp hrank) hm
      rw [Option.map_some, Option.map_some, carried, ← hr, ← hround]

/-! ### The store -/

variable (cfg : FullConfig)

/-- Slice `0` has the initial values. -/
def Stores (h : Handler K) : Prop :=
  ∀ i < cfg.nd, ∀ j < cfg.nens,
    (cell cfg.toIOConfig h 0 i j).getD 0 = inp.initialValue j i

/-- The round-based branch of `ensemble_initialization_full_parallel_run`. -/
def initializeRounds (dir : Directory K) : Option (Handler K) :=
  (List.range cfg.world.rounds).foldlM (fun h round =>
    writeMembers cfg.toIOConfig .comm 0 (inp.roundWrites cfg.world round) h)
    (init cfg.toIOConfig dir)

/-- **Rounds** store the initial values exactly if nothing is carried over. -/
theorem initializeRounds_iff (dir : Directory K) :
    (∃ h, inp.initializeRounds cfg dir = some h ∧ inp.Stores cfg h) ↔
      inp.NothingCarried cfg.world cfg.nd := by
  obtain ⟨h, hrun, -, hcell⟩ := cfg.initRounds_spec (inp.carried cfg.world) dir
  have heq : inp.initializeRounds cfg dir = some h := by
    rw [initializeRounds]
    simpa only [roundWrites_eq] using hrun
  have hstores : inp.Stores cfg h ↔ ∀ i < cfg.nd, ∀ j < cfg.nens,
      inp.carried cfg.world j i = inp.initialValue j i := by
    refine forall₂_congr fun i hi => forall₂_congr fun j hj => ?_
    rw [hcell i hi j hj (cfg.world.lt_rounds_mul hj)]
    rfl
  rw [← carried_eq_initialValue_iff, heq]
  refine ⟨fun ⟨h', hh', hst⟩ => ?_, fun hall => ⟨h, rfl, hstores.mpr hall⟩⟩
  obtain rfl := Option.some.inj hh'
  exact hstores.mp hst

/-! ### The sequential branch -/

/-- The matrix that rank `0` builds, member by member, on zeros. -/
def rootMatrix (nens : ℕ) : ℕ → ℕ → K :=
  (List.range nens).foldl (fun ens j => Function.update ens j (inp.setup j (ens j)))
    fun _ _ => 0

/-- Its columns are the initial values. -/
lemma rootMatrix_apply {nens j : ℕ} (hj : j < nens) :
    inp.rootMatrix nens j = inp.initialValue j := by
  have hcols : ∀ n, ∀ j, inp.rootMatrix n j =
      if j < n then inp.initialValue j else fun _ => 0 := by
    intro n
    induction n with
    | zero => exact fun j => rfl
    | succ n ih =>
        intro j
        rw [rootMatrix, List.range_succ, List.foldl_append, ← rootMatrix]
        change Function.update (inp.rootMatrix n) n (inp.setup n (inp.rootMatrix n n)) j = _
        rcases eq_or_ne j n with rfl | hne
        · rw [Function.update_self, ih, if_neg (lt_irrefl _), setup_zero,
            if_pos (Nat.lt_succ_self _)]
        · rw [Function.update_of_ne hne, ih]
          exact if_congr (by omega) rfl rfl
  rw [hcols, if_pos hj]

end InitInputs

/-- Why the rows are not scattered or not written. -/
inductive BlockError where
  | typeError
  | indexOutOfRange
  | cantBroadcast
  deriving DecidableEq, Repr

/-- The matrix that rank `0` hands to `Scatterv`, by columns: in the memory of a numpy array,
or in the chunks of a zarr array. -/
inductive SendBuffer (K : Type) where
  | ndarray (columns : ℕ → ℕ → K)
  | zarrArray (columns : ℕ → ℕ → K)

/-- `dset[row, :] = block` for a block of `m` rows: the row has to be there, and h5py
takes no more than one row for it. An empty block passes, and `behind` is what the write
then finds behind the empty buffer. -/
def H5File.assignRow (f : H5File K) (row m : ℕ) (block : ℕ → ℕ → K) (behind : ℕ → K) :
    Except BlockError (H5File K) :=
  if f.shape.1 ≤ row then .error .indexOutOfRange
  else if 1 < m then .error .cantBroadcast
  else .ok { f with written := fun i j =>
      if i = row ∧ j < f.shape.2 then some (if m = 1 then block 0 j else behind j)
      else f.written i j }

section AssignRow

omit [Field K]

variable {f f' : H5File K} {row m : ℕ} {block : ℕ → ℕ → K} {behind : ℕ → K}

lemma assignRow_ok_iff :
    (∃ f', f.assignRow row m block behind = .ok f') ↔ row < f.shape.1 ∧ m ≤ 1 := by
  rw [H5File.assignRow]
  by_cases hrow : f.shape.1 ≤ row
  · rw [if_pos hrow]
    exact iff_of_false (by simp) (by omega)
  · rw [if_neg hrow]
    by_cases hm : 1 < m
    · rw [if_pos hm]
      exact iff_of_false (by simp) (by omega)
    · rw [if_neg hm]
      exact iff_of_true ⟨_, rfl⟩ (by omega)

lemma assignRow_spec (h : f.assignRow row m block behind = .ok f') :
    f'.shape = f.shape ∧ ∀ i j, f'.written i j =
      if i = row ∧ j < f.shape.2 then some (if m = 1 then block 0 j else behind j)
      else f.written i j := by
  obtain ⟨hrow, hm⟩ := assignRow_ok_iff.mp ⟨f', h⟩
  rw [H5File.assignRow, if_neg hrow.not_ge, if_neg hm.not_gt] at h
  obtain rfl := Except.ok.inj h
  exact ⟨rfl, fun _ _ => rfl⟩

end AssignRow

namespace InitInputs

variable (inp : InitInputs K) (cfg : FullConfig)

/-- The rows of a rank. -/
def localshape (rank : ℕ) : ℕ := (cfg.cuts .world).size rank

/-- `comm_world.Scatterv`: every rank gets its rows. A zarr array has no memory to lend. -/
def scatterv : SendBuffer K → Except BlockError (ℕ → ℕ → ℕ → K)
  | .ndarray columns => .ok fun rank i j => columns j ((cfg.cuts .world).cut rank + i)
  | .zarrArray _ => .error .typeError

/-- `enkf_parallel_io.datasets[0][localshape, :] = local_ensemble`. -/
def scatterWrite (localEnsemble : ℕ → ℕ → ℕ → K) (behind : ℕ → ℕ → K) (h : Handler K)
    (rank : ℕ) : Except BlockError (Handler K) :=
  match (do let name ← h.dataset 0; return (name, ← h.dir.lookup name)) with
  | none => .error .indexOutOfRange
  | some (name, f) => do
      let f ← f.assignRow (localshape cfg rank) (localshape cfg rank) (localEnsemble rank)
        (behind rank)
      return { h with dir := h.dir.insert name f }

/-- What follows the matrix of rank `0`. The ranks write in no particular order. -/
def scatterRows (send : SendBuffer K) (order : List ℕ) (behind : ℕ → ℕ → K)
    (dir : Directory K) : Except BlockError (Handler K) := do
  let localEnsemble ← scatterv cfg send
  order.foldlM (scatterWrite cfg localEnsemble behind) (init cfg.toIOConfig dir)

/-- The sequential branch of `ensemble_initialization_full_parallel_run`. -/
def initializeSequential (order : List ℕ) (behind : ℕ → ℕ → K) (dir : Directory K) :
    Except BlockError (Handler K) :=
  scatterRows cfg (.zarrArray (inp.rootMatrix cfg.nens)) order behind dir

/-- **The sequential branch** stores nothing. -/
theorem not_initializeSequential (order : List ℕ) (behind : ℕ → ℕ → K) (dir : Directory K) :
    inp.initializeSequential cfg order behind dir = .error .typeError := rfl

/-! ### The writes of the ranks -/

/-- The rows of the matrix of rank `0` that a rank should get. -/
def localEnsemble (rank i j : ℕ) : K :=
  inp.rootMatrix cfg.nens j ((cfg.cuts .world).cut rank + i)

/-- The first dataset of the handler is the file of slice `0`. -/
structure AtSlice (h : Handler K) : Prop where
  dataset : h.dataset 0 = some (cfg.stepFile 0)
  file : ∃ f, h.dir.lookup (cfg.stepFile 0) = some f ∧ f.shape = (cfg.nd, cfg.nens)

/-- What a rank writes to its row. -/
def rowValues (behind : ℕ → ℕ → K) (rank j : ℕ) : K :=
  if localshape cfg rank = 1 then inp.localEnsemble cfg rank 0 j else behind rank j

/-- The ranks whose write goes through. -/
def Passes (rank : ℕ) : Prop := localshape cfg rank < cfg.nd ∧ localshape cfg rank ≤ 1

variable {cfg} {behind : ℕ → ℕ → K} {h h' : Handler K} {rank : ℕ}

/-- A write is an assignment to the file of slice `0`. -/
lemma scatterWrite_eq (hs : AtSlice cfg h) {f : H5File K}
    (hf : h.dir.lookup (cfg.stepFile 0) = some f) :
    scatterWrite cfg (inp.localEnsemble cfg) behind h rank =
      (do
        let f ← f.assignRow (localshape cfg rank) (localshape cfg rank)
          (inp.localEnsemble cfg rank) (behind rank)
        return { h with dir := h.dir.insert (cfg.stepFile 0) f }) := by
  have hopen : (do let name ← h.dataset 0; return (name, ← h.dir.lookup name)) =
      some (cfg.stepFile 0, f) := by
    simp [hs.dataset, hf]
  rw [scatterWrite, hopen]

/-- One write goes through exactly for a rank with at most one row. -/
lemma scatterWrite_ok_iff (hs : AtSlice cfg h) :
    (∃ h', scatterWrite cfg (inp.localEnsemble cfg) behind h rank = .ok h') ↔ Passes cfg rank := by
  obtain ⟨f, hf, hshape⟩ := hs.file
  have hok : (∃ f', f.assignRow (localshape cfg rank) (localshape cfg rank)
      (inp.localEnsemble cfg rank) (behind rank) = .ok f') ↔ _ := assignRow_ok_iff
  rw [hshape] at hok
  rw [scatterWrite_eq inp hs hf, Passes, ← hok]
  refine ⟨fun ⟨h', hh'⟩ => ?_, fun ⟨f', hf'⟩ => ⟨_, Keyed.bind_eq_ok.mpr ⟨f', hf', rfl⟩⟩⟩
  obtain ⟨f', hf', -⟩ := Keyed.bind_eq_ok.mp hh'
  exact ⟨f', hf'⟩

/-- One write overwrites the row that has the number of rows of its rank. -/
lemma scatterWrite_spec (hs : AtSlice cfg h)
    (hw : scatterWrite cfg (inp.localEnsemble cfg) behind h rank = .ok h') :
    AtSlice cfg h' ∧ ∀ i j, cell cfg.toIOConfig h' 0 i j =
      if i = localshape cfg rank ∧ j < cfg.nens then some (inp.rowValues cfg behind rank j)
      else cell cfg.toIOConfig h 0 i j := by
  obtain ⟨f, hf, hshape⟩ := hs.file
  rw [scatterWrite_eq inp hs hf] at hw
  obtain ⟨f', hf', hret⟩ := Keyed.bind_eq_ok.mp hw
  obtain rfl := Except.ok.inj hret
  obtain ⟨hshape', hwritten⟩ := assignRow_spec hf'
  have hlookup : (h.dir.insert (cfg.stepFile 0) f').lookup (cfg.stepFile 0) = some f' :=
    AList.lookup_insert _
  refine ⟨⟨hs.dataset, f', hlookup, hshape'.trans hshape⟩, fun i j => ?_⟩
  rw [cell, cell, hlookup, hf, Option.bind_some, Option.bind_some, hwritten, hshape]
  rfl

/-- The writes of several ranks. -/
lemma foldlM_scatterWrite {order : List ℕ} (hs : AtSlice cfg h)
    (hw : order.foldlM (scatterWrite cfg (inp.localEnsemble cfg) behind) h = .ok h') :
    AtSlice cfg h' ∧ (∀ rank ∈ order, Passes cfg rank) ∧
      ∀ i j, (∀ rank ∈ order, i ≠ localshape cfg rank) →
        cell cfg.toIOConfig h' 0 i j = cell cfg.toIOConfig h 0 i j := by
  induction order generalizing h with
  | nil =>
      obtain rfl := Except.ok.inj hw
      exact ⟨hs, by simp, fun _ _ _ => rfl⟩
  | cons rank order ih =>
      rw [List.foldlM_cons] at hw
      obtain ⟨h₁, hfirst, hrest⟩ := Keyed.bind_eq_ok.mp hw
      obtain ⟨hs₁, hcell₁⟩ := inp.scatterWrite_spec hs hfirst
      obtain ⟨hs₂, hpass₂, hcell₂⟩ := ih hs₁ hrest
      refine ⟨hs₂, ?_, fun i j hi => ?_⟩
      · rw [List.forall_mem_cons]
        exact ⟨(inp.scatterWrite_ok_iff hs).mp ⟨h₁, hfirst⟩, hpass₂⟩
      · rw [List.forall_mem_cons] at hi
        rw [hcell₂ i j hi.2, hcell₁, if_neg fun hc => hi.1 hc.1]

/-- The writes go through if every rank has at most one row. What the ranks write is then
all there is. -/
lemma foldlM_scatterWrite_of_passes {order : List ℕ} (hs : AtSlice cfg h)
    (hpass : ∀ rank ∈ order, Passes cfg rank) (P : ℕ → ℕ → K → Prop)
    (hvalues : ∀ rank ∈ order, ∀ j, P (localshape cfg rank) j (inp.rowValues cfg behind rank j))
    (hP : ∀ i j, P i j ((cell cfg.toIOConfig h 0 i j).getD 0)) :
    ∃ h', order.foldlM (scatterWrite cfg (inp.localEnsemble cfg) behind) h = .ok h' ∧
      ∀ i j, P i j ((cell cfg.toIOConfig h' 0 i j).getD 0) := by
  induction order generalizing h with
  | nil => exact ⟨h, rfl, hP⟩
  | cons rank order ih =>
      rw [List.forall_mem_cons] at hpass hvalues
      obtain ⟨h₁, hfirst⟩ : ∃ h₁, scatterWrite cfg (inp.localEnsemble cfg) behind h rank = .ok h₁ :=
        (inp.scatterWrite_ok_iff hs).mpr hpass.1
      obtain ⟨hs₁, hcell₁⟩ := inp.scatterWrite_spec hs hfirst
      obtain ⟨h', hrest, hP'⟩ := ih hs₁ hpass.2 hvalues.2 fun i j => by
        rw [hcell₁]
        split_ifs with hc
        · rw [hc.1]
          exact hvalues.1 j
        · exact hP i j
      refine ⟨h', ?_, hP'⟩
      rw [List.foldlM_cons]
      exact Keyed.bind_eq_ok.mpr ⟨h₁, hfirst, hrest⟩

/-- After all writes the last one stands. -/
lemma foldlM_scatterWrite_last {order : List ℕ} (hs : AtSlice cfg h)
    (hw : (order ++ [rank]).foldlM (scatterWrite cfg (inp.localEnsemble cfg) behind) h = .ok h')
    {j : ℕ} (hj : j < cfg.nens) : cell cfg.toIOConfig h' 0 (localshape cfg rank) j =
      some (inp.rowValues cfg behind rank j) := by
  rw [List.foldlM_append] at hw
  obtain ⟨h₁, hfirst, hlast⟩ := Keyed.bind_eq_ok.mp hw
  have hs₁ := (inp.foldlM_scatterWrite hs hfirst).1
  rw [List.foldlM_cons] at hlast
  obtain ⟨h₂, hwrite, hnil⟩ := Keyed.bind_eq_ok.mp hlast
  obtain rfl := Except.ok.inj hnil
  rw [(inp.scatterWrite_spec hs₁ hwrite).2, if_pos ⟨rfl, hj⟩]

omit [Field K] in
/-- The handler starts with a blank slice `0`. -/
lemma atSlice_init (cfg : FullConfig) (dir : Directory K) :
    AtSlice cfg (init cfg.toIOConfig dir) ∧
      ∀ i j, cell cfg.toIOConfig (init cfg.toIOConfig dir) 0 i j = none := by
  have hopen : IsOpen cfg.toIOConfig 0 (init cfg.toIOConfig dir) := init_isOpen dir
  have hmem : 0 < 0 + min cfg.batchSize (cfg.nt - 0) := by
    have := cfg.batchSize_pos
    have := cfg.nt_pos
    omega
  refine ⟨⟨?_, hopen.present 0 le_rfl hmem⟩, fun i j => ?_⟩
  · have hstart : cfg.batchStart 0 = 0 := by simp [IOConfig.batchStart]
    have hdata := dataset_eq (t := 0) (hstart.symm ▸ hopen) cfg.nt_pos
    rwa [hopen.start, Nat.cast_zero, sub_zero] at hdata
  · rw [init, cell_createBatch, if_pos ⟨le_rfl, hmem⟩]

omit [Field K] in
/-- The rows of a rank, counted. -/
lemma localshape_eq (cfg : FullConfig) (rank : ℕ) : localshape cfg rank =
    cfg.nd / cfg.worldSize + if rank < cfg.nd % cfg.worldSize then 1 else 0 :=
  size_partitionCuts cfg.worldSize_pos rank

/-- From a numpy array the initial values would be stored, in whatever order the ranks write
and whatever lies behind an empty buffer. -/
def NdarrayStores (cfg : FullConfig) (dir : Directory K) : Prop :=
  ∀ order : List ℕ, order.Perm (List.range cfg.worldSize) → ∀ behind, ∃ h,
    scatterRows cfg (.ndarray (inp.rootMatrix cfg.nens)) order behind dir = .ok h ∧
      inp.Stores cfg h

omit [Field K] in
lemma scatterRows_ndarray (cfg : FullConfig) (columns : ℕ → ℕ → K) (order : List ℕ)
    (behind : ℕ → ℕ → K) (dir : Directory K) :
    scatterRows cfg (.ndarray columns) order behind dir =
      order.foldlM (scatterWrite cfg
        (fun rank i j => columns j ((cfg.cuts .world).cut rank + i)) behind)
          (init cfg.toIOConfig dir) := rfl

/-- There are as many ranks as rows, at least two, and nothing to store. -/
structure NothingToStore (cfg : FullConfig) : Prop where
  ranks : cfg.worldSize = cfg.nd
  rows : 2 ≤ cfg.nd
  zero : ∀ i < cfg.nd, ∀ j < cfg.nens, inp.initialValue j i = 0

/-- If the writes go through there are at least as many ranks as rows. -/
lemma le_worldSize_of_passes (h0 : Passes cfg 0) : 2 ≤ cfg.nd ∧ cfg.nd ≤ cfg.worldSize := by
  have hp := cfg.worldSize_pos
  have hnd := cfg.nd_pos
  obtain ⟨hlt, hle⟩ := h0
  rw [localshape_eq] at hlt hle
  have hdiv := Nat.div_add_mod cfg.nd cfg.worldSize
  rcases Nat.eq_zero_or_pos (cfg.nd / cfg.worldSize) with hq | hq
  · rw [hq, Nat.mul_zero, Nat.zero_add] at hdiv
    rw [hq, if_pos (by omega)] at hlt
    exact ⟨by omega, hdiv ▸ (Nat.mod_lt _ hp).le⟩
  · have hq1 : cfg.nd / cfg.worldSize = 1 := by omega
    have hr : cfg.nd % cfg.worldSize = 0 := by
      by_contra hr
      rw [if_pos (by omega)] at hle
      omega
    rw [hq1, hr] at hdiv hlt
    simp at hlt
    omega

/-- With as many ranks as rows every rank has one row. -/
lemma localshape_eq_one (hranks : cfg.worldSize = cfg.nd) (rank : ℕ) :
    localshape cfg rank = 1 := by
  rw [localshape_eq, hranks, Nat.div_self cfg.nd_pos, Nat.mod_self]
  simp

/-- With more ranks than rows the last rank has no row, and what it writes to row `0` is
anything. -/
lemma worldSize_eq_of_stores {dir : Directory K} (H : inp.NdarrayStores cfg dir)
    (hle : cfg.nd ≤ cfg.worldSize) : cfg.worldSize = cfg.nd := by
  obtain ⟨hs, -⟩ := atSlice_init cfg dir
  obtain ⟨p, hp⟩ := Nat.exists_eq_add_of_le' cfg.worldSize_pos
  by_contra hne
  obtain ⟨h, hrun, hst⟩ := H _ (.refl _) fun _ _ => inp.initialValue 0 0 + 1
  have hempty : localshape cfg p = 0 := by
    rw [localshape_eq, Nat.div_eq_of_lt (by omega), Nat.mod_eq_of_lt (by omega),
      if_neg (by omega)]
  rw [scatterRows_ndarray, hp, List.range_succ] at hrun
  have hlast := inp.foldlM_scatterWrite_last hs hrun cfg.nens_pos
  have hval := hst 0 cfg.nd_pos 0 cfg.nens_pos
  rw [hempty] at hlast
  rw [hlast, rowValues, hempty] at hval
  simp at hval

/-- A run that stores the initial values has nothing to store: every rank
writes row `1`, and rank `0` may be the last to do so. -/
lemma nothingToStore_of_stores {dir : Directory K} (H : inp.NdarrayStores cfg dir) :
    inp.NothingToStore cfg := by
  obtain ⟨hs, hblank⟩ := atSlice_init cfg dir
  have hpos := cfg.worldSize_pos
  obtain ⟨p, hp⟩ := Nat.exists_eq_add_of_le' hpos
  obtain ⟨h₁, hrun₁, hst₁⟩ := H _ (.refl _) fun _ _ => 0
  obtain ⟨-, hpass, hrows⟩ := inp.foldlM_scatterWrite hs hrun₁
  obtain ⟨htwo, hle⟩ := le_worldSize_of_passes (hpass 0 (List.mem_range.mpr hpos))
  have hranks := inp.worldSize_eq_of_stores H hle
  have hone := localshape_eq_one hranks
  have hother : ∀ i < cfg.nd, i ≠ 1 → ∀ j < cfg.nens, inp.initialValue j i = 0 := by
    intro i hi hne j hj
    rw [← hst₁ i hi j hj, hrows i j fun rank _ => by rwa [hone], hblank]
    rfl
  refine ⟨hranks, htwo, fun i hi j hj => ?_⟩
  rcases eq_or_ne i 1 with rfl | hne
  · obtain ⟨h₂, hrun₂, hst₂⟩ := H _ (List.reverse_perm _) fun _ _ => 0
    rw [scatterRows_ndarray, hp, List.range_succ_eq_map, List.reverse_cons] at hrun₂
    have hlast := inp.foldlM_scatterWrite_last hs hrun₂ hj
    have hzero := hother 0 cfg.nd_pos Nat.zero_ne_one j hj
    rw [hone] at hlast
    rw [← hst₂ 1 hi j hj, hlast, Option.getD_some, rowValues, if_pos (hone 0), localEnsemble,
      rootMatrix_apply inp hj, (cfg.cuts .world).cut_zero, hzero]
  · exact hother i hi hne j hj

/-- Zeros are stored if every rank has one row. -/
lemma stores_of_nothingToStore (dir : Directory K) (hz : inp.NothingToStore cfg) :
    inp.NdarrayStores cfg dir := by
  intro order hperm behind
  obtain ⟨hs, hblank⟩ := atSlice_init cfg dir
  have hone := localshape_eq_one hz.ranks
  have hpass : ∀ rank ∈ order, Passes cfg rank := fun rank _ =>
    ⟨by rw [hone]; exact hz.rows, (hone rank).le⟩
  have hvalues : ∀ rank ∈ order, ∀ j, localshape cfg rank < cfg.nd → j < cfg.nens →
      inp.rowValues cfg behind rank j = 0 := by
    intro rank hrank j _ hj
    have hlt : rank < cfg.worldSize := List.mem_range.mp (hperm.mem_iff.mp hrank)
    have hrow : (cfg.cuts .world).cut rank + 0 < cfg.nd :=
      (cfg.cuts .world).cut_add_lt hlt (by rw [← localshape, hone]; exact Nat.one_pos)
    rw [rowValues, if_pos (hone rank), localEnsemble, rootMatrix_apply inp hj]
    exact hz.zero _ hrow j hj
  obtain ⟨h', hrun, hP⟩ := inp.foldlM_scatterWrite_of_passes hs hpass
    (fun i j x => i < cfg.nd → j < cfg.nens → x = 0) hvalues
    fun i j _ _ => by rw [hblank]; rfl
  refine ⟨h', hrun, fun i hi j hj => ?_⟩
  rw [hP i j hi hj, hz.zero i hi j hj]

/-- **Rows of a numpy array** would be stored only if there are as many ranks as rows and
nothing to store. -/
theorem scatterRows_ndarray_iff (dir : Directory K) :
    inp.NdarrayStores cfg dir ↔ inp.NothingToStore cfg :=
  ⟨inp.nothingToStore_of_stores, inp.stores_of_nothingToStore dir⟩

/-! ### Both branches -/

/-- Slice `0` has the columns that the partial run has. -/
def AsPartial (cfg : FullConfig) (h : Handler K) : Prop :=
  ∀ i < cfg.nd, ∀ j < cfg.nens,
    (cell cfg.toIOConfig h 0 i j).getD 0 = inp.partialColumn cfg.world j i

/-- The initial values are what the partial run has. -/
lemma asPartial_iff : inp.AsPartial cfg h ↔ inp.Stores cfg h := by
  refine forall₂_congr fun i hi => forall₂_congr fun j hj => ?_
  rw [inp.partialColumn_eq (w := cfg.world) hj]

/-- **Initialization.** The rounds store the initial values, which the partial run has,
exactly if no member leaves out a variable for which the member before it on the same
rank has a value other than zero. The sequential branch never stores them. -/
theorem initialization_iff (cfg : FullConfig) (dir : Directory K) :
    ((∃ h, inp.initializeRounds cfg dir = some h ∧ inp.Stores cfg h ∧ inp.AsPartial cfg h) ↔
      inp.NothingCarried cfg.world cfg.nd) ∧
    ∀ order behind, ¬ ∃ h, inp.initializeSequential cfg order behind dir = .ok h ∧
      inp.Stores cfg h ∧ inp.AsPartial cfg h := by
  simp only [asPartial_iff, and_self]
  refine ⟨inp.initializeRounds_iff cfg dir, fun order behind => ?_⟩
  rw [not_initializeSequential]
  rintro ⟨h, hrun, -⟩
  cases hrun

end InitInputs

/-- Two members of one row on one rank. -/
def twoMembers : FullConfig where
  toIOConfig := { IOConfig.single 1 Nat.one_pos with nens := 2, nens_pos := Nat.two_pos }
  filter := .EnKF
  size_le := Nat.two_pos

/-- A model that returns the variable for member `0` only, without noise. -/
def firstOnly : InitInputs ℚ where
  sizes := [1]
  data j := if j = 0 then [(0, fun _ => 1)] else []
  nodup j := by split_ifs <;> simp
  noise _ _ := 0
  initialSpreadFactor := 0

lemma initialValue_firstOnly : firstOnly.initialValue 0 0 = 1 := by
  have hblock : InitInputs.InBlock [1] 0 0 := by decide
  simp [InitInputs.initialValue, InitInputs.returned, firstOnly, hblock]

/-- Member `1` is stored with the value of member `0`. -/
theorem not_initialized_firstOnly : ¬ ∃ h,
    firstOnly.initializeRounds twoMembers (∅ : Directory ℚ) = some h ∧
    firstOnly.Stores twoMembers h ∧ firstOnly.AsPartial twoMembers h := by
  rintro ⟨h, hrun, hst, -⟩
  have hcarried : firstOnly.NothingCarried twoMembers.world twoMembers.nd :=
    (firstOnly.initializeRounds_iff twoMembers ∅).mp ⟨h, hrun, hst⟩
  have hzero := hcarried 1 Nat.one_lt_two le_rfl 0 Nat.one_pos rfl
  exact absurd (initialValue_firstOnly.symm.trans hzero) one_ne_zero

end Icesee
