import Icesee.Lib.Spmd
import Icesee.Mpi.Calls
import Icesee.Mpi.Groups
import Mathlib.Data.List.FinRange

/-!
The forecast step of the partial-parallel run as a protocol.

`parallel_forecast_step_default_run` is a program on every rank, with calls on the world and
on the subcommunicator of the rank. In every interleaving of these calls all ranks come to
the end, with the same result:

* with at least as many members as ranks (`rounds_endsWith`) the root has the columns that
  `World.forecastColumns` evaluates round by round;
* with more ranks than members (`groups_endsWith_iff`) the root has one column for every
  member, in member order, and a column is what the ranks of the group have computed, in
  the order of the ranks. This needs columns of one length; otherwise `column_stack` raises
  on the root, and the other ranks wait for ever.
-/

namespace Icesee.ForecastProtocol

open Mpi Spmd Spmd.Prog

/-! ### The communicators -/

/-- The objects that the ranks send and receive. An entry of a receive buffer that MPI does
not define is `none`. -/
inductive Message (β : Type)
  | none
  | size (n : ℕ)
  | shape (rows cols : ℕ)
  | vec (v : List β)
  | send (v : List β) (counts : List ℕ)
  | columns (l : List (List β))
  | buffers (rows : List (List (Option (List β))))
  | objects (xs : List (Message β))

namespace Message

variable {β : Type}

/-- The gathered objects. -/
def toObjects : Message β → List (Message β)
  | objects xs => xs
  | _ => []

/-- A size. -/
def toSize : Message β → ℕ
  | size n => n
  | _ => 0

/-- A shape. -/
def toShape : Message β → ℕ × ℕ
  | shape rows cols => (rows, cols)
  | _ => (0, 0)

/-- An array, if it is one. -/
def toVec? : Message β → Option (List β)
  | vec v => some v
  | _ => .none

/-- The send buffer of `Gatherv`. -/
def sent : Message β → List β
  | send v _ => v
  | _ => []

/-- The counts that the root gives to `Gatherv`. -/
def counts : Message β → List ℕ
  | send _ c => c
  | _ => []

/-- The send buffer of `Gather`. -/
def toColumns : Message β → List (List β)
  | columns l => l
  | _ => []

/-- The receive buffer of `Gather`. -/
def toBuffers : Message β → List (List (Option (List β)))
  | buffers rows => rows
  | _ => []

end Message

variable {β : Type}

/-- `Gather`: the buffers of the ranks, if they all have the size of that of the root. -/
def gatherBuffers (root : ℕ) (data : List (List (List β))) : List (List (Option (List β))) :=
  let own := (data.getD root []).length
  if ∀ l ∈ data, l.length = own then data.map (·.map some)
  else data.map fun _ => List.replicate own none

/-- `Gatherv`: the parts of the ranks, if the root expects their sizes. -/
def gathervBuffers (counts : List ℕ) (parts : List (List β)) : Message β :=
  if counts = parts.map List.length then .vec parts.flatten else .none

/-- The ranks of a communicator that has split. -/
def members (size : ℕ) (ranks : List ℕ) : List (Fin size) :=
  ranks.filterMap fun r => if h : r < size then some ⟨r, h⟩ else none

/-- The ranks that take part in a call. -/
def callGroup (nens size : ℕ) (call : Call) : List (Fin size) := match call.comm with
  | .world => List.finRange size
  | .sub color => members size (group nens size color)

/-- The communicators of the default run. -/
def comms (nens size : ℕ) : Comms (Fin size) Call (Message β) where
  group := callGroup nens size
  deliver call xs rank := match call.collective with
    | .bcast root => xs.getD root .none
    | .gather root =>
        if (callGroup nens size call)[root]? = some rank then .objects xs else .none
    | .gatherBuffer root =>
        if (callGroup nens size call)[root]? = some rank
        then .buffers (gatherBuffers root (xs.map Message.toColumns)) else .none
    | .gathervBuffer root =>
        if (callGroup nens size call)[root]? = some rank
        then gathervBuffers (xs.getD root .none).counts (xs.map Message.sent) else .none
    | _ => .none

section Deliver

variable {nens size : ℕ} (comm : Comm) (root : ℕ) (xs : List (Message β)) (rank : Fin size)

lemma deliver_bcast :
    (comms nens size).deliver ⟨comm, .bcast root⟩ xs rank = xs.getD root .none := rfl

lemma deliver_gather : (comms nens size).deliver ⟨comm, .gather root⟩ xs rank =
    if (callGroup nens size ⟨comm, .gather root⟩)[root]? = some rank then .objects xs
    else .none := rfl

lemma deliver_gatherBuffer : (comms nens size).deliver ⟨comm, .gatherBuffer root⟩ xs rank =
    if (callGroup nens size ⟨comm, .gatherBuffer root⟩)[root]? = some rank
    then .buffers (gatherBuffers root (xs.map Message.toColumns)) else .none := rfl

lemma deliver_gathervBuffer : (comms nens size).deliver ⟨comm, .gathervBuffer root⟩ xs rank =
    if (callGroup nens size ⟨comm, .gathervBuffer root⟩)[root]? = some rank
    then gathervBuffers (xs.getD root .none).counts (xs.map Message.sent) else .none := rfl

end Deliver

/-- `ensemble_vec` when the step ends: the matrix on the root, and on another rank its last
column, or an empty array. -/
inductive EnsembleVec (β : Type)
  | matrix (cols : List (Option (List β)))
  | column (v : List β)
  | empty (rows cols : ℕ)

/-- What the step returns on a rank, before the mean. -/
structure Result (β : Type) where
  ensembleVec : EnsembleVec β
  shapeEns : ℕ × ℕ

/-! ### Rounds -/

/-- What a rank does for a member: it reads the column, runs the model and adds noise. The
noise of a rank is carried from member to member, and the column keeps its length. -/
structure MemberForecast (β S : Type) where
  nd : ℕ
  noise : ℕ → S
  advance : S → ℕ → S × List β
  length_advance : ∀ s j, (advance s j).2.length = nd

/-- The variables of a rank in the round loop. -/
structure RankState (β S : Type) where
  noise : S
  ensembleVec : List β
  ensList : List (List β)
  gathered : List (List (Option (List β)))

section Rounds

variable {S R : Type} (w : World) (fc : MemberForecast β S)

/-- The gather that ends a round. -/
def gatherRound (st : RankState β S) (next : RankState β S → Prog Call (Message β) R) :
    Prog Call (Message β) R :=
  call ⟨.world, .gatherBuffer 0⟩ (.columns st.ensList) fun gathered =>
    next { st with gathered := gathered.toBuffers }

/-- A round. Each rank is the root of its subcommunicator. -/
def roundStep (rank round : ℕ) (st : RankState β S)
    (next : RankState β S → Prog Call (Message β) R) : Prog Call (Message β) R :=
  let d := w.distribution rank
  let ensembleId := d.color + round * d.subcommSizeMin.getD 1
  if ensembleId < w.nens then
    let forecast := fc.advance st.noise ensembleId
    call ⟨.sub d.color, .barrier⟩ .none fun _ =>
    call ⟨.sub d.color, .gather 0⟩ (.size forecast.2.length) fun localShapes =>
    call ⟨.sub d.color, .gathervBuffer 0⟩
      (.send forecast.2 (localShapes.toObjects.map Message.toSize)) fun gathered =>
    gatherRound { st with
      noise := forecast.1
      ensembleVec := forecast.2
      ensList := st.ensList ++ [gathered.toVec?.getD []] } next
  else gatherRound st next

/-- After the rounds: the root stacks the columns, capped to `Nens`, and sends their shape. -/
def collect (rank : ℕ) (st : RankState β S) : Prog Call (Message β) (Result β) :=
  let cols := st.gathered.flatten.take w.nens
  call bcast
    (if rank = 0 then .shape (st.ensList.headD []).length cols.length else .shape 0 0)
    fun shapeEns =>
  ret ⟨if rank = 0 then .matrix cols else .column st.ensembleVec, shapeEns.toShape⟩

/-- The round loop. -/
def roundLoop (rank : ℕ) : ℕ → ℕ → RankState β S → Prog Call (Message β) (Result β)
  | 0, _, st => collect w rank st
  | todo + 1, round, st => roundStep w fc rank round st (roundLoop rank todo (round + 1))

/-- The forecast step with at least as many members as ranks. -/
def roundsProgram (rank : ℕ) : Prog Call (Message β) (Result β) :=
  roundLoop w fc rank (w.distribution rank).rounds 0 ⟨fc.noise rank, [], [], []⟩

/-- The noise of a rank after some rounds. -/
def noiseAfter (rank : ℕ) : ℕ → S
  | 0 => fc.noise rank
  | round + 1 =>
      if rank + round * w.size < w.nens
      then (fc.advance (noiseAfter rank round) (rank + round * w.size)).1
      else noiseAfter rank round

/-- The forecast of a member, with the noise that its rank has come to. -/
def memberResult (j : ℕ) : List β :=
  (fc.advance (noiseAfter w fc (j % w.size) (j / w.size)) j).2

/-- The columns that a rank has collected after some rounds. -/
def ensListAfter (rank round : ℕ) : List (List β) := w.ensList (memberResult w fc) round rank

/-- The variables of a rank after some rounds. -/
def stateAfter (rank round : ℕ) : RankState β S where
  noise := noiseAfter w fc rank round
  ensembleVec := (ensListAfter w fc rank round).getLastD []
  ensList := ensListAfter w fc rank round
  gathered :=
    if rank = 0 ∧ 0 < round
    then gatherBuffers 0
      ((List.finRange w.size).map fun r : Fin w.size => ensListAfter w fc r round)
    else []

variable {w fc}

/-- Every rank is alone in its subcommunicator. -/
lemma callGroup_sub (rank : Fin w.size) (k : Collective) :
    callGroup w.nens w.size ⟨.sub rank, k⟩ = [rank] := by
  have hmono : Monotone fun r => (iceseeMpiEnsDistribution w.nens w.size r).key := by
    intro r s hle
    simp only [iceseeMpiEnsDistribution, if_pos w.size_le]
    exact Nat.div_le_div_right hle
  have hgroup : group w.nens w.size rank = [rank.val] := by
    have hself := w.subcomm_eq rank.2
    rw [World.subcomm, w.distribution_eq rank.2] at hself
    rw [group, split_of_monotone _ hmono]
    exact hself
  simp [callGroup, hgroup, members]

lemma callGroup_world (nens size : ℕ) (k : Collective) :
    callGroup nens size ⟨.world, k⟩ = List.finRange size := rfl

/-- The root of the world. -/
lemma root_callGroup_world {nens size : ℕ} [NeZero size] {rank : Fin size} {k : Collective} :
    (callGroup nens size ⟨.world, k⟩)[0]? = some rank ↔ rank.val = 0 := by
  have hpos : 0 < (List.finRange size).length := by
    rw [List.length_finRange]
    exact Nat.pos_of_ne_zero (NeZero.ne size)
  rw [callGroup_world, List.getElem?_eq_getElem hpos, List.getElem_finRange, Option.some_inj,
    eq_comm, Fin.ext_iff]
  rfl

/-- What the root contributes. -/
lemma getD_map_finRange {α : Type} {size : ℕ} [NeZero size] (x : Fin size → α) (d : α) :
    ((List.finRange size).map x).getD 0 d = x 0 := by
  have hpos : 0 < (List.finRange size).length := by
    rw [List.length_finRange]
    exact Nat.pos_of_ne_zero (NeZero.ne size)
  rw [List.getD_eq_getElem?_getD, List.getElem?_map, List.getElem?_eq_getElem hpos,
    List.getElem_finRange]
  rfl

/-- All ranks have come to a call on the world. -/
lemma canEnd_world {nens size : ℕ} [NeZero size]
    {final : State (Fin size) Call (Message β) R → Prop}
    (hfinal : ∀ t, final t → Machine.Stopped (fire (comms nens size)) t)
    {k : Collective} {x : Fin size → Message β}
    {next : Fin size → Message β → Prog Call (Message β) R} :
    Machine.CanEnd (fire (comms nens size)) final
        (fun rank => call ⟨.world, k⟩ (x rank) (next rank)) ↔
      Machine.CanEnd (fire (comms nens size)) final fun rank =>
        next rank ((comms nens size).deliver ⟨.world, k⟩ ((List.finRange size).map x) rank) :=
  canEnd_meet hfinal (List.ne_nil_of_mem (List.mem_finRange 0)) List.mem_finRange

/-- The ranks that have a member in a round have come to a call on their subcommunicators. -/
lemma canEnd_alone {final : State (Fin w.size) Call (Message β) R → Prop}
    (hfinal : ∀ t, final t → Machine.Stopped (fire (comms w.nens w.size)) t) {p : ℕ → Prop}
    [DecidablePred p] {k : Collective} {x : Fin w.size → Message β}
    {next : Fin w.size → Message β → Prog Call (Message β) R}
    {rest : Fin w.size → Prog Call (Message β) R} :
    Machine.CanEnd (fire (comms w.nens w.size)) final
      (fun rank => if p rank then call ⟨.sub rank, k⟩ (x rank) (next rank) else rest rank) ↔
    Machine.CanEnd (fire (comms w.nens w.size)) final fun rank => if p rank
      then next rank ((comms w.nens w.size).deliver ⟨.sub rank, k⟩ [x rank] rank)
      else rest rank := by
  have hgroup : ∀ rank : Fin w.size,
      (comms w.nens w.size : Comms _ _ (Message β)).group ⟨.sub rank, k⟩ = [rank] :=
    fun rank => callGroup_sub rank k
  refine (canEnd_groups hfinal (fun rank : Fin w.size => (⟨.sub rank, k⟩ : Call)) id
    (x := x) (l := (List.finRange w.size).filter fun rank => p rank)
    ((List.nodup_finRange _).filter _) (fun rank _ => ⟨by simp [hgroup], fun r => ?_⟩)
    (fun rank hrank => if_pos (by simpa using hrank))).trans ?_
  · simp [hgroup, eq_comm]
  refine iff_of_eq (congrArg _ (funext fun rank => ?_))
  by_cases hp : p rank
  · simp [hp, hgroup]
  · simp [hp]

/-- What a rank has after its forecast in a round, before the gather. -/
def stateForecast (w : World) (fc : MemberForecast β S) (rank round : ℕ) : RankState β S :=
  { stateAfter w fc rank round with
    noise := noiseAfter w fc rank (round + 1)
    ensembleVec := (ensListAfter w fc rank (round + 1)).getLastD []
    ensList := ensListAfter w fc rank (round + 1) }

/-- A rank with a member carries its noise on and appends the column. -/
lemma stateForecast_eq {rank : ℕ} (hr : rank < w.size) (round : ℕ) :
    stateForecast w fc rank round =
      if rank + round * w.size < w.nens then
        { stateAfter w fc rank round with
          noise := (fc.advance (noiseAfter w fc rank round) (rank + round * w.size)).1
          ensembleVec := (fc.advance (noiseAfter w fc rank round) (rank + round * w.size)).2
          ensList := ensListAfter w fc rank round ++
            [(fc.advance (noiseAfter w fc rank round) (rank + round * w.size)).2] }
      else stateAfter w fc rank round := by
  have hresult : memberResult w fc (rank + round * w.size) =
      (fc.advance (noiseAfter w fc rank round) (rank + round * w.size)).2 := by
    rw [memberResult, Nat.add_mul_mod_self_right, Nat.mod_eq_of_lt hr,
      Nat.add_mul_div_right _ _ w.size_pos, Nat.div_eq_of_lt hr, Nat.zero_add]
  have hlist : ensListAfter w fc rank (round + 1) = if rank + round * w.size < w.nens
      then ensListAfter w fc rank round ++ [memberResult w fc (rank + round * w.size)]
      else ensListAfter w fc rank round := by
    rw [ensListAfter, World.ensList, w.distribution_eq hr]
    rfl
  rw [stateForecast, hlist, noiseAfter]
  split_ifs
  · rw [List.getLastD_concat, hresult]
  · rfl

/-- The gather makes the next state. -/
lemma gather_stateForecast (rank : Fin w.size) (round : ℕ) :
    { stateForecast w fc rank round with
      gathered := ((comms w.nens w.size).deliver ⟨.world, .gatherBuffer 0⟩
        ((List.finRange w.size).map fun r : Fin w.size =>
          .columns (stateForecast w fc r round).ensList) rank).toBuffers } =
      stateAfter w fc rank (round + 1) := by
  have : NeZero w.size := ⟨w.size_pos.ne'⟩
  simp only [deliver_gatherBuffer, root_callGroup_world]
  by_cases h0 : rank.val = 0
  · simp [h0, stateForecast, stateAfter, Message.toBuffers, Function.comp_def, Message.toColumns]
  · simp [h0, stateForecast, stateAfter, Message.toBuffers]

/-- **A round**: all ranks go from the state after one round to the state after the next. -/
lemma canEnd_roundStep {final : State (Fin w.size) Call (Message β) R → Prop}
    (hfinal : ∀ t, final t → Machine.Stopped (fire (comms w.nens w.size)) t) (round : ℕ)
    {next : Fin w.size → RankState β S → Prog Call (Message β) R} :
    Machine.CanEnd (fire (comms w.nens w.size)) final
      (fun rank => roundStep w fc rank round (stateAfter w fc rank round) (next rank)) ↔
    Machine.CanEnd (fire (comms w.nens w.size)) final
      fun rank => next rank (stateAfter w fc rank (round + 1)) := by
  have : NeZero w.size := ⟨w.size_pos.ne'⟩
  have hroot : ∀ (rank : Fin w.size) (k : Collective),
      (callGroup w.nens w.size ⟨.sub rank, k⟩)[0]? = some rank := by
    intro rank k
    rw [callGroup_sub]
    rfl
  simp only [roundStep, w.distribution_eq (Fin.is_lt _), Option.getD_some]
  -- the three calls on the own subcommunicator, of the ranks that have a member
  rw [canEnd_alone hfinal (p := fun rank => rank + round * w.size < w.nens)]
  rw [canEnd_alone hfinal (p := fun rank => rank + round * w.size < w.nens)]
  rw [canEnd_alone hfinal (p := fun rank => rank + round * w.size < w.nens)]
  simp only [deliver_gather, deliver_gathervBuffer, hroot]
  have hmeet : ∀ rank : Fin w.size, gatherRound (stateForecast w fc rank round) (next rank) =
      if rank + round * w.size < w.nens then
        gatherRound { stateAfter w fc rank round with
          noise := (fc.advance (noiseAfter w fc rank round) (rank + round * w.size)).1
          ensembleVec := (fc.advance (noiseAfter w fc rank round) (rank + round * w.size)).2
          ensList := ensListAfter w fc rank round ++
            [(fc.advance (noiseAfter w fc rank round) (rank + round * w.size)).2] } (next rank)
      else gatherRound (stateAfter w fc rank round) (next rank) := by
    intro rank
    rw [stateForecast_eq rank.2]
    split_ifs <;> rfl
  have hgatherv : ∀ v : List β, (gathervBuffers [v.length] [v]).toVec?.getD [] = v := by
    intro v
    simp [gathervBuffers, Message.toVec?]
  simp only [if_true, Message.toObjects, List.map_cons, List.map_nil, Message.toSize,
    List.getD_cons_zero, Message.counts, Message.sent, hgatherv]
  -- then all ranks meet in the gather of the round
  refine Iff.trans (iff_of_eq (congrArg _ (funext fun rank => (hmeet rank).symm))) ?_
  simp only [gatherRound]
  rw [canEnd_world hfinal]
  exact iff_of_eq (congrArg _ (funext fun rank =>
    congrArg _ (gather_stateForecast rank round)))

/-- **The round loop.** -/
lemma canEnd_roundLoop {final : State (Fin w.size) Call (Message β) (Result β) → Prop}
    (hfinal : ∀ t, final t → Machine.Stopped (fire (comms w.nens w.size)) t) (todo round : ℕ) :
    Machine.CanEnd (fire (comms w.nens w.size)) final
      (fun rank => roundLoop w fc rank todo round (stateAfter w fc rank round)) ↔
    Machine.CanEnd (fire (comms w.nens w.size)) final
      fun rank => collect w rank (stateAfter w fc rank (round + todo)) := by
  induction todo generalizing round with
  | zero => rfl
  | succ todo ih =>
      simp only [roundLoop]
      rw [canEnd_roundStep hfinal round, ih, Nat.add_right_comm, Nat.add_assoc]

/-- What the step returns on a rank: the root has the columns of the round loop, and it does
not know any of them if the last gather was not defined. -/
def roundsResult (w : World) (fc : MemberForecast β S) (rank : ℕ) : Result β where
  ensembleVec :=
    if rank = 0 then .matrix
      (match w.forecastColumns (memberResult w fc) with
        | some cols => cols.map some
        | none => List.replicate w.nens none)
    else .column ((ensListAfter w fc rank w.rounds).getLastD [])
  shapeEns := (fc.nd, w.nens)

lemma map_finRange {α : Type} (n : ℕ) (g : ℕ → α) :
    ((List.finRange n).map fun r : Fin n => g r) = (List.range n).map g :=
  List.ext_getElem (by simp) fun i _ _ => by simp

/-- The lists of the ranks are the hands that they were dealt. -/
lemma map_ensListAfter (w : World) (fc : MemberForecast β S) :
    ((List.finRange w.size).map fun r : Fin w.size => ensListAfter w fc r w.rounds) =
      (List.range w.size).map fun r => (Deal.hand w.nens w.size w.rounds r).map
        (memberResult w fc) := by
  rw [map_finRange w.size fun r => ensListAfter w fc r w.rounds]
  exact List.map_congr_left fun r hr => w.ensList_eq _ (List.mem_range.mp hr) _

/-- The columns that the root has gathered. -/
lemma take_gathered (w : World) (fc : MemberForecast β S) :
    (stateAfter w fc 0 w.rounds).gathered.flatten.take w.nens =
      match w.forecastColumns (memberResult w fc) with
        | some cols => cols.map some
        | none => List.replicate w.nens none := by
  have hpos : 0 < w.rounds :=
    Nat.pos_of_mul_pos_right (w.lt_rounds_mul (w.size_pos.trans_le w.size_le))
  -- the root compares its own length with that of all ranks
  have hown : (((List.range w.size).map fun r => (Deal.hand w.nens w.size w.rounds r).map
      (memberResult w fc)).getD 0 []).length = (Deal.hand w.nens w.size w.rounds 0).length := by
    simp [List.getD_eq_getElem?_getD, List.getElem?_range w.size_pos]
  have hall : (∀ l ∈ (List.range w.size).map fun r => (Deal.hand w.nens w.size w.rounds r).map
      (memberResult w fc), l.length = (Deal.hand w.nens w.size w.rounds 0).length) ↔
      w.size ∣ w.nens := by
    rw [← Deal.length_hand_eq_iff w.size_pos, ← w.rounds_eq]
    simp
  rw [stateAfter, if_pos ⟨rfl, hpos⟩, map_ensListAfter, gatherBuffers, hown, if_congr hall rfl rfl,
    World.forecastColumns, World.roundLoop_eq, ← w.rounds_eq]
  split_ifs with hd
  · simp only [Option.map_some, List.map_take, List.map_flatten]
  · -- buffers of different sizes: all columns are undefined
    have hfirst : (Deal.hand w.nens w.size w.rounds 0).length = w.rounds :=
      Deal.length_hand_of_lt fun i hi => by
        rw [Nat.zero_add, ← Deal.round_lt_roundsFor_iff w.size_pos, ← w.rounds_eq]
        exact hi
    have hle : w.nens ≤ w.size * w.rounds := by
      by_contra hlt
      have hlast := w.lt_rounds_mul (not_le.mp hlt)
      rw [Nat.mul_comm] at hlast
      exact lt_irrefl _ hlast
    simp only [Option.map_none, List.map_map, hfirst, Function.comp_def]
    refine List.eq_replicate_iff.mpr ⟨?_, fun v hv => ?_⟩
    · simp [hle]
    · have hmem := List.mem_of_mem_take hv
      simp only [List.mem_flatten, List.mem_map] at hmem
      obtain ⟨l, ⟨-, -, rfl⟩, hl⟩ := hmem
      exact List.eq_of_mem_replicate hl

/-- The root has as many columns as there are members. -/
lemma length_forecastColumns (w : World) {f : ℕ → List β} {cols : List (List β)}
    (h : w.forecastColumns f = some cols) : cols.length = w.nens := by
  by_cases hd : w.size ∣ w.nens
  · rw [(w.columns_eq f hd).1] at h
    rw [← Option.some.inj h, List.length_map, w.length_flatMap_hand hd]
  · simp [World.forecastColumns, World.roundLoop_eq, hd] at h

/-- Every column has the length of the state. -/
lemma length_memberResult (w : World) (fc : MemberForecast β S) (j : ℕ) :
    (memberResult w fc j).length = fc.nd := fc.length_advance _ _

/-- **The forecast step with at least as many members as ranks**: in every interleaving all
ranks come to the end, where the root has the columns of the round loop and every rank knows
the shape of the matrix. -/
theorem rounds_endsWith (w : World) (fc : MemberForecast β S) :
    EndsWith (comms w.nens w.size) (fun rank : Fin w.size => roundsResult w fc rank)
      (fun rank => roundsProgram w fc rank) := by
  have : NeZero w.size := ⟨w.size_pos.ne'⟩
  have hpos : 0 < w.rounds :=
    Nat.pos_of_mul_pos_right (w.lt_rounds_mul (w.size_pos.trans_le w.size_le))
  -- before the first round the lists are empty
  have hstart : (fun rank : Fin w.size => roundsProgram w fc rank) =
      fun rank : Fin w.size => roundLoop w fc rank w.rounds 0 (stateAfter w fc rank 0) := by
    funext rank
    rw [roundsProgram, stateAfter, w.distribution_eq rank.2, ← w.rounds_eq]
    simp [ensListAfter, World.ensList, noiseAfter]
  have hrows : ((stateAfter w fc 0 w.rounds).ensList.headD []).length = fc.nd := by
    obtain ⟨rest, hrest⟩ := List.head?_eq_some_iff.mp
      (Deal.head?_hand (p := w.size) (w.size_pos.trans_le w.size_le) hpos)
    rw [stateAfter, ensListAfter, w.ensList_eq _ w.size_pos, hrest]
    exact length_memberResult w fc 0
  have hcols : ((stateAfter w fc 0 w.rounds).gathered.flatten.take w.nens).length = w.nens := by
    rw [take_gathered]
    split
    · next cols h => rw [List.length_map, length_forecastColumns w h]
    · rw [List.length_replicate]
  -- after the rounds there is the broadcast of the shape
  rw [endsWith_iff, hstart, canEnd_roundLoop stopped_ret, Nat.zero_add]
  simp only [collect]
  refine (canEnd_world stopped_ret).mpr (Machine.canEnd_of_final (funext fun rank => ?_))
  rw [deliver_bcast, getD_map_finRange]
  simp only [Fin.val_zero, if_true, hrows, hcols, Message.toShape, roundsResult]
  split_ifs with h0
  · rw [h0, take_gathered]
  · rfl

end Rounds

/-! ### Groups -/

/-- A default run with more ranks than members. -/
structure GroupWorld where
  nens : ℕ
  size : ℕ
  nens_pos : 0 < nens
  nens_lt : nens < size

/-- The keys of `updated_state` and what the model has computed for them on a rank, and the
noise that the leader of a group adds to one key after the other. -/
structure GroupForecast (β S : Type) where
  keys : List String
  updated : ℕ → String → List β
  noise : ℕ → S
  addNoise : S → List β → S × List β

/-- `np.column_stack` of arrays, which need one length. -/
def columnStack (cols : List (List β)) : Option (List (List β)) :=
  if ∀ v ∈ cols, v.length = (cols.headD []).length then some cols else none

section Groups

variable {S R : Type} (w : GroupWorld) (fc : GroupForecast β S)

/-- The leader joins the parts of every key, adds the noise, and stacks the keys. -/
def stack (rank : ℕ) (globalData : List (List (List β))) : List β :=
  (globalData.foldl (fun (acc : S × List β) parts =>
    let noisy := fc.addNoise acc.1 parts.flatten
    (noisy.1, acc.2 ++ noisy.2)) (fc.noise rank, [])).2

/-- `{key: subcomm.gather(data, root=0) for key, data in updated_state.items()}`. -/
def gatherKeys (updated : ℕ → String → List β) (rank : ℕ)
    (next : List (List (List β)) → Prog Call (Message β) R) :
    List String → List (List (List β)) → Prog Call (Message β) R
  | [], globalData => next globalData
  | key :: keys, globalData =>
      call ⟨.sub (iceseeMpiEnsDistribution w.nens w.size rank).color, .gather 0⟩
        (.vec (updated rank key)) fun parts =>
      gatherKeys updated rank next keys (globalData ++ [parts.toObjects.filterMap Message.toVec?])

/-- The shapes and the columns: the leaders send theirs to the root, which stacks them. -/
def collectGroups (rank : ℕ) (globalData : List (List (List β))) :
    Prog Call (Message β) (Option (Result β)) :=
  let stacked := if subRank w.nens w.size rank = 0 then some (stack fc rank globalData) else none
  call bcast (.size (stacked.elim 0 List.length)) fun shape =>
  call ⟨.world, .gather 0⟩ (stacked.elim .none .vec) fun allEns =>
  if rank = 0 then
    match columnStack (allEns.toObjects.filterMap Message.toVec?) with
    | some cols =>
        call bcast (.shape (cols.headD []).length cols.length) fun shapeEns =>
        ret (some ⟨.matrix (cols.map some), shapeEns.toShape⟩)
    | none => ret none
  else
    call bcast (.shape 0 0) fun shapeEns =>
    ret (some ⟨.empty shape.toSize w.nens, shapeEns.toShape⟩)

/-- The forecast step with more ranks than members; `none` is what `column_stack` raises. The
file is open, on the subcommunicator, while the group reads its column. -/
def groupsProgram (rank : ℕ) : Prog Call (Message β) (Option (Result β)) :=
  let color := (iceseeMpiEnsDistribution w.nens w.size rank).color
  call ⟨.sub color, .barrier⟩ .none fun _ =>
  call ⟨.sub color, .other "File"⟩ .none fun _ =>
  call ⟨.sub color, .other "close"⟩ .none fun _ =>
  call ⟨.sub color, .barrier⟩ .none fun _ =>
  gatherKeys w fc.updated rank (collectGroups w fc rank) fc.keys []

/-- The column of a member: for every key the parts of the ranks of its group, in order. -/
def memberColumn (c : ℕ) : List β :=
  stack fc c (fc.keys.map fun key => (group w.nens w.size c).map fun r => fc.updated r key)

/-- What the step returns on a rank. -/
def groupsResult (rank : ℕ) : Result β where
  ensembleVec :=
    if rank = 0 then .matrix ((List.range w.nens).map fun c => some (memberColumn w fc c))
    else .empty (memberColumn w fc 0).length w.nens
  shapeEns := ((memberColumn w fc 0).length, w.nens)

variable {w fc}

instance : NeZero w.size := ⟨(w.nens_pos.trans w.nens_lt).ne'⟩

lemma mem_members {size : ℕ} {ranks : List ℕ} {rank : Fin size} :
    rank ∈ members size ranks ↔ rank.val ∈ ranks := by
  simp only [members, List.mem_filterMap]
  constructor
  · rintro ⟨r, hr, heq⟩
    split_ifs at heq
    obtain rfl := Option.some.inj heq
    exact hr
  · exact fun h => ⟨rank, h, by simp⟩

lemma map_members {α : Type} {size : ℕ} {ranks : List ℕ} (h : ∀ r ∈ ranks, r < size)
    (g : ℕ → α) : ((members size ranks).map fun r : Fin size => g r) = ranks.map g := by
  induction ranks with
  | nil => rfl
  | cons r ranks ih =>
      have hr : r < size := h r List.mem_cons_self
      have hrest := ih fun s hs => h s (List.mem_cons_of_mem _ hs)
      rw [members, List.filterMap_cons_some (dif_pos hr), ← members, List.map_cons, hrest,
        List.map_cons]

/-- The ranks of a group. -/
lemma mem_callGroup_sub {rank : Fin w.size} {c : ℕ} {k : Collective} :
    rank ∈ callGroup w.nens w.size ⟨.sub c, k⟩ ↔ rank % w.nens = c := by
  rw [callGroup, mem_members, mem_group_iff w.nens_lt]
  simp

/-- The leader of a group is the root of its calls. -/
lemma root_callGroup_sub {rank : Fin w.size} {k : Collective} :
    (callGroup w.nens w.size ⟨.sub (rank % w.nens), k⟩)[0]? = some rank ↔
      rank.val < w.nens := by
  have hc : rank % w.nens < w.nens := Nat.mod_lt _ w.nens_pos
  obtain ⟨rest, hrest⟩ := List.head?_eq_some_iff.mp (head?_group w.nens_lt hc)
  have hgroup : callGroup w.nens w.size ⟨.sub (rank % w.nens), k⟩ =
      members w.size (rank % w.nens :: rest) := by rw [← hrest]; rfl
  rw [hgroup, members, List.filterMap_cons_some (dif_pos (hc.trans w.nens_lt))]
  simp only [List.getElem?_cons_zero, Option.some_inj, Fin.ext_iff]
  exact Nat.mod_eq_iff_lt w.nens_pos.ne'

/-- All ranks have come to the same call on their subcommunicators. -/
lemma canEnd_sub {final : State (Fin w.size) Call (Message β) R → Prop}
    (hfinal : ∀ t, final t → Machine.Stopped (fire (comms w.nens w.size)) t) {k : Collective}
    {x : Fin w.size → Message β}
    {next : Fin w.size → Message β → Prog Call (Message β) R} :
    Machine.CanEnd (fire (comms w.nens w.size)) final
      (fun rank => call ⟨.sub (rank % w.nens), k⟩ (x rank) (next rank)) ↔
    Machine.CanEnd (fire (comms w.nens w.size)) final fun rank => next rank
      ((comms w.nens w.size).deliver ⟨.sub (rank % w.nens), k⟩
        ((members w.size (group w.nens w.size (rank % w.nens))).map x) rank) := by
  have hlt : ∀ rank : Fin w.size, rank % w.nens ∈ List.range w.nens := fun rank =>
    List.mem_range.mpr (Nat.mod_lt _ w.nens_pos)
  refine (canEnd_groups hfinal (fun c => (⟨.sub c, k⟩ : Call))
    (fun rank : Fin w.size => rank % w.nens) (x := x) (l := List.range w.nens)
    List.nodup_range (fun c hc => ⟨?_, fun rank => mem_callGroup_sub (k := k)⟩)
    fun rank _ => rfl).trans ?_
  · have hc := List.mem_range.mp hc
    have hmem : (⟨c, hc.trans w.nens_lt⟩ : Fin w.size) ∈
        callGroup w.nens w.size ⟨.sub c, k⟩ := mem_callGroup_sub.mpr (Nat.mod_eq_of_lt hc)
    exact List.ne_nil_of_mem hmem
  · refine iff_of_eq (congrArg _ (funext fun rank => if_pos (hlt rank)))

/-- What a rank has received for some keys. -/
def received (w : GroupWorld) (updated : ℕ → String → List β) (rank : ℕ)
    (keys : List String) : List (List (List β)) :=
  keys.map fun key => if rank < w.nens
    then (group w.nens w.size rank).map fun r => updated r key else []

/-- **The keys**: the leader of a group receives the parts of its ranks. -/
lemma canEnd_gatherKeys {final : State (Fin w.size) Call (Message β) R → Prop}
    (hfinal : ∀ t, final t → Machine.Stopped (fire (comms w.nens w.size)) t)
    {updated : ℕ → String → List β}
    {next : Fin w.size → List (List (List β)) → Prog Call (Message β) R} (keys : List String)
    (globalData : Fin w.size → List (List (List β))) :
    Machine.CanEnd (fire (comms w.nens w.size)) final
      (fun rank => gatherKeys w updated rank (next rank) keys (globalData rank)) ↔
    Machine.CanEnd (fire (comms w.nens w.size)) final fun rank =>
      next rank (globalData rank ++ received w updated rank keys) := by
  induction keys generalizing globalData with
  | nil => simp [gatherKeys, received]
  | cons key keys ih =>
      simp only [gatherKeys, iceseeMpiEnsDistribution_of_lt w.nens_lt]
      -- the groups gather on their own communicators
      rw [canEnd_sub hfinal, ih]
      refine iff_of_eq (congrArg _ (funext fun rank => congrArg _ ?_))
      rw [deliver_gather, List.append_assoc]
      refine congrArg (globalData rank ++ ·) (congrArg (· :: received w updated rank keys) ?_)
      simp only [root_callGroup_sub]
      by_cases hlead : rank.val < w.nens
      · rw [if_pos hlead, if_pos hlead, Nat.mod_eq_of_lt hlead, Message.toObjects,
          map_members (fun r hr => ((mem_group_iff w.nens_lt).mp hr).1)
            fun r => Message.vec (updated r key),
          List.filterMap_map]
        simp [Function.comp_def, Message.toVec?]
      · rw [if_neg hlead, if_neg hlead]
        rfl

/-- All columns have one length. -/
def SameLength (w : GroupWorld) (fc : GroupForecast β S) : Prop :=
  ∀ c < w.nens, (memberColumn w fc c).length = (memberColumn w fc 0).length

instance : Decidable (SameLength w fc) :=
  inferInstanceAs (Decidable (∀ c < w.nens, (memberColumn w fc c).length = _))

/-- What a leader stacks is the column of its member. -/
lemma stack_received {rank : ℕ} (hlead : rank < w.nens) :
    stack fc rank (received w fc.updated rank fc.keys) = memberColumn w fc rank := by
  simp only [received, if_pos hlead]
  rfl

/-- The columns that the leaders send. -/
lemma columns_gathered (w : GroupWorld) (fc : GroupForecast β S) :
    (((List.finRange w.size).map fun rank : Fin w.size =>
      ((if subRank w.nens w.size rank = 0
        then some (stack fc rank (received w fc.updated rank fc.keys))
        else none).elim Message.none Message.vec : Message β)).filterMap Message.toVec?) =
      (List.range w.nens).map (memberColumn w fc) := by
  rw [← gatherLeaders_eq w.nens_lt w.nens_pos, gatherLeaders,
    map_finRange w.size fun rank => ((if subRank w.nens w.size rank = 0
      then some (stack fc rank (received w fc.updated rank fc.keys)) else none).elim
        Message.none Message.vec : Message β), List.filterMap_map]
  refine List.filterMap_congr fun rank _ => ?_
  rw [Function.comp_apply]
  split_ifs with hlead
  · have hlt := (subRank_eq_zero_iff w.nens_lt w.nens_pos rank).mp hlead
    rw [stack_received hlt, iceseeMpiEnsDistribution_of_lt w.nens_lt]
    simp [Message.toVec?, Nat.mod_eq_of_lt hlt]
  · rfl

lemma headD_memberColumn (w : GroupWorld) (fc : GroupForecast β S) :
    ((List.range w.nens).map (memberColumn w fc)).headD [] = memberColumn w fc 0 := by
  obtain ⟨n, hn⟩ := Nat.exists_eq_succ_of_ne_zero w.nens_pos.ne'
  rw [hn, List.range_succ_eq_map]
  rfl

/-- `column_stack` on the root. -/
lemma columnStack_members (w : GroupWorld) (fc : GroupForecast β S) :
    columnStack ((List.range w.nens).map (memberColumn w fc)) =
      if SameLength w fc then some ((List.range w.nens).map (memberColumn w fc)) else none := by
  rw [columnStack, headD_memberColumn]
  refine if_congr ?_ rfl rfl
  simp [SameLength]

/-- The ranks before the last broadcast: the root has stacked the columns, or raised. -/
def beforeShape (w : GroupWorld) (fc : GroupForecast β S) (rank : Fin w.size) :
    Prog Call (Message β) (Option (Result β)) :=
  if rank.val = 0 ∧ ¬ SameLength w fc then ret none
  else call bcast
    (if rank.val = 0 then .shape (memberColumn w fc 0).length w.nens else .shape 0 0)
    fun shapeEns => ret (some { groupsResult w fc rank with shapeEns := shapeEns.toShape })

/-- **The step up to the last broadcast**, in every interleaving. -/
lemma canEnd_groupsProgram
    {final : State (Fin w.size) Call (Message β) (Option (Result β)) → Prop}
    (hfinal : ∀ t, final t → Machine.Stopped (fire (comms w.nens w.size)) t) :
    Machine.CanEnd (fire (comms w.nens w.size)) final (fun rank => groupsProgram w fc rank) ↔
      Machine.CanEnd (fire (comms w.nens w.size)) final (beforeShape w fc) := by
  simp only [groupsProgram, iceseeMpiEnsDistribution_of_lt w.nens_lt]
  -- the barriers and the file, the gathers of the groups, the shape and the columns
  rw [canEnd_sub hfinal, canEnd_sub hfinal, canEnd_sub hfinal, canEnd_sub hfinal,
    canEnd_gatherKeys hfinal]
  simp only [List.nil_append, collectGroups, bcast]
  rw [canEnd_world hfinal, canEnd_world hfinal]
  refine iff_of_eq (congrArg _ (funext fun rank => ?_))
  -- what the root sends and gathers
  have hshape : (if subRank w.nens w.size (0 : Fin w.size) = 0
      then some (stack fc (0 : Fin w.size) (received w fc.updated (0 : Fin w.size) fc.keys))
      else none) = some (memberColumn w fc 0) := by
    have hzero : (0 : Fin w.size).val = 0 := rfl
    rw [hzero, if_pos ((subRank_eq_zero_iff w.nens_lt w.nens_pos 0).mpr w.nens_pos),
      stack_received w.nens_pos]
  simp only [deliver_bcast, deliver_gather, root_callGroup_world, getD_map_finRange, hshape,
    Option.elim_some, Message.toSize, beforeShape]
  have hstack := (congrArg columnStack (columns_gathered w fc)).trans (columnStack_members w fc)
  by_cases h0 : rank.val = 0
  · simp only [h0, if_true, Message.toObjects, hstack, true_and]
    by_cases hsame : SameLength w fc
    · simp only [hsame, if_true, not_true, if_false, headD_memberColumn, groupsResult,
        List.length_map, List.length_range, List.map_map, Function.comp_def, bcast]
    · simp [hsame]
  · simp [h0, groupsResult, bcast]

/-- `column_stack` has raised on the root, and the other ranks have come to its broadcast. -/
def RootRaised (t : State (Fin w.size) Call (Message β) (Option (Result β))) : Prop :=
  t 0 = ret none ∧ ∀ rank, rank ≠ 0 → ∃ x next, t rank = call bcast x next

/-- There is no call that these ranks could make: the root has left. -/
lemma stopped_of_rootRaised (t : State (Fin w.size) Call (Message β) (Option (Result β)))
    (ht : RootRaised t) : Machine.Stopped (fire (comms w.nens w.size)) t := by
  intro op
  by_contra hfire
  obtain ⟨t', ht'⟩ := Option.ne_none_iff_exists'.mp hfire
  have hroot : (0 : Fin w.size) ∉ callGroup w.nens w.size op := by
    intro hmem
    obtain ⟨x, next, v, hcall, -⟩ := fire_of_mem ht' hmem
    exact nomatch ht.1.symm.trans hcall
  obtain ⟨hne, -⟩ := fire_eq_some.mp ht'
  obtain ⟨rank, hrank⟩ := List.exists_mem_of_ne_nil _ hne
  obtain ⟨x, next, v, hcall, -⟩ := fire_of_mem ht' hrank
  obtain ⟨x', next', hwait⟩ := ht.2 rank fun h => hroot (h ▸ hrank)
  -- the call is the broadcast on the world, and the root belongs to it
  obtain rfl := (call.inj (hwait.symm.trans hcall)).1
  exact hroot (List.mem_finRange 0)

/-- **The forecast step with more ranks than members**: in every interleaving all ranks come
to the end, with the column of member `c` in column `c` of the root, exactly if all columns
have one length. Otherwise, in every interleaving, `column_stack` raises on the root and the
other ranks wait for its broadcast for ever. -/
theorem groups_endsWith_iff (w : GroupWorld) (fc : GroupForecast β S) :
    (EndsWith (comms w.nens w.size) (fun rank : Fin w.size => some (groupsResult w fc rank))
      (fun rank => groupsProgram w fc rank) ↔ SameLength w fc) ∧
    (¬ SameLength w fc →
      Machine.AlwaysEnds (fire (comms w.nens w.size)) RootRaised
        (fun rank : Fin w.size => groupsProgram w fc rank) ∧
      ¬ Finishes (comms w.nens w.size) (fun rank : Fin w.size => groupsProgram w fc rank)) := by
  have hraised : ¬ SameLength w fc → RootRaised (beforeShape w fc) := by
    intro hsame
    refine ⟨if_pos ⟨rfl, hsame⟩, fun rank hrank => ⟨_, _, if_neg ?_⟩⟩
    exact fun h => hrank (Fin.ext h.1)
  have hwaits : ¬ SameLength w fc →
      ¬ Finishes (comms w.nens w.size) (fun rank : Fin w.size => groupsProgram w fc rank) := by
    intro hsame hfinishes
    have hone : 1 < w.size := Nat.lt_of_le_of_lt w.nens_pos w.nens_lt
    -- rank `1` waits for the root
    obtain ⟨hroot, hothers⟩ := hraised hsame
    obtain ⟨x, next, hwait⟩ := hothers ⟨1, hone⟩ (by simp [Fin.ext_iff])
    exact not_finishes_of_left hwait hroot (List.mem_finRange 0)
      ((canEnd_groupsProgram fun _ h => h.stopped).mp hfinishes)
  refine ⟨⟨fun hend => ?_, fun hsame => ?_⟩, fun hsame => ⟨?_, hwaits hsame⟩⟩
  · by_contra hsame
    refine hwaits hsame (Machine.canEnd_mono ?_ (endsWith_iff.mp hend))
    rintro _ rfl
    exact fun rank => ⟨_, rfl⟩
  · rw [endsWith_iff, canEnd_groupsProgram stopped_ret]
    have hcall : beforeShape w fc = fun rank : Fin w.size => call bcast
        (if rank.val = 0 then .shape (memberColumn w fc 0).length w.nens else .shape 0 0)
        fun shapeEns => ret (some { groupsResult w fc rank with shapeEns := shapeEns.toShape }) :=
      funext fun rank => if_neg fun h => h.2 hsame
    rw [hcall]
    refine (canEnd_world stopped_ret).mpr (Machine.canEnd_of_final (funext fun rank => ?_))
    rw [deliver_bcast, getD_map_finRange, if_pos (Fin.val_zero _)]
    rfl
  · exact (Machine.canEnd_iff commutes_fire stopped_of_rootRaised).mp
      ((canEnd_groupsProgram stopped_of_rootRaised).mpr (Machine.canEnd_of_final (hraised hsame)))

end Groups

end Icesee.ForecastProtocol
