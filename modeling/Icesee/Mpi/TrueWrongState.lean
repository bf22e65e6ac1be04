import Icesee.Mpi.ForecastProtocol

/-!
The true and the nurged state with more ranks than members, as a protocol.

In `generate_true_wrong_state` the leaders of the groups collect the true state of their ranks
and write it with `h5py.File(_, "w", driver='mpio', comm=subcomm)`. To open a file on a
communicator is a collective call, but only the leader makes it, while the other ranks of its
group go on to the broadcasts on the world. So the ranks come to an end exactly if the flag
`generate_true_state` is not given as true (`finishes_iff_flag`); without the flag the state is
generated, but not written.
-/

namespace Icesee.TrueWrongState

open Mpi Spmd Spmd.Prog ForecastProtocol

/-- The flags, and the true state that the model has generated on a rank: its rows, for every
key. The rows of all ranks have one length. -/
structure Generation (β : Type) where
  nd : ℕ → ℕ
  keys : List String
  updatedTrueState : ℕ → String → List β
  totalStateParamVars : ℕ
  generateTrueState : Option Bool
  generateNurgedState : Option Bool

variable {β : Type} (w : GroupWorld) (g : Generation β)

/-- The calls on a file that is opened on a communicator, written and closed. -/
def writeFile (comm : Comm) (next : Prog Call (Message β) Unit) : Prog Call (Message β) Unit :=
  call ⟨comm, .other "File"⟩ .none fun _ =>
  call ⟨comm, .other "create_dataset"⟩ .none fun _ =>
  call ⟨comm, .other "close"⟩ .none fun _ => next

/-- The nurged state, and the end. -/
def nurgedState : Prog Call (Message β) Unit :=
  if g.generateNurgedState.getD true then writeFile .world (call barrier .none fun _ => ret ())
  else call barrier .none fun _ => ret ()

/-- The broadcasts of the shape and of `hdim`. -/
def shapes (rows : ℕ) : Prog Call (Message β) Unit :=
  call bcast (.size rows) fun _ =>
  call bcast (.size (rows / g.totalStateParamVars)) fun _ => nurgedState g

/-- The leader stacks what it has gathered and writes it. -/
def writeTrueState (rank : ℕ) (globalData : List (List (List β))) :
    Prog Call (Message β) Unit :=
  if subRank w.nens w.size rank = 0 then
    let stacked := globalData.flatten.flatten
    if g.generateTrueState = some true then
      writeFile (.sub (iceseeMpiEnsDistribution w.nens w.size rank).color)
        (shapes g stacked.length)
    else shapes g stacked.length
  else shapes g 0

/-- `generate_true_wrong_state` with more ranks than members. -/
def generateTrueWrongState (rank : ℕ) : Prog Call (Message β) Unit :=
  call ⟨.sub (iceseeMpiEnsDistribution w.nens w.size rank).color, .other "allgather"⟩
    (.size (g.nd rank)) fun _ =>
  if g.generateTrueState.getD true then
    gatherKeys w g.updatedTrueState rank (writeTrueState w g rank) g.keys []
  else nurgedState g

variable {w g}

lemma finishes_writeFile {next : Fin w.size → Prog Call (Message β) Unit} :
    Finishes (comms w.nens w.size) (fun rank => writeFile .world (next rank)) ↔
      Finishes (comms w.nens w.size) next := by
  simp only [writeFile]
  exact (canEnd_world fun _ h => h.stopped).trans ((canEnd_world fun _ h => h.stopped).trans
    (canEnd_world fun _ h => h.stopped))

lemma finishes_nurgedState :
    Finishes (comms w.nens w.size) fun _ : Fin w.size => nurgedState g := by
  have hend : Finishes (comms w.nens w.size)
      fun _ : Fin w.size => (call barrier .none fun _ => ret () : Prog Call (Message β) Unit) :=
    (canEnd_world fun _ h => h.stopped).mpr (finishes_of_done fun _ => ⟨(), rfl⟩)
  simp only [nurgedState]
  split_ifs
  · exact finishes_writeFile.mpr hend
  · exact hend

lemma finishes_shapes (rows : Fin w.size → ℕ) :
    Finishes (comms w.nens w.size) fun rank : Fin w.size => shapes g (rows rank) := by
  simp only [shapes]
  exact (canEnd_world fun _ h => h.stopped).mpr
    ((canEnd_world fun _ h => h.stopped).mpr finishes_nurgedState)

/-- The root opens the file. -/
lemma writeTrueState_root (hwrite : g.generateTrueState = some true)
    (globalData : List (List (List β))) : writeTrueState w g 0 globalData =
      writeFile (.sub 0) (shapes g globalData.flatten.flatten.length) := by
  have hleader : subRank w.nens w.size 0 = 0 :=
    (subRank_eq_zero_iff w.nens_lt w.nens_pos 0).mpr w.nens_pos
  rw [writeTrueState, if_pos hleader, if_pos hwrite, iceseeMpiEnsDistribution_of_lt w.nens_lt,
    Nat.zero_mod]

/-- The next rank of the group of the root goes on. -/
lemma writeTrueState_nens (globalData : List (List (List β))) :
    writeTrueState w g w.nens globalData = shapes g 0 :=
  if_neg ((subRank_eq_zero_iff w.nens_lt w.nens_pos w.nens).not.mpr (lt_irrefl _))

/-- **The true state**: in every interleaving the ranks come to the end exactly if the flag
`generate_true_state` is not given as true. Otherwise the root waits in the call that opens the
file for the other ranks of its group, and these wait for its broadcast. -/
theorem finishes_iff_flag (w : GroupWorld) (g : Generation β) :
    Machine.AlwaysEnds (fire (comms w.nens w.size)) Done
        (fun rank : Fin w.size => generateTrueWrongState w g rank) ↔
      g.generateTrueState ≠ some true := by
  rw [← finishes_iff]
  simp only [generateTrueWrongState, iceseeMpiEnsDistribution_of_lt w.nens_lt]
  refine (canEnd_sub fun _ h => h.stopped).trans ?_
  by_cases hgen : g.generateTrueState.getD true
  · simp only [hgen, if_true]
    refine (canEnd_gatherKeys (fun _ h => h.stopped) g.keys fun _ => []).trans ?_
    by_cases hwrite : g.generateTrueState = some true
    · refine iff_of_false ?_ (not_not.mpr hwrite)
      -- rank `nens` belongs to the group of the root, which waits for it
      have hmem : (⟨w.nens, w.nens_lt⟩ : Fin w.size) ∈
          callGroup w.nens w.size ⟨.sub 0, .other "File"⟩ :=
        mem_callGroup_sub.mpr (Nat.mod_self _)
      exact not_finishes_of_crossed (r := (0 : Fin w.size)) (by decide)
        (writeTrueState_root hwrite _) (writeTrueState_nens _) hmem (List.mem_finRange _)
    · refine iff_of_true ?_ hwrite
      refine (congrArg _ (funext fun rank => ?_)).mpr
        (finishes_shapes (g := g) fun rank : Fin w.size => if subRank w.nens w.size rank = 0
          then (received w g.updatedTrueState rank g.keys).flatten.flatten.length else 0)
      simp only [writeTrueState, hwrite, if_false, List.nil_append]
      split_ifs <;> rfl
  · simp only [hgen, Bool.false_eq_true, if_false]
    refine iff_of_true finishes_nurgedState fun h => hgen ?_
    rw [h]
    rfl

end Icesee.TrueWrongState
