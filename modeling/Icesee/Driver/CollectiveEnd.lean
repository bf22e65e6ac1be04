import Icesee.Lib.Spmd
import Icesee.Mpi.Calls
import Mathlib.Algebra.BigOperators.Group.List.Basic
import Mathlib.Algebra.GroupWithZero.Nat
import Mathlib.Algebra.Order.Ring.Rat
import Mathlib.Data.List.FinRange

/-!
How the ranks of the full-parallel driver come to their end.

The driver is one `try` on every rank. Its last part, after the time loop, is a sequence of
collective calls: the barrier of `save_all_data`, the broadcasts of `finalize_ok` and
`finalize_err`, the reductions of the timers, the broadcasts of `timing_ok` and
`timing_err`. The `except` clause has barriers of its own, so a rank that raises does not
make the calls that the others wait in.

* `completed_or_not`: whatever the ranks do before, in any interleaving, if all of them come
  to an end then all have completed the driver or none has.
* `afterLoop_iff`: after the time loop, exactly when they come to an end.

The run has at least as many members as ranks and the parallel flag `MPI_model`; then
`save_all_data` has its barrier, and closing the step files concerns one rank at a time.
-/

namespace Icesee.CollectiveEnd

open Mpi Spmd Spmd.Prog

/-! ### The calls -/

/-- The objects that are sent. -/
inductive Datum
  | none
  | bool (b : Bool)
  | str (s : String)
  | num (q : ℚ)
  deriving DecidableEq

namespace Datum

/-- What `not x` negates. -/
def truthy : Datum → Bool
  | none => false
  | bool b => b
  | str s => s ≠ ""
  | num q => q ≠ 0

/-- `f"{x}"`; numbers are not formatted here. -/
def text : Datum → String
  | none => "None"
  | bool b => if b then "True" else "False"
  | str s => s
  | num _ => "<number>"

/-- The number, for the reductions. -/
def value : Datum → ℚ
  | num q => q
  | _ => 0

end Datum

/-- `MPI.MAX`, in the order of the ranks. -/
def maximum : List ℚ → ℚ
  | [] => 0
  | x :: xs => xs.foldl max x

/-- The collectives of `p` ranks: all ranks take part in the calls on the world, a broadcast
delivers what the root brings, a reduction the sum or the maximum. -/
structure MpiComms (p : ℕ) extends Comms (Fin p) Call Datum where
  group_world : ∀ k, group ⟨.world, k⟩ = List.finRange p
  deliver_bcast : ∀ root xs r, deliver ⟨.world, .bcast root⟩ xs r = xs.getD root .none
  deliver_sum : ∀ xs r,
    deliver ⟨.world, .allreduceSum⟩ xs r = .num (xs.map Datum.value).sum
  deliver_max : ∀ xs r,
    deliver ⟨.world, .allreduceMax⟩ xs r = .num (maximum (xs.map Datum.value))

/-- The collectives of `p` ranks, each alone in the subcommunicator of its color. -/
def eachAlone (p : ℕ) : MpiComms p where
  group call := match call.comm with
    | .world => List.finRange p
    | .sub color => (List.finRange p).filter fun rank => rank.val = color
  deliver call xs _ := match call.collective with
    | .bcast root => xs.getD root .none
    | .allreduceSum => .num (xs.map Datum.value).sum
    | .allreduceMax => .num (maximum (xs.map Datum.value))
    | _ => .none
  group_world _ := rfl
  deliver_bcast _ _ _ := rfl
  deliver_sum _ _ := rfl
  deliver_max _ _ := rfl

/-! ### The last part of the driver -/

/-- An exception: the name of its class, and its message. -/
structure Error where
  type : String
  message : String
  deriving DecidableEq, Repr

/-- `f"{type(e).__name__}: {e}"`. -/
def Error.format (e : Error) : String := e.type ++ ": " ++ e.message

/-- How the driver ends on a rank: it goes through, with the reduced times, or the `except`
clause does, or an exception leaves the clause. -/
inductive Outcome
  | completed (totals : List Datum)
  | recovered (e : Error)
  | escaped (e : Error)
  deriving DecidableEq

/-- `create_ensemble_dataset`, what the timers show, and what is raised where: by
`save_arrays_to_h5` and by the final `finalize_stack` on the root, before a reduction on a
rank, by `display_timing_verbose` on the root, and by the `finalize_stack` of the `except`
clause, also on the root. -/
structure Ending (p : ℕ) where
  createEnsembleDataset : Bool
  time : String → Fin p → ℚ
  saveArrays : Option Error
  finalize : Option Error
  timing : Fin p → ℕ → Option Error
  display : Option Error
  stack : Option Error

/-- The timers, with their reductions, in the order of the source. -/
def timers : List (String × Collective) :=
  [("global_elapsed_time", .allreduceSum),
   ("global_elapsed_time", .allreduceMax),
   ("time_generation_true_and_wrong_state", .allreduceMax),
   ("time_ensemble_initialization", .allreduceMax),
   ("time_forecast_step", .allreduceMax),
   ("time_forecast_noise_generation", .allreduceMax),
   ("time_analysis_step", .allreduceMax),
   ("time_forecast_file_writing", .allreduceMax),
   ("time_analysis_file_writing", .allreduceMax),
   ("time_init_file_writing", .allreduceMax),
   ("time_analysis_ensemble_mean_generation", .allreduceMax),
   ("time_forecast_ensemble_mean_generation", .allreduceMax),
   ("time_init_ensemble_mean_computation", .allreduceMax)]

namespace Ending

variable {p : ℕ} [NeZero p] (cfg : Ending p) (rank : Fin p)

/-- What is raised by a part that only the root executes. -/
def onRoot (raised : Option Error) : Option Error := if rank = 0 then raised else none

/-- The `except` clause. What `save_checkpoint` raises is caught there. -/
def exceptClause (e : Error) : Prog Call Datum Outcome :=
  call barrier .none fun _ =>
  call barrier .none fun _ =>
  if cfg.createEnsembleDataset then
    match onRoot rank cfg.stack with
    | some e' => ret (.escaped e')
    | none => call barrier .none fun _ => ret (.recovered e)
  else ret (.recovered e)

/-- The display of the times. -/
def displayTiming (totals : List Datum) : Prog Call Datum Outcome :=
  match onRoot rank cfg.display with
  | some e => cfg.exceptClause rank e
  | none => ret (.completed totals)

/-- The broadcast of the status of the reductions. -/
def timingStatus (ok : Bool) (err : String) (totals : List Datum) : Prog Call Datum Outcome :=
  call bcast (.bool ok) fun timingOk =>
  call bcast (.str err) fun timingErr =>
  if !timingOk.truthy then
    cfg.exceptClause rank
      ⟨"RuntimeError", "[ICESEE][TIMING] Collective timing reduction failed: " ++ timingErr.text⟩
  else call barrier .none fun _ => cfg.displayTiming rank totals

/-- The reductions from number `i` on. -/
def reductions : ℕ → List (String × Collective) → List Datum → Prog Call Datum Outcome
  | _, [], totals => cfg.timingStatus rank true "" totals
  | i, (name, collective) :: rest, totals => match cfg.timing rank i with
      | some e => cfg.timingStatus rank false e.format totals
      | none => call ⟨.world, collective⟩ (.num (cfg.time name rank)) fun total =>
          reductions (i + 1) rest (totals ++ [total])

/-- The collective finalize. -/
def collectiveFinalize : Prog Call Datum Outcome :=
  let raised := onRoot rank cfg.finalize
  call bcast (.bool raised.isNone) fun finalizeOk =>
  call bcast (.str (raised.elim "" Error.format)) fun finalizeErr =>
  if !finalizeOk.truthy then
    cfg.exceptClause rank
      ⟨"RuntimeError", "[ICESEE][FINALIZE] Root finalize failed: " ++ finalizeErr.text⟩
  else call barrier .none fun _ => cfg.reductions rank 0 timers []

/-- Everything after the time loop: the barrier there, `save_all_data`, and the rest. -/
def afterLoop : Prog Call Datum Outcome :=
  call barrier .none fun _ =>
  call barrier .none fun _ =>
  match onRoot rank cfg.saveArrays with
  | some e => cfg.exceptClause rank e
  | none => cfg.collectiveFinalize rank

/-- The driver on a rank: its `try` begins with some program. -/
def driver (body : Fin p → Prog Call Datum (Except Error Unit)) : Prog Call Datum Outcome :=
  (body rank).bind fun
    | .ok () => cfg.afterLoop rank
    | .error e => cfg.exceptClause rank e

end Ending

/-! ### All or none -/

/-- A rank that completes leaves through a broadcast and a barrier, all others leave through
two barriers. -/
def Leaves (z : Outcome) (ops : List Call) : Prop :=
  ((∃ totals, z = .completed totals) ∧ ∃ pre, ops = pre ++ [bcast, barrier]) ∨
    ((∀ totals, z ≠ .completed totals) ∧ ∃ pre, ops = pre ++ [barrier, barrier])

lemma Leaves.append {z : Outcome} {ops : List Call} (h : Leaves z ops) (first : List Call) :
    Leaves z (first ++ ops) := by
  rcases h with ⟨hz, pre, rfl⟩ | ⟨hz, pre, rfl⟩
  · exact .inl ⟨hz, first ++ pre, by rw [List.append_assoc]⟩
  · exact .inr ⟨hz, first ++ pre, by rw [List.append_assoc]⟩

namespace Ending

variable {p : ℕ} [NeZero p] {cfg : Ending p} {rank : Fin p} {ops : List Call} {z : Outcome}

lemma leaves_exceptClause {e : Error} (h : Path (cfg.exceptClause rank e) ops (ret z)) :
    Leaves z ops := by
  obtain ⟨-, ops₁, rfl, h₁⟩ := path_call h
  obtain ⟨-, ops₂, rfl, h₂⟩ := path_call h₁
  split_ifs at h₂
  · split at h₂
    · obtain ⟨rfl, hz⟩ := path_ret h₂
      exact .inr ⟨by simp [← hz], [], rfl⟩
    · obtain ⟨-, ops₃, rfl, h₃⟩ := path_call h₂
      obtain ⟨rfl, hz⟩ := path_ret h₃
      exact .inr ⟨by simp [← hz], [barrier], rfl⟩
  · obtain ⟨rfl, hz⟩ := path_ret h₂
    exact .inr ⟨by simp [← hz], [], rfl⟩

lemma leaves_timingStatus {ok : Bool} {err : String} {totals : List Datum}
    (h : Path (cfg.timingStatus rank ok err totals) ops (ret z)) : Leaves z ops := by
  obtain ⟨timingOk, ops₁, rfl, h₁⟩ := path_call h
  obtain ⟨timingErr, ops₂, rfl, h₂⟩ := path_call h₁
  split_ifs at h₂
  · exact (leaves_exceptClause h₂).append [bcast, bcast]
  · obtain ⟨-, ops₃, rfl, h₃⟩ := path_call h₂
    rw [displayTiming] at h₃
    split at h₃
    · exact (leaves_exceptClause h₃).append [bcast, bcast, barrier]
    · obtain ⟨rfl, hz⟩ := path_ret h₃
      exact .inl ⟨⟨totals, hz.symm⟩, [bcast], rfl⟩

lemma leaves_reductions {i : ℕ} {l : List (String × Collective)} {totals : List Datum}
    (h : Path (cfg.reductions rank i l totals) ops (ret z)) : Leaves z ops := by
  induction l generalizing i totals ops with
  | nil => exact leaves_timingStatus h
  | cons timer rest ih =>
      rw [reductions] at h
      split at h
      · exact leaves_timingStatus h
      · obtain ⟨total, ops₁, rfl, h₁⟩ := path_call h
        exact (ih h₁).append [_]

lemma leaves_collectiveFinalize (h : Path (cfg.collectiveFinalize rank) ops (ret z)) :
    Leaves z ops := by
  obtain ⟨finalizeOk, ops₁, rfl, h₁⟩ := path_call h
  obtain ⟨finalizeErr, ops₂, rfl, h₂⟩ := path_call h₁
  split_ifs at h₂
  · exact (leaves_exceptClause h₂).append [bcast, bcast]
  · obtain ⟨-, ops₃, rfl, h₃⟩ := path_call h₂
    exact (leaves_reductions h₃).append [bcast, bcast, barrier]

lemma leaves_afterLoop (h : Path (cfg.afterLoop rank) ops (ret z)) : Leaves z ops := by
  obtain ⟨-, ops₁, rfl, h₁⟩ := path_call h
  obtain ⟨-, ops₂, rfl, h₂⟩ := path_call h₁
  split at h₂
  · exact (leaves_exceptClause h₂).append [barrier, barrier]
  · exact (leaves_collectiveFinalize h₂).append [barrier, barrier]

/-- **How a rank leaves the driver.** -/
lemma leaves_driver {body : Fin p → Prog Call Datum (Except Error Unit)}
    (h : Path (cfg.driver rank body) ops (ret z)) : Leaves z ops := by
  obtain ⟨ops₁, ops₂, r, rfl, -, h₂⟩ := h.of_bind
  cases r with
  | ok u => exact (leaves_afterLoop h₂).append ops₁
  | error e => exact (leaves_exceptClause h₂).append ops₁

/-- **All or none**: whatever the ranks do in the time loop and before, on whatever
communicators, when all of them have come to an end then all have completed the driver, or
none has. -/
theorem completed_or_not (mpi : MpiComms p) (cfg : Ending p)
    (body : Fin p → Prog Call Datum (Except Error Unit)) {ops : List Call}
    {t : State (Fin p) Call Datum Outcome}
    (hrun : Machine.run (fire mpi.toComms) (fun rank => cfg.driver rank body) ops = some t)
    (hdone : Done t) :
    (∀ rank, ∃ totals, t rank = ret (.completed totals)) ∨
      ∀ rank totals, t rank ≠ ret (.completed totals) := by
  have hworld : ∀ op, onWorld op → ∀ rank : Fin p, rank ∈ mpi.group op := by
    rintro ⟨comm, k⟩ hop rank
    obtain rfl : comm = .world := by simpa [onWorld] using hop
    rw [mpi.group_world]
    exact List.mem_finRange rank
  -- all ranks make the same calls on the world
  have hleaves : ∀ rank, ∃ z, t rank = ret z ∧ Leaves z (ops.filter onWorld) := by
    intro rank
    obtain ⟨z, hz⟩ := hdone rank
    have hpath := path_of_run hrun rank
    rw [hz] at hpath
    refine ⟨z, hz, ?_⟩
    rw [← filter_path (c := mpi.toComms) onWorld hworld rank]
    rcases leaves_driver hpath with ⟨hc, pre, heq⟩ | ⟨hc, pre, heq⟩
    · exact .inl ⟨hc, pre.filter onWorld, by rw [heq, List.filter_append]; rfl⟩
    · exact .inr ⟨hc, pre.filter onWorld, by rw [heq, List.filter_append]; rfl⟩
  by_cases hlast : ∃ pre, ops.filter onWorld = pre ++ [barrier, barrier]
  · refine .inr fun rank totals hrank => ?_
    obtain ⟨z, hz, hleave⟩ := hleaves rank
    obtain rfl : z = .completed totals := Prog.ret.inj (hz.symm.trans hrank)
    rcases hleave with ⟨-, pre, heq⟩ | ⟨hc, -⟩
    · obtain ⟨pre', heq'⟩ := hlast
      have hsame := (List.append_inj' (heq.symm.trans heq') rfl).2
      exact absurd hsame (by decide)
    · exact hc totals rfl
  · refine .inl fun rank => ?_
    obtain ⟨z, hz, hleave⟩ := hleaves rank
    rcases hleave with ⟨⟨totals, rfl⟩, -⟩ | ⟨-, hpre⟩
    · exact ⟨totals, hz⟩
    · exact absurd hpre hlast

/-! ### Coming to an end -/

/-- No rank is left waiting in the `except` clause: there is one rank only, or the clause
makes no dataset, or it makes it without an exception. -/
def ClauseEnds (cfg : Ending p) : Prop :=
  p = 1 ∨ cfg.createEnsembleDataset = false ∨ cfg.stack = none

/-- The reductions from number `i` on are made by all ranks, or all ranks raise before the
same one. -/
def ReductionsEnd (cfg : Ending p) (i n : ℕ) : Prop :=
  (∀ j, i ≤ j → j < n → ∀ rank, cfg.timing rank j = none) ∧ (p = 1 ∨ cfg.display = none) ∨
    ∃ m, i ≤ m ∧ m < n ∧ (∀ j, i ≤ j → j < m → ∀ rank, cfg.timing rank j = none) ∧
      (∀ rank, cfg.timing rank m ≠ none) ∧ cfg.ClauseEnds

variable {mpi : MpiComms p} {op : Call}

omit [NeZero p] in
lemma group_of_world (hop : op.comm = .world) : mpi.group op = List.finRange p := by
  obtain ⟨comm, k⟩ := op
  obtain rfl : comm = .world := hop
  exact mpi.group_world k

omit [NeZero p] in
lemma mem_group (hop : op.comm = .world) (rank : Fin p) : rank ∈ mpi.group op := by
  rw [group_of_world hop]
  exact List.mem_finRange rank

/-- A call on the world that all ranks have come to. -/
lemma canEnd_call {final : State (Fin p) Call Datum Outcome → Prop}
    (hfinal : ∀ t, final t → Machine.Stopped (fire mpi.toComms) t) (hop : op.comm = .world)
    {x : Fin p → Datum}
    {next : Fin p → Datum → Prog Call Datum Outcome} :
    Machine.CanEnd (fire mpi.toComms) final (fun rank => call op (x rank) (next rank)) ↔
      Machine.CanEnd (fire mpi.toComms) final fun rank => next rank
        (mpi.deliver op ((List.finRange p).map x) rank) := by
  rw [canEnd_meet hfinal (List.ne_nil_of_mem (mem_group hop 0)) (mem_group hop),
    group_of_world hop]

lemma finishes_call (hop : op.comm = .world) {x : Fin p → Datum}
    {next : Fin p → Datum → Prog Call Datum Outcome} :
    Finishes mpi.toComms (fun rank => call op (x rank) (next rank)) ↔
      Finishes mpi.toComms fun rank => next rank
        (mpi.deliver op ((List.finRange p).map x) rank) :=
  canEnd_call (fun _ h => h.stopped) hop

omit [NeZero p] in
lemma finishes_ret {z : Fin p → Outcome} :
    Finishes mpi.toComms fun rank => (ret (z rank) : Prog Call Datum Outcome) :=
  finishes_of_done fun rank => ⟨z rank, rfl⟩

/-- What the root brings to a broadcast. -/
lemma deliver_bcast_map {x : Fin p → Datum} (rank : Fin p) :
    mpi.deliver bcast ((List.finRange p).map x) rank = x 0 := by
  have hpos : 0 < p := Nat.pos_of_ne_zero (NeZero.ne p)
  rw [bcast, mpi.deliver_bcast, List.getD_eq_getElem?_getD,
    List.getElem?_eq_getElem (by simpa using hpos), List.getElem_map, List.getElem_finRange]
  rfl

/-- The ranks other than the root, if there are any. -/
lemma exists_ne_zero (hp : p ≠ 1) : ∃ rank : Fin p, rank ≠ 0 := by
  have hpos := NeZero.ne p
  refine ⟨⟨1, by omega⟩, fun h => ?_⟩
  simpa using congrArg Fin.val h

lemma eq_zero_of_one (hp : p = 1) (rank : Fin p) : rank = 0 := by
  subst hp
  exact Subsingleton.elim _ _

/-- All ranks are in the `except` clause. -/
lemma finishes_exceptClause (e : Fin p → Error) :
    Finishes mpi.toComms (fun rank => cfg.exceptClause rank (e rank)) ↔ cfg.ClauseEnds := by
  simp only [exceptClause]
  rw [finishes_call rfl, finishes_call rfl, ClauseEnds]
  cases hcreate : cfg.createEnsembleDataset
  · exact iff_of_true finishes_ret (by simp)
  · cases hstack : cfg.stack with
    | none =>
        simp only [if_true, onRoot, ite_self]
        exact iff_of_true ((finishes_call rfl).mpr finishes_ret) (by simp)
    | some e' =>
        simp only [if_true]
        by_cases hp : p = 1
        · refine iff_of_true (finishes_of_done fun rank => ?_) (.inl hp)
          obtain rfl := eq_zero_of_one hp rank
          exact ⟨_, by simp [onRoot]; rfl⟩
        · obtain ⟨rank, hrank⟩ := exists_ne_zero hp
          refine iff_of_false ?_ (by simp [hp])
          exact not_finishes_of_left (r := rank) (q := 0) (by rw [onRoot, if_neg hrank])
            (by rw [onRoot, if_pos rfl]) (mem_group rfl 0)

/-- All ranks are about to display the times. -/
lemma finishes_displayTiming (totals : Fin p → List Datum) :
    Finishes mpi.toComms (fun rank => cfg.displayTiming rank (totals rank)) ↔
      p = 1 ∨ cfg.display = none := by
  cases hdisplay : cfg.display with
  | none =>
      simp only [displayTiming, hdisplay, onRoot, ite_self]
      exact iff_of_true finishes_ret (by simp)
  | some e =>
      by_cases hp : p = 1
      · have hall : (fun rank => cfg.displayTiming rank (totals rank)) =
            fun rank => cfg.exceptClause rank e := by
          funext rank
          rw [displayTiming, hdisplay, onRoot, if_pos (eq_zero_of_one hp rank)]
        rw [hall, finishes_exceptClause]
        exact iff_of_true (.inl hp) (.inl hp)
      · obtain ⟨rank, hrank⟩ := exists_ne_zero hp
        have hroot : ∃ next, cfg.displayTiming 0 (totals 0) = call barrier .none next :=
          ⟨_, by rw [displayTiming, hdisplay, onRoot, if_pos rfl]; rfl⟩
        obtain ⟨next, hnext⟩ := hroot
        have hrest : cfg.displayTiming rank (totals rank) = ret (.completed (totals rank)) := by
          rw [displayTiming, hdisplay, onRoot, if_neg hrank]
        exact iff_of_false (not_finishes_of_left hnext hrest (mem_group rfl _)) (by simp [hp])

/-- All ranks broadcast the status of the reductions. -/
lemma finishes_timingStatus (ok : Fin p → Bool) (err : Fin p → String)
    (totals : Fin p → List Datum) :
    Finishes mpi.toComms
        (fun rank => cfg.timingStatus rank (ok rank) (err rank) (totals rank)) ↔
      if ok 0 then p = 1 ∨ cfg.display = none else cfg.ClauseEnds := by
  simp only [timingStatus]
  rw [finishes_call rfl, finishes_call rfl]
  simp only [deliver_bcast_map]
  cases hok : ok 0
  · simp only [Datum.truthy, Bool.not_false, if_true]
    rw [finishes_exceptClause]
    simp
  · simp only [Datum.truthy, Bool.not_true, Bool.false_eq_true, if_false, if_true]
    rw [finishes_call rfl, finishes_displayTiming]

/-- All ranks are about to make the reductions from number `i` on. -/
lemma finishes_reductions {l : List (String × Collective)} (hl : ∀ timer ∈ l, timer.2 ≠ .bcast 0)
    (i : ℕ) (totals : Fin p → List Datum) :
    Finishes mpi.toComms (fun rank => cfg.reductions rank i l (totals rank)) ↔
      cfg.ReductionsEnd i (i + l.length) := by
  induction l generalizing i totals with
  | nil =>
      simp only [reductions]
      rw [finishes_timingStatus, if_pos rfl, ReductionsEnd]
      constructor
      · intro h
        exact .inl ⟨fun j hij hj => absurd hj (by simpa using hij), h⟩
      · rintro (⟨-, h⟩ | ⟨m, him, hm, -⟩)
        · exact h
        · exact absurd hm (by simpa using him)
  | cons timer rest ih =>
      have hlen : i + (timer :: rest).length = i + 1 + rest.length := by
        rw [List.length_cons]
        omega
      have hlt : i < i + (timer :: rest).length := by omega
      by_cases hnone : ∀ rank, cfg.timing rank i = none
      · -- the reduction takes place
        have hcall : (fun rank => cfg.reductions rank i (timer :: rest) (totals rank)) =
            fun rank => call ⟨.world, timer.2⟩ (.num (cfg.time timer.1 rank)) fun total =>
              cfg.reductions rank (i + 1) rest (totals rank ++ [total]) := by
          funext rank
          rw [reductions, hnone rank]
        rw [hcall, finishes_call rfl, ih fun t ht => hl t (List.mem_cons_of_mem _ ht), hlen]
        have hstep : ∀ n, (∀ j, i + 1 ≤ j → j < n → ∀ rank, cfg.timing rank j = none) ↔
            ∀ j, i ≤ j → j < n → ∀ rank, cfg.timing rank j = none := by
          refine fun n => ⟨fun h j hj hjn => ?_, fun h j hj => h j (by omega)⟩
          rcases Nat.eq_or_lt_of_le hj with rfl | hlt
          · exact hnone
          · exact h j hlt hjn
        simp only [ReductionsEnd, hstep]
        refine or_congr_right ⟨?_, ?_⟩
        · rintro ⟨m, hm, h⟩
          exact ⟨m, by omega, h⟩
        · rintro ⟨m, hm, h⟩
          refine ⟨m, ?_, h⟩
          rcases Nat.eq_or_lt_of_le hm with rfl | hlt
          · exact absurd (hnone 0) (h.2.2.1 0)
          · exact hlt
      · by_cases hsome : ∀ rank, cfg.timing rank i ≠ none
        · -- all ranks raise before it
          choose e he using fun rank => Option.ne_none_iff_exists'.mp (hsome rank)
          have hcall : (fun rank => cfg.reductions rank i (timer :: rest) (totals rank)) =
              fun rank => cfg.timingStatus rank false (e rank).format (totals rank) := by
            funext rank
            rw [reductions, he rank]
          rw [hcall, finishes_timingStatus, if_neg (by simp)]
          constructor
          · exact fun h => .inr ⟨i, le_rfl, hlt, fun j hj hji => by omega, hsome, h⟩
          · rintro (⟨h, -⟩ | ⟨m, him, hm, h, -, hends⟩)
            · exact absurd (h i le_rfl hlt 0) (hsome 0)
            · exact hends
        · -- some wait in the reduction, the others in the broadcast
          obtain ⟨q, hq⟩ := not_forall.mp hnone
          obtain ⟨r, hr⟩ := not_forall_not.mp hsome
          obtain ⟨e, he⟩ := Option.ne_none_iff_exists'.mp hq
          have hrcall : ∃ next, cfg.reductions r i (timer :: rest) (totals r) =
              call ⟨.world, timer.2⟩ (.num (cfg.time timer.1 r)) next := ⟨_, by
            rw [reductions, hr]⟩
          have hqcall : ∃ next, cfg.reductions q i (timer :: rest) (totals q) =
              call bcast (.bool false) next := ⟨_, by rw [reductions, he]; rfl⟩
          obtain ⟨next, hnext⟩ := hrcall
          obtain ⟨next', hnext'⟩ := hqcall
          have hne : (⟨.world, timer.2⟩ : Call) ≠ bcast := by
            intro h
            exact hl timer List.mem_cons_self (congrArg Call.collective h)
          refine iff_of_false
            (not_finishes_of_crossed hne hnext hnext' (mem_group rfl q) (mem_group rfl r)) ?_
          rintro (⟨h, -⟩ | ⟨m, him, hm, h, hall, -⟩)
          · exact hq (h i le_rfl hlt q)
          · rcases Nat.eq_or_lt_of_le him with rfl | hlt
            · exact hall r hr
            · exact hq (h i le_rfl hlt q)

/-- The condition on what is raised after the time loop. -/
def Ends (cfg : Ending p) : Prop :=
  if cfg.saveArrays = none then
    if cfg.finalize = none then cfg.ReductionsEnd 0 timers.length else cfg.ClauseEnds
  else p = 1

/-- All ranks are about to finalize. -/
lemma finishes_collectiveFinalize :
    Finishes mpi.toComms (fun rank => cfg.collectiveFinalize rank) ↔
      if cfg.finalize = none then cfg.ReductionsEnd 0 timers.length else cfg.ClauseEnds := by
  simp only [collectiveFinalize]
  rw [finishes_call rfl, finishes_call rfl]
  simp only [deliver_bcast_map, onRoot, if_pos]
  cases hfinalize : cfg.finalize with
  | none =>
      simp only [Option.isNone_none, Datum.truthy, Bool.not_true, Bool.false_eq_true, if_false,
        if_true]
      rw [finishes_call rfl, finishes_reductions (by decide), Nat.zero_add]
  | some e =>
      simp only [Option.isNone_some, Datum.truthy, Bool.not_false, if_true]
      rw [finishes_exceptClause, if_neg (by simp)]

/-- All ranks have left the time loop. -/
lemma finishes_afterLoop (mpi : MpiComms p) :
    Finishes mpi.toComms (fun rank => cfg.afterLoop rank) ↔ cfg.Ends := by
  simp only [afterLoop]
  rw [finishes_call rfl, finishes_call rfl, Ends]
  cases hsave : cfg.saveArrays with
  | none =>
      simp only [onRoot, ite_self, if_true]
      exact finishes_collectiveFinalize
  | some e =>
      rw [if_neg (by simp)]
      by_cases hp : p = 1
      · have hall : (fun rank => match onRoot rank (some e) with
            | some e => cfg.exceptClause rank e
            | none => cfg.collectiveFinalize rank) = fun rank => cfg.exceptClause rank e := by
          funext rank
          rw [onRoot, if_pos (eq_zero_of_one hp rank)]
        rw [hall, finishes_exceptClause]
        exact iff_of_true (.inl hp) hp
      · -- the root is in the clause, the others wait for its broadcast
        obtain ⟨rank, hrank⟩ := exists_ne_zero hp
        refine iff_of_false ?_ hp
        exact not_finishes_of_crossed (a := barrier) (b := bcast) (r := 0) (q := rank) (by decide)
          (by rw [onRoot, if_pos rfl]; rfl) (by rw [onRoot, if_neg hrank]; rfl)
          (mem_group rfl rank) (mem_group rfl 0)

/-- **After the time loop**, for any number of ranks: every run can be continued until all
ranks have come to an end, exactly under the condition. Otherwise some rank waits for ever. -/
theorem afterLoop_iff (mpi : MpiComms p) (cfg : Ending p) :
    Machine.AlwaysEnds (fire mpi.toComms) Done (fun rank => cfg.afterLoop rank) ↔
      cfg.Ends := by
  rw [← finishes_iff, finishes_afterLoop]

/-- One minute on the first of two ranks and two on the other, and nothing is raised. -/
def quiet : Ending 2 where
  createEnsembleDataset := true
  time _ rank := 60 * (rank.val + 1)
  saveArrays := none
  finalize := none
  timing _ _ := none
  display := none
  stack := none

lemma quiet_ends : quiet.Ends := .inl ⟨fun _ _ _ _ => rfl, .inr rfl⟩

/-- Two ranks that raise nothing come to an end. -/
theorem afterLoop_quiet : Machine.AlwaysEnds (fire (eachAlone 2).toComms) Done
    (fun rank => quiet.afterLoop rank) :=
  (afterLoop_iff (eachAlone 2) quiet).mpr quiet_ends

/-- All of the two ranks, or none. -/
theorem completed_or_not_quiet : ∃ ops t,
    Machine.run (fire (eachAlone 2).toComms)
      (fun rank => quiet.driver rank fun _ => ret (.ok ())) ops = some t ∧
    ((∀ rank, ∃ totals, t rank = ret (.completed totals)) ∨
      ∀ rank totals, t rank ≠ ret (.completed totals)) := by
  obtain ⟨ops, t, hrun, hdone⟩ := (finishes_afterLoop (eachAlone 2)).mpr quiet_ends
  exact ⟨ops, t, hrun, completed_or_not (eachAlone 2) quiet (fun _ => ret (.ok ())) hrun hdone⟩

/-- The `except` clause passes the name `"_modelrun_datasets"`, not the directory, so its
`finalize_stack` raises on the root where there is no such directory. Then a failed
finalization leaves the other ranks waiting. -/
example (e e' : Error) :
    ¬ { quiet with finalize := some e, stack := some e' }.Ends := by
  simp [Ends, ClauseEnds, quiet]

/-! ### The times -/

/-- What the ranks get from a reduction. -/
def total (cfg : Ending p) (timer : String × Collective) : Datum :=
  .num (if timer.2 = .allreduceSum then ((List.finRange p).map (cfg.time timer.1)).sum
    else maximum ((List.finRange p).map (cfg.time timer.1)))

omit [NeZero p] in
/-- A reduction of the list delivers the total to all ranks. -/
lemma deliver_timer {timer : String × Collective} (ht : timer ∈ timers) (rank : Fin p) :
    mpi.deliver ⟨.world, timer.2⟩
      ((List.finRange p).map fun r => .num (cfg.time timer.1 r)) rank = cfg.total timer := by
  have hvalues : ((List.finRange p).map fun r => Datum.num (cfg.time timer.1 r)).map Datum.value =
      (List.finRange p).map (cfg.time timer.1) := by
    rw [List.map_map]
    rfl
  have hkind : ∀ timer ∈ timers, timer.2 = .allreduceSum ∨ timer.2 = .allreduceMax := by decide
  rcases hkind timer ht with hsum | hmax
  · rw [hsum, mpi.deliver_sum, hvalues, total, if_pos hsum]
  · rw [hmax, mpi.deliver_max, hvalues, total, if_neg (by rw [hmax]; decide)]

/-- Without exceptions the remaining reductions add their totals. -/
lemma canEnd_reductions {final : State (Fin p) Call Datum Outcome → Prop}
    (hfinal : ∀ t, final t → Machine.Stopped (fire mpi.toComms) t)
    (htiming : ∀ rank i, cfg.timing rank i = none)
    (hdisplay : cfg.display = none) {l : List (String × Collective)} (hl : l ⊆ timers) (i : ℕ)
    (totals : List Datum) :
    Machine.CanEnd (fire mpi.toComms) final (fun rank => cfg.reductions rank i l totals) ↔
      Machine.CanEnd (fire mpi.toComms) final
        fun _ => ret (.completed (totals ++ l.map cfg.total)) := by
  induction l generalizing i totals with
  | nil =>
      simp only [reductions, timingStatus]
      rw [canEnd_call hfinal rfl, canEnd_call hfinal rfl]
      simp only [deliver_bcast_map, Datum.truthy, Bool.not_true, Bool.false_eq_true, if_false]
      rw [canEnd_call hfinal rfl]
      simp [displayTiming, hdisplay, onRoot]
  | cons timer rest ih =>
      have htimer : timer ∈ timers := hl List.mem_cons_self
      simp only [reductions, htiming]
      rw [canEnd_call hfinal rfl]
      simp only [deliver_timer htimer]
      rw [ih fun t ht => hl (List.mem_cons_of_mem _ ht)]
      simp

/-- **The times**: if nothing is raised after the time loop then in every interleaving all
ranks come to the end with the same totals, the sum of the elapsed times and the maxima. -/
theorem completed_totals (mpi : MpiComms p) (cfg : Ending p) (hsave : cfg.saveArrays = none)
    (hfinalize : cfg.finalize = none) (htiming : ∀ rank i, cfg.timing rank i = none)
    (hdisplay : cfg.display = none) :
    EndsWith mpi.toComms (fun _ => .completed (timers.map cfg.total))
      (fun rank => cfg.afterLoop rank) := by
  rw [endsWith_iff]
  simp only [afterLoop]
  -- the barrier and the arrays
  rw [canEnd_call stopped_ret rfl, canEnd_call stopped_ret rfl]
  simp only [hsave, hfinalize, onRoot, ite_self, collectiveFinalize]
  -- the finalization has gone through
  rw [canEnd_call stopped_ret rfl, canEnd_call stopped_ret rfl]
  simp only [deliver_bcast_map, Option.isNone_none, Datum.truthy, Bool.not_true,
    Bool.false_eq_true, if_false]
  rw [canEnd_call stopped_ret rfl,
    canEnd_reductions stopped_ret htiming hdisplay (List.Subset.refl _)]
  exact Machine.canEnd_of_final rfl

/-- Two ranks with one and two minutes, for all timers. -/
theorem completed_totals_quiet : EndsWith (eachAlone 2).toComms
    (fun _ => .completed (timers.map quiet.total)) (fun rank => quiet.afterLoop rank) :=
  completed_totals (eachAlone 2) quiet rfl rfl (fun _ _ => rfl) rfl

end Ending

end Icesee.CollectiveEnd
