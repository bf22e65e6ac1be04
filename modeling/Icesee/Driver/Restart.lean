import Icesee.Driver.Timeline
import Icesee.Lib.Keyed
import Icesee.Lib.Machine

/-!
The full-parallel driver over any number of launches, with `restart_enabled` and without
`force_fresh_start`.

What outlives an interruption is the checkpoint and the data directory. A launch loads
the checkpoint, constructs the I/O handler (which removes `{prefix}_*.h5` and creates
batch `0`), decides `k_start`, tests `init_ok`, and runs the loop; it can be killed
between any two accesses of a rank to its window of a column, or raise an exception
inside the `try`, whose handler writes a checkpoint of its own. `step` is one action of
this machine, `perform_spec` says what an access does to the step files.

What the model computes is left open: the data of an access belong to the action. The
file of the means, which none of the tests looks at, and `truncate_after_k_start`, which
is off by default, are left out.
-/

namespace Icesee

open Handler

variable {β : Type}

/-! ### Settings -/

/-- The settings of a run with checkpoints. -/
structure RestartConfig extends FullConfig where
  obs : ObsIndex
  checkpointEvery : ℕ
  enforceContiguousHistory : Bool
  checkpointEvery_pos : 0 < checkpointEvery
  filePrefix_eq : filePrefix = "icesee_enkf".toList

/-- The access of one rank to its window `[lo, hi)` of column `j` at time `t`. -/
structure Access where
  write : Bool
  lo : ℕ
  hi : ℕ
  t : ℕ
  j : ℕ
  deriving DecidableEq, Repr

namespace RestartConfig

variable (cfg : RestartConfig)

/-- All ranks read or write their windows of a column. -/
def columnAccesses (rows : Rows) (write : Bool) (t j : ℕ) : List Access :=
  (List.range (cfg.ranks rows)).map fun rank =>
    let window := partition1d cfg.nd (cfg.ranks rows) rank
    ⟨write, window.1, window.2, t, j⟩

/-- The accesses of `ensemble_initialization_full_parallel_run`. -/
def initAccesses : List Access :=
  (List.range cfg.world.rounds).flatMap fun round =>
    (cfg.world.roundMembers round).flatMap (cfg.columnAccesses .comm true 0)

/-- The accesses of `compute_analysis_update`: the ensemble is read for `X5`, read again
for `all_states`, and written. -/
def analysisAccesses (k : ℕ) : List Access :=
  [false, false, true].flatMap fun write =>
    (List.range cfg.nens).flatMap (cfg.columnAccesses .world write (cfg.targetSlice k))

/-- The accesses of step `k`. -/
def stepAccesses (k km : ℕ) : List Access :=
  ((List.range cfg.world.rounds).flatMap fun round =>
    (cfg.world.roundMembers round).flatMap (cfg.columnAccesses .comm false k) ++
    (cfg.world.roundMembers round).flatMap (cfg.columnAccesses .comm true (cfg.targetSlice k))) ++
  if cfg.obs.due km k ∧ cfg.filter = .EnKF then cfg.analysisAccesses k else []

/-! ### The decisions of a launch -/

/-- `k_start` before the clamp: the override, the step after the checkpoint, or the step
after `_last_completed_step`. -/
def requestedStart (ck override : Option ℤ) (dir : Directory β) : Except String ℤ :=
  match override, ck with
  | some k, _ =>
      if 0 ≤ k ∧ k ≤ cfg.nt then .ok k
      else .error ("k_start_override=" ++ toString k ++ " out of range [0, " ++
        toString cfg.nt ++ "]")
  | none, some lastDoneK => .ok (lastDoneK + 1)
  | none, none => do
      match ← dir.lastCompletedStep with
      | some lastK => return (lastK : ℤ) + 1
      | none => return 0

/-- `k_start`, with the check of the history. -/
def kStart (ck override : Option ℤ) (dir : Directory β) : Except String ℕ := do
  let k := (min (max 0 (← cfg.requestedStart ck override dir)) cfg.nt).toNat
  let missing := (List.range k).filter fun kk => !dir.stepAlreadyDone kk
  if cfg.enforceContiguousHistory ∧ missing ≠ [] then
    .error ("Cannot start at k=" ++ toString k ++ ": missing completed steps " ++
      toString (missing.take 10) ++ (if 10 < missing.length then " ..." else "") ++
      ". Either lower k_start_override or disable enforce_contiguous_history.")
  else return k

/-- A launch that starts at all starts at the clamped request. -/
lemma kStart_ok {ck override : Option ℤ} {dir : Directory β} {k : ℕ}
    (h : cfg.kStart ck override dir = .ok k) :
    ∃ r, cfg.requestedStart ck override dir = .ok r ∧ k = (min (max 0 r) cfg.nt).toNat := by
  obtain ⟨r, hreq, hret⟩ := Keyed.bind_eq_ok.mp h
  dsimp only at hret
  split at hret
  · cases hret
  · exact ⟨r, hreq, (Except.ok.inj hret).symm⟩

/-- `init_ok`: `icesee_enkf_ens_0000.h5` has a dataset `states` of the right shape. -/
def initOk (dir : Directory β) : Bool :=
  (dir.lookup "icesee_enkf_ens_0000.h5".toList).any fun f =>
    f.dset = .states ∧ f.shape = (cfg.nd, cfg.nens)

end RestartConfig

/-! ### The machine -/

/-- Where a launch is. The value loaded from the checkpoint is kept until `k_start` is
decided, and the accesses of a step until they are made. -/
inductive Position where
  | down
  | launched (ck : Option ℤ)
  | cleaned (ck : Option ℤ)
  | constructed (ck : Option ℤ)
  | decided (k km : ℕ)
  | initializing (k km : ℕ) (todo : List Access)
  | loop (k km : ℕ)
  | executing (k km : ℕ) (todo : List Access)
  | completed (k km : ℕ)
  | finished
  deriving DecidableEq, Repr

namespace Position

/-- The accesses that are still to be made. -/
def todo : Position → List Access
  | initializing _ _ todo | executing _ _ todo => todo
  | _ => []

/-- The next access, and the position after it. -/
def next : Position → Option (Access × Position)
  | initializing k km (a :: todo) => some (a, initializing k km todo)
  | executing k km (a :: todo) => some (a, executing k km todo)
  | _ => none

/-- The launch is inside the `try`, with a handler. -/
def inTry : Position → Bool
  | down | launched _ | cleaned _ | finished => false
  | _ => true

/-- Making an access leaves the rest of the list, in the same step. -/
lemma next_spec {p q : Position} {a : Access} (h : p.next = some (a, q)) :
    p.todo = a :: q.todo ∧ p.inTry ∧
      ∀ k km todo, q = executing k km todo → p = executing k km (a :: todo) := by
  unfold next at h
  split at h <;> cases h
  · exact ⟨rfl, rfl, by simp⟩
  · refine ⟨rfl, rfl, fun k km todo hq => ?_⟩
    obtain ⟨rfl, rfl, rfl⟩ := executing.inj hq
    rfl

end Position

/-- The entries of a step file, by row and member. -/
abbrev Slice (β : Type) := ℕ → ℕ → Option β

/-- The checkpoint (its `last_done_k`), the handler with the directory, the position, and
the `k` of `model_kwargs`. The rest is for the statements: what the completed steps and the
initialization have left in a slice, and what this launch has done. -/
structure DriverState (β : Type) where
  ckpt : Option ℤ
  handler : Handler β
  pos : Position
  curK : Option ℕ
  left : ℕ → Option (Slice β)
  executed : List ℕ
  initialized : Bool

/-- What can happen next. A checkpoint may fail to be saved, in the loop as well as after
an exception. -/
inductive Action (β : Type) where
  | launch
  | cleanup
  | createBatch
  | decide (override : Option ℤ)
  | initOk
  | access (data : ℕ → β)
  | complete
  | iterate
  | checkpoint (saved : Bool)
  | exception (saved : Bool)
  | kill

/-- Nothing has run yet. -/
def DriverState.start (dir : Directory β) : DriverState β where
  ckpt := none
  handler := ⟨dir, [], -1⟩
  pos := .down
  curK := none
  left _ := none
  executed := []
  initialized := false

/-- The checkpoint declares slice `t` done. -/
def DriverState.declares (s : DriverState β) (t : ℕ) : Bool := s.ckpt.any fun k => (t : ℤ) ≤ k

namespace RestartConfig

variable (cfg : RestartConfig) [Zero β]

/-- A rank makes its access. -/
def perform (a : Access) (data : ℕ → β) (h : Handler β) : Option (Handler β) :=
  if a.write then writeRows cfg.toIOConfig a.lo a.hi a.t data a.j h
  else (readRows cfg.toIOConfig a.lo a.t a.j h).map Prod.fst

/-- An access that writes to a slice the checkpoint does not declare done gives up what an
earlier step left there. -/
def leftAfter (s : DriverState β) (a : Access) : ℕ → Option (Slice β) :=
  if a.write && !s.declares a.t then Function.update s.left a.t none else s.left

/-- The slice of time `t` is left as it is. -/
def leave (s : DriverState β) (t : ℕ) : ℕ → Option (Slice β) :=
  Function.update s.left t (some (cell cfg.toIOConfig s.handler t))

/-- What an iteration of the loop begins with. -/
def iterate (s : DriverState β) (k km : ℕ) : DriverState β :=
  if cfg.nt ≤ k then { s with pos := .finished }
  else if s.handler.dir.stepAlreadyDone k then
    { s with pos := .loop (k + 1) (if cfg.obs.due km (k + 1) then km + 1 else km) }
  else { s with pos := .executing k km (cfg.stepAccesses k km), curK := some k }

/-- `k % checkpoint_every == 0 or k == nt - 1`. -/
def savesAt (k : ℕ) : Bool := k % cfg.checkpointEvery = 0 ∨ k = cfg.nt - 1

/-- One action of the machine; `none` if it cannot happen here. -/
def step (s : DriverState β) : Action β → Option (DriverState β)
  | .launch => match s.pos with
      | .down | .finished => some { s with
          pos := .launched s.ckpt, curK := none, executed := [], initialized := false }
      | _ => none
  | .cleanup => match s.pos with
      | .launched ck => some { s with
          pos := .cleaned ck, handler := removeOld cfg.toIOConfig s.handler.dir }
      | _ => none
  | .createBatch => match s.pos with
      | .cleaned ck => some { s with
          pos := .constructed ck, handler := createBatch cfg.toIOConfig 0 s.handler }
      | _ => none
  | .decide override => match s.pos with
      | .constructed ck => match cfg.kStart ck override s.handler.dir with
          | .ok k => some { s with
              pos := .decided k (computeKmFromTobserve cfg.obs.times k (some cfg.obs.mObs)) }
          | .error _ => some { s with pos := .down }
      | _ => none
  | .initOk => match s.pos with
      | .decided k km => some { s with
          pos := if cfg.initOk s.handler.dir then .loop k km
            else .initializing k km cfg.initAccesses }
      | _ => none
  | .access data => do
      let (a, pos) ← s.pos.next
      let h ← cfg.perform a data s.handler
      return { s with pos, handler := h, left := leftAfter s a }
  | .complete => match s.pos with
      | .initializing k km [] => some { s with
          pos := .loop k km, left := cfg.leave s 0, initialized := true }
      | .executing k km [] => some { s with
          pos := .completed k (if cfg.obs.due km k then km + 1 else km)
          left := cfg.leave s (cfg.targetSlice k)
          executed := s.executed ++ [k] }
      | _ => none
  | .iterate => match s.pos with
      | .loop k km => some (cfg.iterate s k km)
      | _ => none
  | .checkpoint saved => match s.pos with
      | .completed k km => some { s with
          pos := .loop (k + 1) km
          ckpt := if cfg.savesAt k && saved then some k else s.ckpt }
      | _ => none
  | .exception saved =>
      if s.pos.inTry then some { s with
        pos := .down
        ckpt := if saved then (s.curK.map fun k => max ((k : ℤ) - 1) (-1)).orElse fun _ => s.ckpt
          else s.ckpt }
      else none
  | .kill => match s.pos with
      | .down | .finished => none
      | _ => some { s with pos := .down }

/-! ### What an access does -/

omit [Zero β]

/-- An access stays inside the ensemble. -/
def InEnsemble (a : Access) : Prop := a.t < cfg.nt ∧ a.j < cfg.nens

variable {cfg}

lemma inEnsemble_columnAccesses {rows : Rows} {write : Bool} {t j : ℕ} (ht : t < cfg.nt)
    (hj : j < cfg.nens) : ∀ a ∈ cfg.columnAccesses rows write t j, cfg.InEnsemble a := by
  intro a ha
  obtain ⟨rank, -, rfl⟩ := List.mem_map.mp ha
  exact ⟨ht, hj⟩

/-- The accesses of a list of members. -/
lemma inEnsemble_members {rows : Rows} {write : Bool} {t : ℕ} {ids : List ℕ} (ht : t < cfg.nt)
    (hids : ∀ j ∈ ids, j < cfg.nens) :
    ∀ a ∈ ids.flatMap (cfg.columnAccesses rows write t), cfg.InEnsemble a := by
  intro a ha
  obtain ⟨j, hj, haj⟩ := List.mem_flatMap.mp ha
  exact inEnsemble_columnAccesses ht (hids j hj) a haj

lemma inEnsemble_initAccesses : ∀ a ∈ cfg.initAccesses, cfg.InEnsemble a := by
  intro a ha
  obtain ⟨round, -, har⟩ := List.mem_flatMap.mp ha
  exact inEnsemble_members cfg.nt_pos (fun j hj => (cfg.world.mem_roundMembers.mp hj).2) a har

lemma inEnsemble_stepAccesses {k : ℕ} (hk : k < cfg.nt) (km : ℕ) :
    ∀ a ∈ cfg.stepAccesses k km, cfg.InEnsemble a := by
  have hround : ∀ round, ∀ j ∈ cfg.world.roundMembers round, j < cfg.nens :=
    fun round j hj => (cfg.world.mem_roundMembers.mp hj).2
  intro a ha
  rcases List.mem_append.mp ha with hf | han
  · obtain ⟨round, -, har⟩ := List.mem_flatMap.mp hf
    rcases List.mem_append.mp har with hr | hw
    · exact inEnsemble_members hk (hround round) a hr
    · exact inEnsemble_members (cfg.targetSlice_lt hk) (hround round) a hw
  · split at han
    · obtain ⟨write, -, haw⟩ := List.mem_flatMap.mp han
      exact inEnsemble_members (cfg.targetSlice_lt hk) (fun j hj => List.mem_range.mp hj) a haw
    · simp at han

/-! ### What holds in every run -/

/-- Inside the `try` a batch is open, and the accesses to come stay inside the ensemble. -/
structure WellPlaced (cfg : RestartConfig) (s : DriverState β) : Prop where
  isOpen : s.pos.inTry → ∃ b, IsOpen cfg.toIOConfig b s.handler
  inEnsemble : ∀ a ∈ s.pos.todo, cfg.InEnsemble a
  step_lt : ∀ k km todo, s.pos = .executing k km todo → k < cfg.nt

/-- A position with no access to come and no step under way needs an open batch only. -/
lemma wellPlaced_of_idle {s : DriverState β}
    (ho : s.pos.inTry → ∃ b, IsOpen cfg.toIOConfig b s.handler) (ht : s.pos.todo = [])
    (hp : ∀ k km todo, s.pos ≠ .executing k km todo) : WellPlaced cfg s where
  isOpen := ho
  inEnsemble a ha := by simp [ht] at ha
  step_lt k km todo h := absurd h (hp k km todo)

lemma wellPlaced_start (dir : Directory β) : WellPlaced cfg (.start dir) :=
  wellPlaced_of_idle (by simp [DriverState.start, Position.inTry]) rfl
    (by simp [DriverState.start])

lemma wellPlaced_iterate {s : DriverState β} {k km : ℕ}
    (ho : ∃ b, IsOpen cfg.toIOConfig b s.handler) : WellPlaced cfg (cfg.iterate s k km) := by
  rw [iterate]
  split
  · exact wellPlaced_of_idle (by simp [Position.inTry]) rfl (by simp)
  · next hk =>
    split
    · exact wellPlaced_of_idle (fun _ => ho) rfl (by simp)
    · refine ⟨fun _ => ho, inEnsemble_stepAccesses (not_le.mp hk) km, fun k' km' todo h => ?_⟩
      obtain ⟨rfl, -, -⟩ := Position.executing.inj h
      exact not_le.mp hk

variable [Zero β]

/-- **An access** opens the batch of its time and leaves all slices but the one it writes
to as the switch of the batch left them. -/
lemma perform_spec {a : Access} {b : ℕ} {h h' : Handler β} {data : ℕ → β}
    (ho : IsOpen cfg.toIOConfig b h) (ha : cfg.InEnsemble a)
    (hp : cfg.perform a data h = some h') :
    IsOpen cfg.toIOConfig (cfg.batchStart a.t) h' ∧
      ∀ t, (a.write → t ≠ a.t) →
        cell cfg.toIOConfig h' t = cell cfg.toIOConfig (ensureBatch cfg.toIOConfig a.t h) t := by
  rw [perform] at hp
  split at hp
  · next hw =>
    obtain ⟨h₁, hwrite, ho₁, hcell₁, -⟩ := writeRows_spec ho ha.1 ha.2 a.lo a.hi data
    obtain rfl := Option.some.inj (hwrite.symm.trans hp)
    refine ⟨ho₁, fun t ht => ?_⟩
    funext i j
    rw [hcell₁, if_neg fun hc => ht hw hc.1]
  · rw [readRows_spec ho ha.1 ha.2] at hp
    obtain rfl := Option.some.inj hp
    exact ⟨ensureBatch_isOpen ho a.t, fun t _ => rfl⟩

/-! ### What an action does

For each action, where it can happen and what it leaves. -/

variable {s s' : DriverState β}

lemma step_launch (h : cfg.step s .launch = some s') :
    (s.pos = .down ∨ s.pos = .finished) ∧ s' = { s with
      pos := .launched s.ckpt, curK := none, executed := [], initialized := false } := by
  simp only [step] at h
  split at h <;> cases h
  · exact ⟨Or.inl ‹_›, rfl⟩
  · exact ⟨Or.inr ‹_›, rfl⟩

lemma step_cleanup (h : cfg.step s .cleanup = some s') : ∃ ck, s.pos = .launched ck ∧
    s' = { s with pos := .cleaned ck, handler := removeOld cfg.toIOConfig s.handler.dir } := by
  simp only [step] at h
  split at h <;> cases h
  exact ⟨_, ‹_›, rfl⟩

lemma step_createBatch (h : cfg.step s .createBatch = some s') : ∃ ck, s.pos = .cleaned ck ∧
    s' = { s with pos := .constructed ck, handler := createBatch cfg.toIOConfig 0 s.handler } := by
  simp only [step] at h
  split at h <;> cases h
  exact ⟨_, ‹_›, rfl⟩

lemma step_decide {override : Option ℤ} (h : cfg.step s (.decide override) = some s') :
    ∃ ck, s.pos = .constructed ck ∧
      ((∃ k km, cfg.kStart ck override s.handler.dir = .ok k ∧
        s' = { s with pos := .decided k km }) ∨ s' = { s with pos := .down }) := by
  simp only [step] at h
  split at h
  · next ck hpos =>
    refine ⟨ck, hpos, ?_⟩
    split at h <;> cases h
    · exact Or.inl ⟨_, _, ‹_›, rfl⟩
    · exact Or.inr rfl
  · cases h

lemma step_initOk (h : cfg.step s .initOk = some s') : ∃ k km, s.pos = .decided k km ∧
    s' = { s with pos := if cfg.initOk s.handler.dir then .loop k km
      else .initializing k km cfg.initAccesses } := by
  simp only [step] at h
  split at h <;> cases h
  exact ⟨_, _, ‹_›, rfl⟩

lemma step_access {data : ℕ → β} (h : cfg.step s (.access data) = some s') :
    ∃ a pos h', s.pos.next = some (a, pos) ∧ cfg.perform a data s.handler = some h' ∧
      s' = { s with pos, handler := h', left := leftAfter s a } := by
  obtain ⟨⟨a, pos⟩, hnext, hrest⟩ := Option.bind_eq_some_iff.mp h
  obtain ⟨h', hp, hs'⟩ := Option.bind_eq_some_iff.mp hrest
  exact ⟨a, pos, h', hnext, hp, (Option.some.inj hs').symm⟩

lemma step_complete (h : cfg.step s .complete = some s') : ∃ k km,
    (s.pos = .initializing k km [] ∧
      s' = { s with pos := .loop k km, left := cfg.leave s 0, initialized := true }) ∨
    (s.pos = .executing k km [] ∧
      s' = { s with
        pos := .completed k (if cfg.obs.due km k then km + 1 else km)
        left := cfg.leave s (cfg.targetSlice k)
        executed := s.executed ++ [k] }) := by
  simp only [step] at h
  split at h <;> cases h
  · exact ⟨_, _, Or.inl ⟨‹_›, rfl⟩⟩
  · exact ⟨_, _, Or.inr ⟨‹_›, rfl⟩⟩

lemma step_iterate (h : cfg.step s .iterate = some s') :
    ∃ k km, s.pos = .loop k km ∧ s' = cfg.iterate s k km := by
  simp only [step] at h
  split at h <;> cases h
  exact ⟨_, _, ‹_›, rfl⟩

lemma step_checkpoint {saved : Bool} (h : cfg.step s (.checkpoint saved) = some s') :
    ∃ k km, s.pos = .completed k km ∧ s' = { s with
      pos := .loop (k + 1) km, ckpt := if cfg.savesAt k && saved then some k else s.ckpt } := by
  simp only [step] at h
  split at h <;> cases h
  exact ⟨_, _, ‹_›, rfl⟩

lemma step_exception {saved : Bool} (h : cfg.step s (.exception saved) = some s') :
    s.pos.inTry ∧ s' = { s with
      pos := .down
      ckpt := if saved then (s.curK.map fun k => max ((k : ℤ) - 1) (-1)).orElse fun _ => s.ckpt
        else s.ckpt } := by
  simp only [step] at h
  split at h <;> cases h
  exact ⟨‹_›, rfl⟩

lemma step_kill (h : cfg.step s .kill = some s') :
    s.pos ≠ .down ∧ s.pos ≠ .finished ∧ s' = { s with pos := .down } := by
  simp only [step] at h
  split at h <;> cases h
  exact ⟨‹_›, ‹_›, rfl⟩

/-- Every step keeps the launch well placed. -/
lemma wellPlaced_step {a : Action β} (hs : WellPlaced cfg s) (h : cfg.step s a = some s') :
    WellPlaced cfg s' := by
  -- only `access` looks at what is to be done; the other steps open files or leave them open
  cases a with
  | launch =>
      obtain ⟨-, rfl⟩ := step_launch h
      exact wellPlaced_of_idle (by simp [Position.inTry]) rfl (by simp)
  | cleanup =>
      obtain ⟨ck, -, rfl⟩ := step_cleanup h
      exact wellPlaced_of_idle (by simp [Position.inTry]) rfl (by simp)
  | createBatch =>
      obtain ⟨ck, -, rfl⟩ := step_createBatch h
      exact wellPlaced_of_idle (fun _ => ⟨0, createBatch_isOpen 0 _⟩) rfl (by simp)
  | decide override =>
      obtain ⟨ck, hpos, ⟨k, km, -, rfl⟩ | rfl⟩ := step_decide h
      · exact wellPlaced_of_idle (fun _ => hs.isOpen (by rw [hpos]; rfl)) rfl (by simp)
      · exact wellPlaced_of_idle (by simp [Position.inTry]) rfl (by simp)
  | initOk =>
      obtain ⟨k, km, hpos, rfl⟩ := step_initOk h
      have ho := hs.isOpen (by rw [hpos]; rfl)
      cases cfg.initOk s.handler.dir
      · exact ⟨fun _ => ho, inEnsemble_initAccesses, by simp⟩
      · exact wellPlaced_of_idle (fun _ => ho) rfl (by simp)
  | access data =>
      obtain ⟨a, pos, h', hnext, hp, rfl⟩ := step_access h
      obtain ⟨htodo, htry, hexec⟩ := Position.next_spec hnext
      obtain ⟨b, ho⟩ := hs.isOpen htry
      have ha : cfg.InEnsemble a := hs.inEnsemble a (by rw [htodo]; simp)
      refine ⟨fun _ => ⟨_, (perform_spec ho ha hp).1⟩, fun a' ha' => ?_, fun k km todo hpos => ?_⟩
      · exact hs.inEnsemble a' (by rw [htodo]; exact List.mem_cons_of_mem _ ha')
      · exact hs.step_lt k km _ (hexec k km todo hpos)
  | complete =>
      obtain ⟨k, km, ⟨hpos, rfl⟩ | ⟨hpos, rfl⟩⟩ := step_complete h <;>
        exact wellPlaced_of_idle (fun _ => hs.isOpen (by rw [hpos]; rfl)) rfl (by simp)
  | iterate =>
      obtain ⟨k, km, hpos, rfl⟩ := step_iterate h
      exact wellPlaced_iterate (hs.isOpen (by rw [hpos]; rfl))
  | checkpoint saved =>
      obtain ⟨k, km, hpos, rfl⟩ := step_checkpoint h
      exact wellPlaced_of_idle (fun _ => hs.isOpen (by rw [hpos]; rfl)) rfl (by simp)
  | exception saved =>
      obtain ⟨-, rfl⟩ := step_exception h
      exact wellPlaced_of_idle (by simp [Position.inTry]) rfl (by simp)
  | kill =>
      obtain ⟨-, -, rfl⟩ := step_kill h
      exact wellPlaced_of_idle (by simp [Position.inTry]) rfl (by simp)

end RestartConfig

end Icesee
