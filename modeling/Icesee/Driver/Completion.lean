import Icesee.Driver.Restart

/-!
Completion detection.

The tests `step_already_done`, `_last_completed_step` and `init_ok` infer that a slice is
done from the name of its file and the shape of its dataset, and the constructor of the
I/O handler creates the files of batch `0`, with that shape, before any of the tests is
made. So the first launch takes the whole batch for done: it starts at
`min batch_size nt`, does not initialize the ensemble, and executes none of the steps of
the batch (`skips_step`), for all sizes (`completion_never`).
-/

namespace Icesee

open Handler Machine

variable {β : Type}

/-- The default mode of file creation. -/
structure SerialRestartConfig extends RestartConfig where
  serial : serialFileCreation = true

namespace RestartConfig

variable (cfg : RestartConfig)

/-! ### What completion detection is for -/

/-- All entries of slice `t` have been written since its file was created. -/
def Written (h : Handler β) (t : ℕ) : Prop :=
  ∀ i < cfg.nd, ∀ j < cfg.nens, (cell cfg.toIOConfig h t i j).isSome

/-- The tests answer "done" only for slices that have been written. -/
structure Sound (h : Handler β) : Prop where
  alreadyDone : ∀ k, h.dir.stepAlreadyDone k → cfg.Written h k
  lastCompleted : ∀ k, h.dir.lastCompletedStep = .ok (some k) → cfg.Written h k
  initOk : cfg.initOk h.dir → cfg.Written h 0

/-- An action of a launch that is neither interrupted nor told where to start. -/
def undisturbed : Action β → Bool
  | .launch | .kill | .exception _ | .decide (some _) => false
  | _ => true

variable (β) [Zero β]

/-- Completion detection is sound at every point of the driver. -/
def AlwaysSound : Prop :=
  ∀ (actions : List (Action β)) (s : DriverState β),
    run cfg.step (.start ∅) actions = some s → cfg.Sound s.handler

/-- A launch on an empty directory initializes the ensemble and executes every step once,
in increasing order. -/
def ExecutesAll : Prop :=
  ∃ (actions : List (Action β)) (s : DriverState β), (∀ a ∈ actions, undisturbed a) ∧
    run cfg.step (.start ∅) (.launch :: actions) = some s ∧
      s.pos = .finished ∧ s.initialized ∧ s.executed = List.range cfg.nt

end RestartConfig

namespace SerialRestartConfig

variable (cfg : SerialRestartConfig)

/-! ### The directory after the constructor -/

/-- The handler of a first launch. -/
def firstHandler : Handler β := init cfg.toIOConfig ∅

/-- The number of files that the constructor creates. -/
def firstFiles : ℕ := min cfg.batchSize cfg.nt

lemma firstFiles_pos : 0 < cfg.firstFiles := lt_min cfg.batchSize_pos cfg.nt_pos

/-- The names that the tests look for are those of the step files. -/
lemma stepFile_eq (t : ℕ) : cfg.stepFile t = serialName "icesee_enkf".toList t := by
  rw [IOConfig.stepFile, cfg.serial, cfg.filePrefix_eq, stepName, if_pos rfl]

/-- The constructor leaves the files of batch `0` on an empty directory, all blank. -/
lemma lookup_firstHandler (n : FileName) : (cfg.firstHandler : Handler β).dir.lookup n =
    if n ∈ (List.range' 0 cfg.firstFiles).map cfg.stepFile then
      some (.blank .states cfg.nd cfg.nens) else none := by
  rw [firstHandler, init, lookup_createBatch, Nat.sub_zero]
  refine if_congr Iff.rfl rfl ?_
  rw [removeOld, Directory.lookup_removeGlob]
  split <;> rfl

lemma lookup_stepFile {t : ℕ} (ht : t < cfg.firstFiles) :
    (cfg.firstHandler : Handler β).dir.lookup (cfg.stepFile t) =
      some (.blank .states cfg.nd cfg.nens) := by
  rw [lookup_firstHandler, if_pos]
  exact stepFile_mem_map.mpr ⟨Nat.zero_le t, by omega⟩

/-- No entry of a file of batch `0` has been written. -/
lemma cell_firstHandler {t : ℕ} (ht : t < cfg.firstFiles) (i j : ℕ) :
    cell cfg.toIOConfig (cfg.firstHandler : Handler β) t i j = none := by
  rw [cell, lookup_stepFile cfg ht]
  rfl

/-- Every step of batch `0` counts as done. -/
lemma stepAlreadyDone_firstHandler {t : ℕ} (ht : t < cfg.firstFiles) :
    (cfg.firstHandler : Handler β).dir.stepAlreadyDone t := by
  have hlook := lookup_stepFile (β := β) cfg ht
  rw [stepFile_eq] at hlook
  have hname : serialName "icesee_enkf".toList t =
      "icesee_enkf_ens_".toList ++ Decimal.padded 4 t ++ ".h5".toList := by simp [serialName]
  rw [hname] at hlook
  rw [Directory.stepAlreadyDone, hlook]
  rfl

/-- The last step of batch `0` counts as the last completed step. -/
lemma lastCompletedStep_firstHandler :
    (cfg.firstHandler : Handler β).dir.lastCompletedStep = .ok (some (cfg.firstFiles - 1)) := by
  have hpos := cfg.firstFiles_pos
  refine Directory.lastCompletedStep_eq (fun f hf _ => ?_) ?_
  · have hsome := AList.lookup_isSome.mpr hf
    rw [lookup_firstHandler] at hsome
    split at hsome
    · next hmem =>
      obtain ⟨t, ht, rfl⟩ := List.mem_map.mp hmem
      obtain ⟨-, hlt⟩ := List.mem_range'_1.mp ht
      exact ⟨t, by omega, cfg.stepFile_eq t⟩
    · simp at hsome
  · rw [← stepFile_eq]
    exact AList.lookup_isSome.mp (by rw [lookup_stepFile cfg (by omega)]; rfl)

/-- The ensemble counts as initialized. -/
lemma initOk_firstHandler : cfg.initOk (cfg.firstHandler : Handler β).dir := by
  have hlook := lookup_stepFile (β := β) cfg cfg.firstFiles_pos
  rw [stepFile_eq] at hlook
  have hname : serialName "icesee_enkf".toList 0 = "icesee_enkf_ens_0000.h5".toList := by decide
  rw [hname] at hlook
  rw [RestartConfig.initOk, hlook]
  simp [H5File.blank]

/-- The launch starts behind batch `0`. -/
lemma kStart_firstHandler {k : ℕ}
    (h : cfg.kStart none none (cfg.firstHandler : Handler β).dir = .ok k) :
    k = cfg.firstFiles := by
  have hpos := cfg.firstFiles_pos
  have hle : cfg.firstFiles ≤ cfg.nt := min_le_right _ _
  have hreq : cfg.requestedStart none none (cfg.firstHandler : Handler β).dir =
      .ok (cfg.firstFiles : ℤ) := by
    rw [RestartConfig.requestedStart, lastCompletedStep_firstHandler]
    change Except.ok (((cfg.firstFiles - 1 : ℕ) : ℤ) + 1) = _
    congr 1
    omega
  obtain ⟨r, hr, rfl⟩ := cfg.kStart_ok h
  obtain rfl := Except.ok.inj (hreq.symm.trans hr)
  omega

/-! ### The first launch -/

/-- Where an undisturbed first launch is. -/
def AtFirst (s : DriverState β) : Prop :=
  match s.pos with
  | .down | .finished => True
  | .launched ck => ck = none ∧ s.handler.dir = ∅
  | .cleaned ck => ck = none ∧ s.handler = removeOld cfg.toIOConfig ∅
  | .constructed ck => ck = none ∧ s.handler = cfg.firstHandler
  | .decided k _ => k = cfg.firstFiles ∧ s.handler = cfg.firstHandler
  | .initializing _ _ _ => False
  | .loop k _ | .executing k _ _ | .completed k _ => cfg.firstFiles ≤ k

/-- An undisturbed first launch has not initialized the ensemble and has executed no step
of batch `0`. -/
structure Skips (s : DriverState β) : Prop where
  at_first : cfg.AtFirst s
  initialized : s.initialized = false
  executed : ∀ k ∈ s.executed, cfg.firstFiles ≤ k

variable {cfg} [Zero β] {s s' : DriverState β}

omit [Zero β] in
/-- A move to another position, with nothing new done. -/
lemma Skips.move (h : cfg.Skips s) (hp : cfg.AtFirst s')
    (hi : s'.initialized = s.initialized) (he : s'.executed = s.executed) : cfg.Skips s' where
  at_first := hp
  initialized := hi.trans h.initialized
  executed := he ▸ h.executed

omit [Zero β] in
lemma skips_iterate (h : cfg.Skips s) {k km : ℕ} (hk : cfg.firstFiles ≤ k) :
    cfg.Skips (cfg.iterate s k km) := by
  rw [RestartConfig.iterate]
  split
  · exact h.move trivial rfl rfl
  · split
    · exact h.move (Nat.le_succ_of_le hk) rfl rfl
    · exact h.move hk rfl rfl

/-- An undisturbed step keeps it so. -/
lemma skips_step {a : Action β} (h : cfg.Skips s) (ha : RestartConfig.undisturbed a)
    (hs : cfg.step s a = some s') : cfg.Skips s' := by
  have hat := h.at_first
  rw [AtFirst] at hat
  cases a with
  -- these three are disturbances
  | launch | exception saved | kill => cases ha
  | cleanup =>
      obtain ⟨ck, hpos, rfl⟩ := RestartConfig.step_cleanup hs
      rw [hpos] at hat
      exact h.move ⟨hat.1, by rw [hat.2]⟩ rfl rfl
  | createBatch =>
      obtain ⟨ck, hpos, rfl⟩ := RestartConfig.step_createBatch hs
      rw [hpos] at hat
      exact h.move ⟨hat.1, by rw [hat.2]; rfl⟩ rfl rfl
  | decide override =>
      cases override with
      | some k => cases ha
      | none =>
          obtain ⟨ck, hpos, ⟨k, km, hk, rfl⟩ | rfl⟩ := RestartConfig.step_decide hs
          · rw [hpos] at hat
            -- the last completed step is that of the files which the constructor made
            rw [hat.1, hat.2] at hk
            exact h.move ⟨cfg.kStart_firstHandler hk, hat.2⟩ rfl rfl
          · exact h.move trivial rfl rfl
  | initOk =>
      obtain ⟨k, km, hpos, rfl⟩ := RestartConfig.step_initOk hs
      rw [hpos] at hat
      rw [hat.2, if_pos cfg.initOk_firstHandler]
      exact h.move hat.1.ge rfl rfl
  | access data =>
      obtain ⟨a, pos, h', hnext, -, rfl⟩ := RestartConfig.step_access hs
      refine h.move ?_ rfl rfl
      unfold Position.next at hnext
      split at hnext
      · -- no initialization is under way: the files say that it is complete
        next hpos => exact absurd hat (by rw [hpos]; exact id)
      · next k km a todo hpos =>
        cases hnext
        rw [hpos] at hat
        exact hat
      · cases hnext
  | complete =>
      obtain ⟨k, km, ⟨hpos, rfl⟩ | ⟨hpos, rfl⟩⟩ := RestartConfig.step_complete hs
      · exact absurd hat (by rw [hpos]; exact id)
      · rw [hpos] at hat
        refine ⟨hat, h.initialized, fun k' hk' => ?_⟩
        -- the step that is completed is one from the first on
        rcases List.mem_append.mp hk' with hold | hnew
        · exact h.executed k' hold
        · rw [List.mem_singleton.mp hnew]
          exact hat
  | iterate =>
      obtain ⟨k, km, hpos, rfl⟩ := RestartConfig.step_iterate hs
      rw [hpos] at hat
      exact skips_iterate h hat
  | checkpoint saved =>
      obtain ⟨k, km, hpos, rfl⟩ := RestartConfig.step_checkpoint hs
      rw [hpos] at hat
      exact h.move (Nat.le_succ_of_le hat) rfl rfl

/-- **An undisturbed launch on an empty directory** neither initializes the ensemble nor
executes a step of batch `0`. -/
theorem skips_run {actions : List (Action β)} (ha : ∀ a ∈ actions, RestartConfig.undisturbed a)
    (h : run cfg.step (.start ∅) (.launch :: actions) = some s) : cfg.Skips s := by
  obtain ⟨s₁, hlaunch, hrest⟩ := run_cons_eq_some.mp h
  have hguarded : Guarded cfg.step (fun _ a => RestartConfig.undisturbed a) s₁ actions :=
    guarded_of_forall ha
  obtain rfl := Option.some.inj hlaunch
  have hskips : cfg.Skips { DriverState.start (∅ : Directory β) with pos := .launched none } :=
    ⟨⟨rfl, rfl⟩, rfl, by simp [DriverState.start]⟩
  exact run_invariant cfg.Skips (fun _ _ _ => skips_step) hskips hguarded hrest

/-! ### Completion detection, exactly -/

variable (cfg)

/-- The first launch, up to the end of the constructor. -/
lemma run_constructor : ∃ s : DriverState β,
    run cfg.step (.start ∅) [.launch, .cleanup, .createBatch] = some s ∧
      s.handler = cfg.firstHandler := ⟨_, rfl, rfl⟩

/-- The tests are wrong as soon as the constructor has run: step `0` counts as done. -/
lemma not_alwaysSound : ¬ cfg.AlwaysSound β := by
  intro hsound
  obtain ⟨s, hs, hh⟩ := run_constructor (β := β) cfg
  have hwritten := (hsound _ s hs).alreadyDone 0
    (by rw [hh]; exact stepAlreadyDone_firstHandler cfg cfg.firstFiles_pos)
  have hcell := hwritten 0 cfg.nd_pos 0 cfg.nens_pos
  rw [hh, cell_firstHandler cfg cfg.firstFiles_pos] at hcell
  simp at hcell

/-- No undisturbed launch executes step `0`. -/
lemma not_executesAll : ¬ cfg.ExecutesAll β := by
  rintro ⟨actions, s, ha, hrun, -, -, hexec⟩
  have hskips := skips_run ha hrun
  have hzero : 0 ∈ s.executed := by
    rw [hexec]
    exact List.mem_range.mpr cfg.nt_pos
  have hle := hskips.executed 0 hzero
  have hpos := cfg.firstFiles_pos
  omega

/-- **Completion detection fails for all sizes**: it is not sound, and a launch on an
empty directory does not execute all steps. -/
theorem completion_never (β : Type) [Zero β] (cfg : SerialRestartConfig) :
    ¬ cfg.AlwaysSound β ∧ ¬ cfg.ExecutesAll β :=
  ⟨not_alwaysSound cfg, not_executesAll cfg⟩

/-- One member with one entry on one rank, over one step, with the default batch size. -/
def oneStep : SerialRestartConfig where
  toFullConfig := FullConfig.counterConfig 1 Nat.one_pos
  obs := .none
  checkpointEvery := 1
  enforceContiguousHistory := true
  checkpointEvery_pos := Nat.one_pos
  filePrefix_eq := rfl
  serial := rfl

/-- A first launch over one step is finished at once: no ensemble, no step. -/
theorem not_completion_oneStep :
    (∃ s, run oneStep.step (.start (∅ : Directory ℕ))
        [.launch, .cleanup, .createBatch, .decide none, .initOk, .iterate] = some s ∧
      s.pos = .finished ∧ s.initialized = false ∧ s.executed = []) ∧
    ¬ (oneStep.AlwaysSound ℕ ∧ oneStep.ExecutesAll ℕ) := by
  have heval : (run oneStep.step (.start (∅ : Directory ℕ))
      [.launch, .cleanup, .createBatch, .decide none, .initOk, .iterate]).map
        (fun s => (s.pos, s.initialized, s.executed)) = some (.finished, false, []) := by
    decide +kernel
  obtain ⟨s, hs, hval⟩ := Option.map_eq_some_iff.mp heval
  obtain ⟨hpos, hrest⟩ := Prod.mk.inj hval
  obtain ⟨hinit, hexec⟩ := Prod.mk.inj hrest
  exact ⟨⟨s, hs, hpos, hinit, hexec⟩, fun h => not_alwaysSound oneStep h.1⟩

end SerialRestartConfig

end Icesee
