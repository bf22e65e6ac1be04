import Icesee.Driver.Restart

/-!
Truthfulness of the checkpoint, over any number of launches.

The checkpoint says that the steps up to `last_done_k` are done. Three things can take
away what they left: the constructor, which removes every step file; the switch to a
batch, which creates its files anew; and a step that is executed again. `Careful` is the
condition that none of them happens to a slice that is in use, and
`truthful_of_careful` says that it is enough. The driver does not meet it: the
constructor runs at every launch, before `k_start` is decided (`not_truthful_cleanup`).
-/

namespace Icesee.RestartConfig

open Handler Machine

variable {β : Type} (cfg : RestartConfig)

/-- The slices that the checkpoint declares done hold what the completed steps left. -/
def Truthful (s : DriverState β) : Prop :=
  ∀ t, s.declares t → ∀ d, s.left t = some d → cell cfg.toIOConfig s.handler t = d

/-- The condition on a step. The constructor runs only while no completed step has left
anything; an access opens another batch only if no completed step has left anything in it,
and writes to no slice that the checkpoint declares done. -/
def Careful (s : DriverState β) : Action β → Prop
  | .cleanup | .createBatch => ∀ t, s.left t = none
  | .access _ => ∀ a pos, s.pos.next = some (a, pos) →
      ((cfg.batchStart a.t : ℤ) ≠ s.handler.currentBatchStart →
        ∀ t, cfg.batchStart t = cfg.batchStart a.t → s.left t = none) ∧
      (a.write → ¬ s.declares a.t)
  | _ => True

/-! ### Slices in use -/

/-- Every slice that is in use holds what was left there. -/
structure Intact (s : DriverState β) : Prop where
  placed : WellPlaced cfg s
  lt : ∀ t d, s.left t = some d → t < cfg.nt
  holds : ∀ t d, s.left t = some d → cell cfg.toIOConfig s.handler t = d

variable {cfg} {s s' : DriverState β}

lemma Intact.truthful (h : cfg.Intact s) : cfg.Truthful s := fun t _ d hd => h.holds t d hd

lemma intact_start (dir : Directory β) : cfg.Intact (.start dir) where
  placed := wellPlaced_start dir
  lt := by simp [DriverState.start]
  holds := by simp [DriverState.start]

/-- A step that neither touches the store nor completes anything. -/
lemma Intact.of_same (h : cfg.Intact s) (hp : WellPlaced cfg s')
    (hh : s'.handler = s.handler) (hl : s'.left = s.left) : cfg.Intact s' where
  placed := hp
  lt t d hd := h.lt t d (hl ▸ hd)
  holds t d hd := by rw [hh]; exact h.holds t d (hl ▸ hd)

/-- Where nothing has been left, anything may happen to the store. -/
lemma intact_of_left_none (hp : WellPlaced cfg s) (hl : ∀ t, s.left t = none) :
    cfg.Intact s where
  placed := hp
  lt t d hd := by simp [hl t] at hd
  holds t d hd := by simp [hl t] at hd

/-- A completed step leaves the slice it has written. -/
lemma Intact.leave (h : cfg.Intact s) (hp : WellPlaced cfg s') (hh : s'.handler = s.handler)
    {t : ℕ} (ht : t < cfg.nt) (hl : s'.left = cfg.leave s t) : cfg.Intact s' := by
  have hleft : ∀ t' d, s'.left t' = some d →
      t' < cfg.nt ∧ cell cfg.toIOConfig s.handler t' = d := by
    intro t' d hd
    rw [hl, RestartConfig.leave] at hd
    rcases eq_or_ne t' t with rfl | hne
    · rw [Function.update_self] at hd
      exact ⟨ht, Option.some.inj hd⟩
    · rw [Function.update_of_ne hne] at hd
      exact ⟨h.lt t' d hd, h.holds t' d hd⟩
  exact ⟨hp, fun t' d hd => (hleft t' d hd).1, fun t' d hd => hh ▸ (hleft t' d hd).2⟩

/-- What is still in use after an access was in use before, and is not written. -/
lemma leftAfter_eq_some {a : Access} {t : ℕ} {d : Slice β} (ha : a.write → ¬ s.declares a.t)
    (h : leftAfter s a t = some d) : s.left t = some d ∧ (a.write → t ≠ a.t) := by
  rw [leftAfter] at h
  split at h
  · next hw =>
    rcases eq_or_ne t a.t with rfl | hne
    · simp at h
    · rw [Function.update_of_ne hne] at h
      exact ⟨h, fun _ => hne⟩
  · next hw => exact ⟨h, fun hwrite => absurd hwrite (by simp_all)⟩

/-! ### Careful runs -/

variable [Zero β]

/-- A careful access keeps the slices in use. -/
lemma Intact.access (h : cfg.Intact s) {data : ℕ → β} (hc : cfg.Careful s (.access data))
    (hs : cfg.step s (.access data) = some s') : cfg.Intact s' := by
  have hplaced := wellPlaced_step h.placed hs
  obtain ⟨a, pos, h', hnext, hperform, rfl⟩ := step_access hs
  obtain ⟨hbatch, hwrite⟩ := hc a pos hnext
  obtain ⟨htodo, htry, -⟩ := Position.next_spec hnext
  obtain ⟨b, ho⟩ := h.placed.isOpen htry
  have ha : cfg.InEnsemble a := h.placed.inEnsemble a (by rw [htodo]; simp)
  refine ⟨hplaced, fun t d hd => ?_, fun t d hd => ?_⟩
  · exact h.lt t d (leftAfter_eq_some hwrite hd).1
  · obtain ⟨hleft, hne⟩ := leftAfter_eq_some hwrite hd
    rw [(perform_spec ho ha hperform).2 t hne, ← h.holds t d hleft]
    funext i j
    rw [cell_ensureBatch ho a.t (h.lt t d hleft), if_neg]
    rintro ⟨hother, hsame⟩
    have hnone := hbatch (by rw [ho.start]; exact_mod_cast hother) t hsame
    simp [hleft] at hnone

/-- **A careful step** keeps the slices in use. -/
lemma Intact.step (h : cfg.Intact s) {a : Action β} (hc : cfg.Careful s a)
    (hs : cfg.step s a = some s') : cfg.Intact s' := by
  have hplaced := wellPlaced_step h.placed hs
  -- only four actions touch slices or files; the others leave both as they are
  cases a with
  | launch =>
      obtain ⟨-, rfl⟩ := step_launch hs
      exact h.of_same hplaced rfl rfl
  | cleanup =>
      obtain ⟨ck, -, rfl⟩ := step_cleanup hs
      exact intact_of_left_none hplaced hc
  | createBatch =>
      obtain ⟨ck, -, rfl⟩ := step_createBatch hs
      exact intact_of_left_none hplaced hc
  | decide override =>
      obtain ⟨ck, -, ⟨k, km, -, rfl⟩ | rfl⟩ := step_decide hs <;> exact h.of_same hplaced rfl rfl
  | initOk =>
      obtain ⟨k, km, -, rfl⟩ := step_initOk hs
      exact h.of_same hplaced rfl rfl
  | access data => exact h.access hc hs
  | complete =>
      obtain ⟨k, km, ⟨hpos, rfl⟩ | ⟨hpos, rfl⟩⟩ := step_complete hs
      · exact h.leave hplaced rfl cfg.nt_pos rfl
      · exact h.leave hplaced rfl (cfg.targetSlice_lt (h.placed.step_lt k km [] hpos)) rfl
  | iterate =>
      obtain ⟨k, km, -, rfl⟩ := step_iterate hs
      refine h.of_same hplaced ?_ ?_ <;> (rw [RestartConfig.iterate]; split_ifs <;> rfl)
  | checkpoint saved =>
      obtain ⟨k, km, -, rfl⟩ := step_checkpoint hs
      exact h.of_same hplaced rfl rfl
  | exception saved =>
      obtain ⟨-, rfl⟩ := step_exception hs
      exact h.of_same hplaced rfl rfl
  | kill =>
      obtain ⟨-, -, rfl⟩ := step_kill hs
      exact h.of_same hplaced rfl rfl

/-- **Truthfulness across restarts**: in every run whose steps are careful, from any
directory, the slices that the checkpoint declares done hold what the completed steps left
in them. -/
theorem truthful_of_careful (cfg : RestartConfig) (dir : Directory β) (actions : List (Action β))
    (s : DriverState β) (hrun : run cfg.step (.start dir) actions = some s)
    (hcareful : Guarded cfg.step cfg.Careful (.start dir) actions) : cfg.Truthful s :=
  (run_invariant cfg.Intact (fun _ _ _ h hc hs => h.step hc hs) (intact_start dir) hcareful
    hrun).truthful

/-! ### The launch after a checkpoint -/

/-- **Any launch after a checkpoint**: as soon as the constructor has run, a slice that is
declared done and had an entry has lost it. -/
lemma not_truthful_cleanup {t : ℕ} {d : Slice β} {i j : ℕ} {x : β} (ht : s.declares t)
    (hd : s.left t = some d) (hx : d i j = some x) (hs : cfg.step s .cleanup = some s') :
    ¬ cfg.Truthful s' := by
  obtain ⟨ck, -, rfl⟩ := step_cleanup hs
  intro htruth
  have hcell : cell cfg.toIOConfig (removeOld cfg.toIOConfig s.handler.dir) t = d :=
    htruth t ht d hd
  rw [← hcell, cell_removeOld] at hx
  cases hx

/-! ### The first launch, and the second -/

/-- An action that completes nothing and writes no checkpoint. -/
def quiet : Action β → Bool
  | .complete | .checkpoint _ | .exception _ => false
  | _ => true

lemma quiet_step {a : Action β} (ha : quiet a) (hl : ∀ t, s.left t = none)
    (hs : cfg.step s a = some s') : (∀ t, s'.left t = none) ∧ s'.ckpt = s.ckpt := by
  cases a with
  | complete | checkpoint saved | exception saved => cases ha
  | access data =>
      obtain ⟨a, pos, h', -, -, rfl⟩ := step_access hs
      refine ⟨fun t => ?_, rfl⟩
      change leftAfter s a t = none
      rw [leftAfter]
      split
      · rw [Function.update_apply, hl t, ite_self]
      · exact hl t
  | iterate =>
      obtain ⟨k, km, -, rfl⟩ := step_iterate hs
      rw [RestartConfig.iterate]
      split_ifs <;> exact ⟨hl, rfl⟩
  | launch =>
      obtain ⟨-, rfl⟩ := step_launch hs
      exact ⟨hl, rfl⟩
  | cleanup =>
      obtain ⟨ck, -, rfl⟩ := step_cleanup hs
      exact ⟨hl, rfl⟩
  | createBatch =>
      obtain ⟨ck, -, rfl⟩ := step_createBatch hs
      exact ⟨hl, rfl⟩
  | decide override =>
      obtain ⟨ck, -, ⟨k, km, -, rfl⟩ | rfl⟩ := step_decide hs <;> exact ⟨hl, rfl⟩
  | initOk =>
      obtain ⟨k, km, -, rfl⟩ := step_initOk hs
      exact ⟨hl, rfl⟩
  | kill =>
      obtain ⟨-, -, rfl⟩ := step_kill hs
      exact ⟨hl, rfl⟩

/-- Until its first step is completed, a first launch is careful. -/
lemma guarded_of_quiet {actions : List (Action β)} (hl : ∀ t, s.left t = none)
    (hc : s.ckpt = none) (ha : ∀ a ∈ actions, quiet a) :
    Guarded cfg.step cfg.Careful s actions := by
  induction actions generalizing s with
  | nil => trivial
  | cons a actions ih =>
      refine ⟨?_, fun s' hs => ?_⟩
      · cases a with
        | access data =>
            exact fun a pos _ => ⟨fun _ t _ => hl t, fun _ => by simp [DriverState.declares, hc]⟩
        | cleanup | createBatch => exact hl
        | _ => trivial
      · obtain ⟨hl', hc'⟩ := quiet_step (ha a (by simp)) hl hs
        exact ih hl' (hc'.trans hc) fun b hb => ha b (by simp [hb])

/-- One member with one entry on one rank, over two steps with a batch each. -/
def twoSteps : RestartConfig where
  toFullConfig := FullConfig.counterConfig 2 Nat.two_pos
  obs := .none
  checkpointEvery := 1
  enforceContiguousHistory := true
  checkpointEvery_pos := Nat.one_pos
  filePrefix_eq := rfl

/-- The first launch, up to the end of the accesses of its only step. -/
def firstLaunch : List (Action ℕ) :=
  [.launch, .cleanup, .createBatch, .decide none, .initOk, .iterate, .access fun _ => 0,
    .access fun _ => 7]

/-- The first launch leaves slice `1` and writes the checkpoint of step `1`. -/
lemma run_firstLaunch : ∃ s,
    run twoSteps.step (.start ∅) (firstLaunch ++ [.complete, .checkpoint true]) = some s ∧
      s.pos = .loop 2 0 ∧ s.ckpt = some 1 ∧ ∃ d, s.left 1 = some d ∧ d 0 0 = some 7 := by
  have heval : (run twoSteps.step (.start ∅)
      (firstLaunch ++ [.complete, .checkpoint true])).map
        (fun s => (s.pos, s.ckpt, (s.left 1).map fun d => d 0 0)) =
      some (.loop 2 0, some 1, some (some 7)) := by decide +kernel
  obtain ⟨s, hs, hval⟩ := Option.map_eq_some_iff.mp heval
  obtain ⟨hpos, hrest⟩ := Prod.mk.inj hval
  obtain ⟨hck, hleft⟩ := Prod.mk.inj hrest
  exact ⟨s, hs, hpos, hck, Option.map_eq_some_iff.mp hleft⟩

/-- After the first launch the checkpoint is truthful. -/
theorem truthful_of_careful_firstLaunch : ∃ s,
    run twoSteps.step (.start ∅) (firstLaunch ++ [.complete, .checkpoint true]) = some s ∧
      s.ckpt = some 1 ∧ twoSteps.Truthful s := by
  obtain ⟨s, hs, -, hck, -⟩ := run_firstLaunch
  refine ⟨s, hs, hck, truthful_of_careful twoSteps ∅ _ s hs ?_⟩
  refine guarded_append (guarded_of_quiet (fun _ => rfl) rfl (by decide)) fun s' _ => ?_
  exact ⟨trivial, fun _ _ => ⟨trivial, fun _ _ => trivial⟩⟩

/-- **The second launch** breaks the checkpoint of the first: the run is killed after it,
launched again, and the constructor removes slice `1`. -/
theorem not_truthful_secondLaunch : ¬ ∀ (actions : List (Action ℕ)) (s : DriverState ℕ),
    run twoSteps.step (.start ∅) actions = some s → twoSteps.Truthful s := by
  intro htruth
  obtain ⟨s, hs, hpos, hck, d, hd, hx⟩ := run_firstLaunch
  have hkill : twoSteps.step s .kill = some { s with pos := .down } := by simp [step, hpos]
  let s₂ : DriverState ℕ := { s with
    pos := .launched s.ckpt, curK := none, executed := [], initialized := false }
  have hrun : run twoSteps.step (.start ∅)
      (firstLaunch ++ [.complete, .checkpoint true] ++ [.kill, .launch, .cleanup]) =
      twoSteps.step s₂ .cleanup := by
    rw [run_append_of_eq hs, run_cons_of_eq hkill]
    rfl
  have hdone : s₂.declares 1 := by simp [DriverState.declares, s₂, hck]
  exact not_truthful_cleanup hdone hd hx rfl (htruth _ _ hrun)

end Icesee.RestartConfig
