import Mathlib.Data.List.Infix
import Mathlib.Logic.Function.Basic
import Icesee.Lib.Machine

/-!
Writing the checkpoint: `_atomic_write_json` and what `load_checkpoint` reads afterwards.

The state is written to a temporary file, which then replaces the checkpoint. `step` is one
call of the function that goes through or raises, or a part of the text that reaches the
file; a crash is the end of a run. `saveCheckpoint_atomic` says what the checkpoint is after
any run, and what is left when the function raises.
-/

namespace Icesee.CheckpointFile

open Machine

/-- The contents of a text file. -/
abbrev Text : Type := List Char

/-- What is raised: an `Exception`, or something else, such as a `KeyboardInterrupt`, which
`except Exception` lets pass. -/
inductive Raised
  | exception
  | baseException
  deriving DecidableEq, Repr

/-- The module `json`: the pieces that `json.dump` writes, whether it goes through after them,
and what `json.load` makes of a text. -/
structure Json (σ : Type) where
  pieces : σ → List Text
  serializes : σ → Bool
  load : Text → Option σ
  load_dump : ∀ x, serializes x → load (pieces x).flatten = some x

/-- `CKPT_BASENAME`. -/
def ckptBasename : String := "icesee_ckpt.json"

/-- The call that is next, or what has come out. `leave` is the end of the `with` statement
after something has been raised in it, and `ret` the end of the function. -/
inductive Pos
  | makedirs
  | mkstemp
  | fdopen
  | dump (rest : List Text)
  | flush
  | fsync
  | close
  | leave (e : Raised)
  | replace
  | ret
  | remove
  | done
  | raised (e : Raised)
  deriving DecidableEq, Repr

/-- The files of the checkpoint directory, and the variables of the function. The buffer has
what has been written to `f` and is not yet in the file. -/
structure State where
  files : String → Option Text
  pos : Pos := .makedirs
  tmppath : String := ""
  buffer : Text := []

/-- What the function, the file system and the user do. -/
inductive Action
  | proceed
  | create (name : String)
  | spill (n : ℕ)
  | raise (e : Raised)
  deriving DecidableEq, Repr

namespace State

/-- `n` characters of the buffer reach the file. -/
def spill (s : State) (n : ℕ) : State where
  files := Function.update s.files s.tmppath ((s.files s.tmppath).map (· ++ s.buffer.take n))
  pos := s.pos
  tmppath := s.tmppath
  buffer := s.buffer.drop n

/-- All of it. -/
def flush (s : State) : State := s.spill s.buffer.length

end State

/-- Where the `except` clause of the function goes on. -/
def handler : Raised → Pos
  | .exception => .remove
  | .baseException => .raised .baseException

variable {σ : Type} (json : Json σ) (new : σ)

/-- The next call goes through. -/
def proceed (s : State) : Option State :=
  match s.pos with
  | .makedirs => some { s with pos := .mkstemp }
  | .fdopen => some { s with pos := .dump (json.pieces new) }
  | .dump (piece :: rest) => some { s with pos := .dump rest, buffer := s.buffer ++ piece }
  | .dump [] => if json.serializes new then some { s with pos := .flush } else none
  | .flush => some { s.flush with pos := .fsync }
  | .fsync => some { s with pos := .close }
  | .close => some { s with pos := .replace }
  | .leave e => some { s.flush with pos := handler e }
  | .replace =>
      let files := Function.update s.files ckptBasename (s.files s.tmppath)
      some { s with pos := .ret, files := Function.update files s.tmppath none }
  | .ret => some { s with pos := .done }
  | .remove =>
      some { s with pos := .raised .exception, files := Function.update s.files s.tmppath none }
  | .mkstemp | .done | .raised _ => none

/-- The next call raises. The `with` statement closes the file, and what `os.remove` raises is
swallowed if it is an `Exception`. -/
def raise (e : Raised) (s : State) : Option State :=
  match s.pos with
  | .makedirs | .mkstemp | .remove => some { s with pos := .raised e }
  | .fdopen | .close | .leave _ | .replace => some { s with pos := handler e }
  | .dump _ | .flush | .fsync => some { s with pos := .leave e }
  | .ret => if e = .baseException then some { s with pos := .raised e } else none
  | .done | .raised _ => none

/-- One step of `_atomic_write_json`. `mkstemp` makes a file whose name is not there yet and
begins with `.tmp_ckpt_`. -/
def step (s : State) : Action → Option State
  | .proceed => proceed json new s
  | .create name =>
      if s.pos = .mkstemp ∧ s.files name = none ∧ ".tmp_ckpt_".toList <+: name.toList then
        some { s with
          pos := .fdopen, files := Function.update s.files name (some []), tmppath := name }
      else none
  | .spill n =>
      match s.pos with
      | .dump _ | .flush | .leave _ => some (s.spill n)
      | _ => none
  | .raise e => raise e s

/-- The state before a call. -/
def start (files : String → Option Text) : State where
  files := files

/-- `load_checkpoint`: nothing without a file, and an error for a text that is no state. -/
def loadCheckpoint (files : String → Option Text) : Option (Option σ) :=
  match files ckptBasename with
  | none => some none
  | some text => (json.load text).map some

/-! ### The files -/

variable {json new} {files : String → Option Text} {s s' : State}

/-- There is one more file than before, the temporary one. -/
structure HasTemp (files now : String → Option Text) (tmppath : String) (text : Text) : Prop where
  fresh : files tmppath = none
  ne : tmppath ≠ ckptBasename
  eq : now = Function.update files tmppath (some text)

/-- The checkpoint is the new one, and the other files are as before. -/
def HasNew (json : Json σ) (new : σ) (files : String → Option Text) (s : State) : Prop :=
  json.serializes new ∧
    s.files = Function.update files ckptBasename (some (json.pieces new).flatten)

/-- The files at every position. -/
def Inv (json : Json σ) (new : σ) (files : String → Option Text) (s : State) : Prop :=
  match s.pos with
  | .makedirs | .mkstemp => s.files = files ∧ s.buffer = []
  | .fdopen => HasTemp files s.files s.tmppath [] ∧ s.buffer = []
  | .dump rest => ∃ text, HasTemp files s.files s.tmppath text ∧
      text ++ s.buffer ++ rest.flatten = (json.pieces new).flatten
  | .flush => json.serializes new ∧ ∃ text, HasTemp files s.files s.tmppath text ∧
      text ++ s.buffer = (json.pieces new).flatten
  | .fsync | .close | .replace =>
      json.serializes new ∧ HasTemp files s.files s.tmppath (json.pieces new).flatten
  | .leave _ | .remove => ∃ text, HasTemp files s.files s.tmppath text
  | .ret | .done => HasNew json new files s
  | .raised .exception => s.files = files ∨ ∃ text, HasTemp files s.files s.tmppath text
  | .raised .baseException =>
      s.files = files ∨ (∃ text, HasTemp files s.files s.tmppath text) ∨ HasNew json new files s

lemma HasTemp.ckpt {now : String → Option Text} {tmppath : String} {text : Text}
    (h : HasTemp files now tmppath text) : now ckptBasename = files ckptBasename := by
  rw [h.eq, Function.update_of_ne h.ne.symm]

lemma HasTemp.apply {now : String → Option Text} {tmppath : String} {text : Text}
    (h : HasTemp files now tmppath text) : now tmppath = some text := by
  rw [h.eq, Function.update_self]

/-- Without the temporary file the files are as before. -/
lemma HasTemp.remove {now : String → Option Text} {tmppath : String} {text : Text}
    (h : HasTemp files now tmppath text) : Function.update now tmppath none = files := by
  rw [h.eq, Function.update_idem, ← h.fresh, Function.update_eq_self]

/-- Replacing the checkpoint by the temporary file. -/
lemma HasTemp.replace {now : String → Option Text} {tmppath : String} {text : Text}
    (h : HasTemp files now tmppath text) :
    Function.update (Function.update now ckptBasename (now tmppath)) tmppath none =
      Function.update files ckptBasename (some text) := by
  rw [h.apply, Function.update_comm h.ne.symm, h.remove]

/-- More of the text is in the file. -/
lemma HasTemp.spill {text : Text} (h : HasTemp files s.files s.tmppath text) (n : ℕ) :
    HasTemp files (s.spill n).files s.tmppath (text ++ s.buffer.take n) where
  fresh := h.fresh
  ne := h.ne
  eq := by
    rw [State.spill, h.apply, h.eq, Function.update_idem]
    rfl

lemma HasTemp.flush {text : Text} (h : HasTemp files s.files s.tmppath text) :
    HasTemp files s.flush.files s.tmppath (text ++ s.buffer) := by
  have hspill := h.spill s.buffer.length
  rwa [List.take_length] at hspill

/-! ### The steps -/

lemma inv_start : Inv json new files (start files) := ⟨rfl, rfl⟩

/-- Where the handler goes on, there is the temporary file or less. -/
lemma inv_handler {e : Raised} {text : Text} (h : HasTemp files s.files s.tmppath text) :
    Inv json new files { s with pos := handler e } := by
  cases e with
  | exception => exact ⟨text, h⟩
  | baseException => exact .inr (.inl ⟨text, h⟩)

/-- **A call that goes through.** -/
lemma Inv.proceed (h : Inv json new files s) (hs : proceed json new s = some s') :
    Inv json new files s' := by
  obtain ⟨now, pos, tmppath, buffer⟩ := s
  cases pos with
  -- neither a file nor the buffer is touched
  | makedirs | fsync | close | ret =>
      cases hs
      exact h
  | fdopen =>
      cases hs
      obtain ⟨htemp, hbuffer⟩ := h
      exact ⟨[], htemp, by simp [show buffer = [] from hbuffer]⟩
  | dump rest =>
      obtain ⟨text, htemp, htext⟩ := h
      cases rest with
      | nil =>
          -- `json.dump` returns only if all of the value can be written
          rw [CheckpointFile.proceed] at hs
          split_ifs at hs with hser
          cases hs
          exact ⟨hser, text, htemp, by simpa using htext⟩
      | cons piece rest =>
          cases hs
          exact ⟨text, htemp, by simpa using htext⟩
  | flush =>
      cases hs
      obtain ⟨hser, text, htemp, htext⟩ := h
      exact ⟨hser, htext ▸ htemp.flush⟩
  | leave e =>
      -- the `with` statement has closed the file, and the exception goes to the handler
      cases hs
      obtain ⟨text, htemp⟩ := h
      exact inv_handler htemp.flush
  | replace =>
      cases hs
      obtain ⟨hser, htemp⟩ := h
      exact ⟨hser, htemp.replace⟩
  | remove =>
      cases hs
      obtain ⟨text, htemp⟩ := h
      exact .inl htemp.remove
  | mkstemp | done | raised e => cases hs

/-- **A call that raises.** -/
lemma Inv.raise {e : Raised} (h : Inv json new files s) (hs : raise e s = some s') :
    Inv json new files s' := by
  obtain ⟨now, pos, tmppath, buffer⟩ := s
  cases pos with
  -- before the `try`: there is no temporary file yet
  | makedirs | mkstemp =>
      cases hs
      obtain ⟨hfiles, -⟩ := h
      cases e with
      | exception => exact .inl hfiles
      | baseException => exact .inl hfiles
  -- an exception of the removal itself
  | remove =>
      cases hs
      cases e with
      | exception => exact .inr h
      | baseException => exact .inr (.inl h)
  | fdopen =>
      cases hs
      obtain ⟨htemp, -⟩ := h
      exact inv_handler htemp
  | close | replace =>
      cases hs
      obtain ⟨-, htemp⟩ := h
      exact inv_handler htemp
  | leave e' =>
      cases hs
      obtain ⟨text, htemp⟩ := h
      exact inv_handler htemp
  -- inside the `with` statement, which is left first
  | dump rest =>
      cases hs
      obtain ⟨text, htemp, -⟩ := h
      exact ⟨text, htemp⟩
  | flush =>
      cases hs
      obtain ⟨-, text, htemp, -⟩ := h
      exact ⟨text, htemp⟩
  | fsync =>
      cases hs
      obtain ⟨-, htemp⟩ := h
      exact ⟨_, htemp⟩
  | ret =>
      -- nothing raises there but an interruption
      rw [CheckpointFile.raise] at hs
      split_ifs at hs with he
      cases hs
      subst he
      exact .inr (.inr h)
  | done | raised e' => cases hs

/-- No file of the checkpoint has a temporary name. -/
lemma ne_ckptBasename {name : String} (h : ".tmp_ckpt_".toList <+: name.toList) :
    name ≠ ckptBasename := by
  rintro rfl
  exact absurd h (by decide +kernel)

/-- **One step** keeps the invariant. -/
lemma Inv.step {a : Action} (h : Inv json new files s) (hs : step json new s a = some s') :
    Inv json new files s' := by
  cases a with
  | proceed => exact h.proceed hs
  | raise e => exact h.raise hs
  | create name =>
      rw [CheckpointFile.step] at hs
      split_ifs at hs with hname
      obtain ⟨hpos, hfresh, htmp⟩ := hname
      obtain rfl := Option.some.inj hs
      rw [Inv, hpos] at h
      obtain ⟨hfiles, hbuffer⟩ := h
      exact ⟨⟨hfiles ▸ hfresh, ne_ckptBasename htmp, by rw [hfiles]⟩, hbuffer⟩
  | spill n =>
      obtain ⟨now, pos, tmppath, buffer⟩ := s
      cases pos with
      | dump rest =>
          cases hs
          obtain ⟨text, htemp, htext⟩ := h
          refine ⟨_, htemp.spill n, ?_⟩
          -- what is spilled goes from the buffer to the file, so the text is the same
          rw [← htext, State.spill, List.append_assoc text, List.take_append_drop]
      | flush =>
          cases hs
          obtain ⟨hser, text, htemp, htext⟩ := h
          refine ⟨hser, _, htemp.spill n, ?_⟩
          rw [← htext, State.spill, List.append_assoc, List.take_append_drop]
      | leave e =>
          cases hs
          obtain ⟨text, htemp⟩ := h
          exact ⟨_, htemp.spill n⟩
      | _ => cases hs

/-- **A run** keeps the invariant. -/
lemma inv_run {as : List Action} (h : run (step json new) (start files) as = some s) :
    Inv json new files s :=
  run_invariant (Inv json new files) (fun _ _ _ hinv _ => hinv.step) inv_start
    (guarded_of_forall (p := fun _ => True) fun _ _ => trivial) h

/-! ### After a run -/

lemma loadCheckpoint_congr {now : String → Option Text}
    (h : now ckptBasename = files ckptBasename) :
    loadCheckpoint json now = loadCheckpoint json files := by
  rw [loadCheckpoint, h, loadCheckpoint]

lemma HasNew.load (h : HasNew json new files s) :
    loadCheckpoint json s.files = some (some new) := by
  rw [loadCheckpoint, h.2, Function.update_self]
  dsimp only
  rw [json.load_dump new h.1]
  rfl

/-- The files are as before, or there is the temporary file, or the new checkpoint. -/
lemma Inv.files_cases (h : Inv json new files s) :
    s.files = files ∨ (∃ text, HasTemp files s.files s.tmppath text) ∨ HasNew json new files s := by
  rw [Inv] at h
  split at h
  · exact .inl h.1
  · exact .inl h.1
  · exact .inr (.inl ⟨_, h.1⟩)
  · exact .inr (.inl (h.imp fun _ => And.left))
  · exact .inr (.inl (h.2.imp fun _ => And.left))
  · exact .inr (.inl ⟨_, h.2⟩)
  · exact .inr (.inl ⟨_, h.2⟩)
  · exact .inr (.inl ⟨_, h.2⟩)
  · exact .inr (.inl h)
  · exact .inr (.inl h)
  · exact .inr (.inr h)
  · exact .inr (.inr h)
  · exact h.imp_right .inl
  · exact h

/-- Whatever has happened so far, the checkpoint is the old or the new one. -/
lemma Inv.load (h : Inv json new files s) :
    loadCheckpoint json s.files = loadCheckpoint json files ∨
      loadCheckpoint json s.files = some (some new) := by
  rcases h.files_cases with heq | ⟨text, htemp⟩ | hnew
  · exact .inl (loadCheckpoint_congr (by rw [heq]))
  · exact .inl (loadCheckpoint_congr htemp.ckpt)
  · exact .inr hnew.load

/-- The removal of the temporary file goes through. -/
def Removes (s : State) (a : Action) : Prop := s.pos = .remove → a = .proceed

instance (s : State) (a : Action) : Decidable (Removes s a) :=
  inferInstanceAs (Decidable (_ → _))

lemma handler_ne_raised (e : Raised) : handler e ≠ .raised .exception := by
  cases e <;> exact nofun

/-- An `Exception` comes out of the two calls before the `try`, or after the removal. -/
lemma step_raised {a : Action} (hs : step json new s a = some s')
    (hraised : s'.pos = .raised .exception) (hremoves : Removes s a) :
    (s.pos = .makedirs ∨ s.pos = .mkstemp) ∧ s'.files = s.files ∨
      s.pos = .remove ∧ s'.files = Function.update s.files s.tmppath none := by
  obtain ⟨now, pos, tmppath, buffer⟩ := s
  cases a with
  | proceed =>
      cases pos with
      | remove =>
          cases hs
          exact .inr ⟨rfl, rfl⟩
      | leave e =>
          cases hs
          -- an exception that leaves the `with` statement goes to the handler
          exact absurd hraised (handler_ne_raised e)
      | dump rest =>
          cases rest with
          | nil =>
              rw [step, proceed] at hs
              split_ifs at hs
              cases hs
              cases hraised
          | cons piece rest =>
              cases hs
              cases hraised
      | mkstemp | done | raised e => cases hs
      | makedirs | fdopen | flush | fsync | close | replace | ret =>
          cases hs
          cases hraised
  | create name =>
      rw [step] at hs
      split_ifs at hs
      cases hs
      cases hraised
  | spill n =>
      cases pos with
      | dump rest | flush | leave e =>
          cases hs
          cases hraised
      | _ => cases hs
  | raise e =>
      cases pos with
      | makedirs =>
          cases hs
          exact .inl ⟨.inl rfl, rfl⟩
      | mkstemp =>
          cases hs
          exact .inl ⟨.inr rfl, rfl⟩
      | remove => cases hremoves rfl
      | fdopen | close | leave | replace =>
          -- inside the `try` as well
          cases hs
          exact absurd hraised (handler_ne_raised e)
      | dump | flush | fsync =>
          cases hs
          cases hraised
      | ret =>
          rw [step, raise] at hs
          split_ifs at hs with he
          cases hs
          cases he.symm.trans (Pos.raised.inj hraised)
      | done | raised => cases hs

/-- **The checkpoint.** After any run it is the old one or the new one. When an `Exception` is
raised it is the old one, and if the removal of the temporary file goes through, all files are
as before. -/
theorem saveCheckpoint_atomic (json : Json σ) (new : σ) (files : String → Option Text)
    {as : List Action} {s : State} (h : run (step json new) (start files) as = some s) :
    (loadCheckpoint json s.files = loadCheckpoint json files ∨
      loadCheckpoint json s.files = some (some new)) ∧
    (s.pos = .raised .exception →
      loadCheckpoint json s.files = loadCheckpoint json files ∧
      (Guarded (step json new) Removes (start files) as → s.files = files)) := by
  have hinv := inv_run h
  refine ⟨hinv.load, fun hraised => ⟨?_, fun hguard => ?_⟩⟩
  · rw [Inv, hraised] at hinv
    rcases hinv with heq | ⟨text, htemp⟩
    · rw [heq]
    · exact loadCheckpoint_congr htemp.ckpt
  · have hclean : Inv json new files s ∧ (s.pos = .raised .exception → s.files = files) := by
      -- along the run: the invariant, and that an `Exception` has left the files as before
      refine run_invariant (fun s => Inv json new files s ∧
        (s.pos = .raised .exception → s.files = files)) (fun s a s' hs hremoves hstep => ?_)
        ⟨inv_start, nofun⟩ hguard h
      refine ⟨hs.1.step hstep, fun hraised => ?_⟩
      rcases step_raised hstep hraised hremoves with ⟨hpos, heq⟩ | ⟨hpos, heq⟩
      · have hinv := hs.1
        rcases hpos with hpos | hpos <;> rw [Inv, hpos] at hinv <;> exact heq.trans hinv.1
      · have hinv := hs.1
        rw [Inv, hpos] at hinv
        obtain ⟨text, htemp⟩ := hinv
        exact heq.trans htemp.remove
    exact hclean.2 hraised

/-- A function that returns has written the new checkpoint. -/
theorem saveCheckpoint_done {as : List Action}
    (h : run (step json new) (start files) as = some s) (hdone : s.pos = .done) :
    loadCheckpoint json s.files = some (some new) := by
  have hinv := inv_run h
  rw [Inv, hdone] at hinv
  exact hinv.load

/-! ### Two runs -/

/-- The chunks that `json.dump(payload, f, indent=2)` writes for `last_done_k` as the only entry
of the dictionary, with a step of one digit. -/
def lastDonePieces (k : Fin 10) : List Text :=
  ["\x7b", "\n  ", "\"last_done_k\"", ": ", toString k.val, "\n", "\x7d"].map String.toList

lemma load_lastDonePieces : ∀ k : Fin 10, ((List.finRange 10).find? fun j =>
    (lastDonePieces j).flatten = (lastDonePieces k).flatten) = some k := by decide +kernel

/-- These dictionaries, and no other text. -/
def lastDone : Json (Fin 10) where
  pieces := lastDonePieces
  serializes _ := true
  load text := (List.finRange 10).find? fun k => (lastDonePieces k).flatten = text
  load_dump k _ := load_lastDonePieces k

/-- All chunks are written into the buffer. -/
def written : List Action :=
  [.proceed, .create ".tmp_ckpt_x", .proceed] ++ List.replicate 8 .proceed

/-- The disk is full when the text is flushed. -/
def diskFull : List Action := written ++ [.spill 2, .raise .exception, .raise .exception, .proceed]

/-- All files are as before then. -/
theorem saveCheckpoint_atomic_diskFull :
    ∃ s, run (step lastDone 3) (start fun _ => none) diskFull = some s ∧
      s.pos = .raised .exception ∧ s.files = fun _ => none := by
  obtain ⟨s, hrun, hraised⟩ : ∃ s, run (step lastDone 3) (start fun _ => none) diskFull = some s ∧
      s.pos = .raised .exception := ⟨_, rfl, rfl⟩
  have hguard : Guarded (step lastDone 3) Removes (start fun _ => none) diskFull := by
    decide +kernel
  exact ⟨s, hrun, hraised, ((saveCheckpoint_atomic lastDone 3 _ hrun).2 hraised).2 hguard⟩

/-- A `KeyboardInterrupt` leaves the temporary file, or comes when the checkpoint is already the
new one; and a removal that fails leaves the temporary file. -/
theorem saveCheckpoint_keyboardInterrupt :
    (∃ s, run (step lastDone 3) (start fun _ => none)
        [.proceed, .create ".tmp_ckpt_x", .raise .baseException] = some s ∧
      s.pos = .raised .baseException ∧ s.files ".tmp_ckpt_x" = some []) ∧
    (∃ s, run (step lastDone 3) (start fun _ => none)
        (written ++ [.proceed, .proceed, .proceed, .proceed, .raise .baseException]) = some s ∧
      s.pos = .raised .baseException ∧ loadCheckpoint lastDone s.files = some (some 3)) ∧
    ∃ s, run (step lastDone 3) (start fun _ => none)
        [.proceed, .create ".tmp_ckpt_x", .raise .exception, .raise .exception] = some s ∧
      s.pos = .raised .exception ∧ s.files ".tmp_ckpt_x" = some [] :=
  ⟨⟨_, rfl, rfl, rfl⟩, ⟨_, rfl, rfl, rfl⟩, ⟨_, rfl, rfl, rfl⟩⟩

end Icesee.CheckpointFile
