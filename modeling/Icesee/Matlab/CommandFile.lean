import Icesee.Lib.Machine
import Mathlib.Data.List.DropRight

/-!
The command file between Python and MATLAB.

The client (`_MatlabServer.send_command`) opens the command file with mode `'w'`, writes
the command, and waits until the file is gone or the time is up; the server
(`matlab_server.m`) waits until the file is there, reads its first line, executes it,
writes the status file and deletes the command file. `step` is one step of either party,
in any interleaving.

* **The file.** It has the bytes that are visible so far, and the number of the send that
  wrote them. A client that is still writing when the server deletes the file goes on
  writing to a file without a name.
* **The log.** `executed` is what the server has executed, `acks` are the sends that
  returned `True`, each with the send that the last deletion served.

`faithful_of_careful` says for which steps every acknowledged command has been executed
once and none is lost.
-/

namespace Icesee.CommandFile

open Machine

/-! ### Reading a line -/

/-- What `strtrim` removes: white space and the null character. -/
def isSpace (c : Char) : Bool := c.toNat ∈ [0, 9, 10, 11, 12, 13, 32]

/-- `strtrim`. -/
def strtrim (text : List Char) : List Char := (text.dropWhile isSpace).rdropWhile isSpace

/-- `fgetl`: the first line, or nothing at the end of the file (where it returns `-1`). -/
def fgetl (content : List Char) : Option (List Char) :=
  if content = [] then none else some (content.takeWhile (· ≠ '\n'))

/-- A command is one line. -/
structure Command where
  text : List Char
  oneLine : '\n' ∉ text

lemma fgetl_text {c : Command} (hc : strtrim c.text ≠ []) : fgetl c.text = some c.text := by
  have hne : c.text ≠ [] := by
    intro h
    exact hc (by rw [h]; rfl)
  rw [fgetl, if_neg hne, List.takeWhile_eq_self_iff.mpr]
  intro x hx
  have hline : x ≠ '\n' := fun h => c.oneLine (h ▸ hx)
  simpa using hline

/-! ### The parties -/

/-- The visible contents of the command file, written by send number `send`. -/
structure CmdFile where
  send : ℕ
  visible : List Char
  deriving DecidableEq, Repr

/-- Where the client is: between two sends, writing (with the number of visible characters,
and whether its file still has a name), or waiting for the file to disappear. -/
inductive Client where
  | idle
  | writing (send written : ℕ) (linked : Bool)
  | waiting (send : ℕ)
  deriving DecidableEq, Repr

/-- Where the server is. The number is that of the send whose text it has read. -/
inductive Server where
  | polling
  | detected
  | evaluating (send : ℕ) (command : List Char)
  | reporting (send : ℕ)
  | deleting (send : ℕ) (exit : Bool)
  | stopped
  deriving DecidableEq, Repr

/-- The server has executed a command, with or without an error. -/
structure Execution where
  send : ℕ
  command : List Char
  ok : Bool
  deriving DecidableEq, Repr

/-- A send has returned `True`; `deletion` is the send that the last deletion served. -/
structure Ack where
  send : ℕ
  deletion : Option ℕ
  deriving DecidableEq, Repr

/-- The two files, the two parties, and the log: all commands sent, by the number of their
send, the executions, the acknowledgements, and what the last deletion served. -/
structure State where
  cmdfile : Option CmdFile
  status : Option String
  client : Client
  server : Server
  sent : List Command
  executed : List Execution
  acks : List Ack
  lastDeletion : Option ℕ

/-- The server is up: `launch` has removed an old command file and has seen `ready`. -/
def State.start : State where
  cmdfile := none
  status := some "ready"
  client := .idle
  server := .polling
  sent := []
  executed := []
  acks := []
  lastDeletion := none

/-- What can happen next. `flush` makes more characters visible, `evalin` ends with or
without an error. -/
inductive Action where
  | openFile (c : Command)
  | flush (chars : ℕ)
  | close
  | poll
  | timeout
  | detect
  | read
  | evalin (ok : Bool)
  | report
  | delete

/-- What the server does with the contents of the file: an empty file makes `strtrim` raise,
an empty command is skipped, and in both cases the file is deleted. -/
def serve (f : CmdFile) : Server :=
  match fgetl f.visible with
  | none => .deleting f.send false
  | some line =>
      if strtrim line = [] then .deleting f.send false
      else if strtrim line = "exit".toList then .deleting f.send true
      else .evaluating f.send (strtrim line)

/-- The command `exit` is executed by the server itself, when it is read. -/
def executedAtRead : Server → List Execution
  | .deleting send true => [⟨send, "exit".toList, true⟩]
  | _ => []

/-- The client is between opening the file and the end of its write. -/
def Client.isWriting : Client → Bool
  | .writing _ _ _ => true
  | _ => false

/-- A deletion takes the name from the file that the client is writing. -/
def Client.unlink : Client → Client
  | .writing send written _ => .writing send written false
  | client => client

/-- One step of a party; `none` if it is not there. -/
def step (s : State) : Action → Option State
  | .openFile c => match s.client with
      | .idle => some { s with
          cmdfile := some ⟨s.sent.length, []⟩
          client := .writing s.sent.length 0 true
          sent := s.sent ++ [c] }
      | _ => none
  | .flush chars => match s.client with
      | .writing n written linked => do
          let c ← s.sent[n]?
          let written := min (written + chars) c.text.length
          return { s with
            cmdfile := if linked then some ⟨n, c.text.take written⟩ else s.cmdfile
            client := .writing n written linked }
      | _ => none
  | .close => match s.client with
      | .writing n _ linked => do
          let c ← s.sent[n]?
          return { s with
            cmdfile := if linked then some ⟨n, c.text⟩ else s.cmdfile
            client := .waiting n }
      | _ => none
  | .poll => match s.client with
      | .waiting n =>
          if s.cmdfile.isSome then some s
          else some { s with client := .idle, acks := s.acks ++ [⟨n, s.lastDeletion⟩] }
      | _ => none
  | .timeout => match s.client with
      | .waiting _ => if s.cmdfile.isSome then some { s with client := .idle } else none
      | _ => none
  | .detect => match s.server with
      | .polling => if s.cmdfile.isSome then some { s with server := .detected } else none
      | _ => none
  | .read => match s.server with
      | .detected => do
          let f ← s.cmdfile
          return { s with
            server := serve f, executed := s.executed ++ executedAtRead (serve f) }
      | _ => none
  | .evalin ok => match s.server with
      | .evaluating n command => some { s with
          server := if ok then .reporting n else .deleting n false
          executed := s.executed ++ [⟨n, command, ok⟩] }
      | _ => none
  | .report => match s.server with
      | .reporting n => some { s with status := some "done", server := .deleting n false }
      | _ => none
  | .delete => match s.server with
      | .deleting n exit => some { s with
          cmdfile := none
          status := if exit then none else s.status
          client := s.client.unlink
          server := if exit then .stopped else .polling
          lastDeletion := some n }
      | _ => none

/-! ### What the protocol is for -/

/-- Send `n` has been executed exactly once, as a whole and without an error. -/
def ExecutedOnce (s : State) (n : ℕ) : Prop :=
  ∃ c, s.sent[n]? = some c ∧
    s.executed.filter (fun e => e.send = n) = [⟨n, strtrim c.text, true⟩]

/-- Send `n` is on its way: it is being written to the file that the server looks at, or it
is in this file and the server has yet to read it, or it is being executed. -/
def Underway (s : State) (n : ℕ) : Prop :=
  ∃ c, s.sent[n]? = some c ∧
    (((s.server = .polling ∨ s.server = .detected) ∧
        ((∃ written, s.client = .writing n written true) ∨ s.cmdfile = some ⟨n, c.text⟩)) ∨
      s.server = .evaluating n (strtrim c.text))

/-- Every send that returned `True` has been executed once and is acknowledged by its own
deletion, and no command is lost. -/
structure Faithful (s : State) : Prop where
  acked : ∀ a ∈ s.acks, ExecutedOnce s a.send ∧ a.deletion = some a.send
  notLost : ∀ n < s.sent.length, ExecutedOnce s n ∨ Underway s n

/-- The condition on a step. A command is not blank and is sent to a running server while
there is no command file; the server does not read while the client is writing; `evalin`
raises no error. -/
def Careful (s : State) : Action → Prop
  | .openFile c => s.cmdfile = none ∧ s.server ≠ .stopped ∧ strtrim c.text ≠ []
  | .read => s.client.isWriting = false
  | .evalin ok => ok
  | _ => True

instance (s : State) : (a : Action) → Decidable (Careful s a)
  | .openFile _ => inferInstanceAs (Decidable (_ ∧ _ ∧ _))
  | .read => inferInstanceAs (Decidable (_ = false))
  | .evalin ok => inferInstanceAs (Decidable (ok = true))
  | .flush _ | .close | .poll | .timeout | .detect | .report | .delete => isTrue trivial

/-! ### The log of a faithful run -/

/-- The log after the commands of a list have been served one after the other. -/
def served (l : List Command) : List Execution :=
  l.zipIdx.map fun p => ⟨p.2, strtrim p.1.text, true⟩

lemma served_concat (l : List Command) (c : Command) :
    served (l ++ [c]) = served l ++ [⟨l.length, strtrim c.text, true⟩] := by
  simp [served, List.zipIdx_append]

lemma length_served (l : List Command) : (served l).length = l.length := by simp [served]

lemma send_lt_of_mem_served {l : List Command} {e : Execution} (he : e ∈ served l) :
    e.send < l.length := by
  obtain ⟨⟨c, i⟩, hp, rfl⟩ := List.mem_map.mp he
  exact (List.mem_zipIdx' hp).1

/-- Every command of the list is logged once, at its own number. -/
lemma filter_served {l : List Command} {n : ℕ} {c : Command} (hc : l[n]? = some c) :
    (served l).filter (fun e => e.send = n) = [⟨n, strtrim c.text, true⟩] := by
  induction l using List.reverseRecOn with
  | nil => simp at hc
  | append_singleton l d ih =>
      rw [served_concat, List.filter_append]
      rcases lt_trichotomy n l.length with hlt | rfl | hgt
      · rw [List.getElem?_append_left hlt] at hc
        simp [ih hc, hlt.ne']
      · rw [List.getElem?_append_right le_rfl] at hc
        have hnil : (served l).filter (fun e => e.send = l.length) = [] := by
          refine List.filter_eq_nil_iff.mpr fun e he => ?_
          simpa using (send_lt_of_mem_served he).ne
        obtain rfl : d = c := by simpa using hc
        simp [hnil]
      · have hout : (l ++ [d])[n]? = none := List.getElem?_eq_none (by simp; omega)
        rw [hout] at hc
        cases hc

/-! ### The phases of a careful run -/

/-- What a careful run goes through. In every phase but the first there is one command `c`
under way, behind the commands `l` that have been served. -/
inductive Phase (s : State) : Prop
  | quiet (hfile : s.cmdfile = none) (hserver : s.server = .polling ∨ s.server = .stopped)
      (hexec : s.executed = served s.sent)
      (hclient : s.client = .idle ∨
        ∃ n, s.client = .waiting n ∧ n + 1 = s.sent.length ∧ s.lastDeletion = some n)
  | writing (l : List Command) (c : Command) (written : ℕ) (hsent : s.sent = l ++ [c])
      (hc : strtrim c.text ≠ []) (hexec : s.executed = served l)
      (hfile : s.cmdfile = some ⟨l.length, c.text.take written⟩)
      (hclient : s.client = .writing l.length written true)
      (hserver : s.server = .polling ∨ s.server = .detected)
  | pending (l : List Command) (c : Command) (hsent : s.sent = l ++ [c])
      (hc : strtrim c.text ≠ []) (hexec : s.executed = served l)
      (hfile : s.cmdfile = some ⟨l.length, c.text⟩)
      (hclient : s.client = .idle ∨ s.client = .waiting l.length)
      (hserver : s.server = .polling ∨ s.server = .detected)
  | evaluating (l : List Command) (c : Command) (hsent : s.sent = l ++ [c])
      (hexec : s.executed = served l) (hfile : s.cmdfile = some ⟨l.length, c.text⟩)
      (hclient : s.client = .idle ∨ s.client = .waiting l.length)
      (hserver : s.server = .evaluating l.length (strtrim c.text))
  | executed (l : List Command) (c : Command) (hsent : s.sent = l ++ [c])
      (hexec : s.executed = served (l ++ [c])) (hfile : s.cmdfile = some ⟨l.length, c.text⟩)
      (hclient : s.client = .idle ∨ s.client = .waiting l.length)
      (hserver : s.server = .reporting l.length ∨ ∃ exit, s.server = .deleting l.length exit)

/-- The invariant of careful runs: a phase, and acknowledgements of commands that have been
served. -/
structure Orderly (s : State) : Prop where
  phase : Phase s
  acks : ∀ a ∈ s.acks, a.deletion = some a.send ∧ a.send < s.executed.length

/-- In every phase the log is that of the first commands that were sent. -/
lemma Phase.executed_prefix {s : State} (h : Phase s) : ∃ l r, s.sent = l ++ r ∧
    s.executed = served l := by
  cases h with
  | quiet _ _ hexec _ => exact ⟨s.sent, [], by simp, hexec⟩
  | writing l c _ hsent _ hexec _ _ _ => exact ⟨l, [c], hsent, hexec⟩
  | pending l c hsent _ hexec _ _ _ => exact ⟨l, [c], hsent, hexec⟩
  | evaluating l c hsent hexec _ _ _ => exact ⟨l, [c], hsent, hexec⟩
  | executed l c hsent hexec _ _ _ => exact ⟨l ++ [c], [], by simp [hsent], hexec⟩

/-- What is in the log has been executed once. -/
lemma Phase.executedOnce {s : State} (h : Phase s) {n : ℕ} (hn : n < s.executed.length) :
    ExecutedOnce s n := by
  obtain ⟨l, r, hsent, hexec⟩ := h.executed_prefix
  rw [hexec, length_served] at hn
  obtain ⟨c, hc⟩ : ∃ c, l[n]? = some c := ⟨_, List.getElem?_eq_getElem hn⟩
  refine ⟨c, ?_, by rw [hexec, filter_served hc]⟩
  rw [hsent, List.getElem?_append_left hn, hc]

/-- The last command is the one behind the others. -/
lemma getElem?_last (l : List Command) (c : Command) : (l ++ [c])[l.length]? = some c := by simp

lemma Orderly.faithful {s : State} (h : Orderly s) : Faithful s where
  acked a ha := ⟨h.phase.executedOnce (h.acks a ha).2, (h.acks a ha).1⟩
  notLost n hn := by
    by_cases hold : n < s.executed.length
    · exact .inl (h.phase.executedOnce hold)
    refine .inr ?_
    -- what was not executed is the last command, in each phase that has one
    have hlast : ∀ l c, s.sent = l ++ [c] → s.executed = served l → n = l.length := by
      intro l c hsent hexec
      rw [hexec, length_served] at hold
      simp only [hsent, List.length_append, List.length_singleton] at hn
      omega
    cases h.phase with
    | quiet _ _ hexec _ => rw [hexec, length_served] at hold; exact absurd hn hold
    | writing l c written hsent _ hexec _ hclient hserver =>
        obtain rfl := hlast l c hsent hexec
        exact ⟨c, by rw [hsent, getElem?_last], .inl ⟨hserver, .inl ⟨written, hclient⟩⟩⟩
    | pending l c hsent _ hexec hfile _ hserver =>
        obtain rfl := hlast l c hsent hexec
        exact ⟨c, by rw [hsent, getElem?_last], .inl ⟨hserver, .inr hfile⟩⟩
    | evaluating l c hsent hexec _ _ hserver =>
        obtain rfl := hlast l c hsent hexec
        exact ⟨c, by rw [hsent, getElem?_last], .inr hserver⟩
    | executed l c hsent hexec _ _ _ =>
        rw [hexec, length_served, ← hsent] at hold
        exact absurd hn hold

/-! ### Careful steps -/

variable {s s' : State}

/-- The server reads a whole command. -/
lemma serve_text {c : Command} (hc : strtrim c.text ≠ []) (n : ℕ) :
    serve ⟨n, c.text⟩ = if strtrim c.text = "exit".toList then .deleting n true
      else .evaluating n (strtrim c.text) := by
  simp [serve, fgetl_text hc, hc]

lemma phase_openFile {c : Command} (h : Phase s) (hg : Careful s (.openFile c))
    (hs : step s (.openFile c) = some s') : Phase s' ∧ s'.acks = s.acks ∧
      s'.executed = s.executed := by
  obtain ⟨hnone, hup, hc⟩ := hg
  simp only [step] at hs
  split at hs <;> cases hs
  cases h with
  | quiet _ hserver hexec _ =>
      exact ⟨.writing s.sent c 0 rfl hc hexec rfl rfl (.inl (hserver.resolve_right hup)), rfl, rfl⟩
  | writing _ _ _ _ _ _ hfile | pending _ _ _ _ _ hfile | evaluating _ _ _ _ hfile
  | executed _ _ _ _ hfile => rw [hnone] at hfile; cases hfile

/-- A client that is writing is in the phase of writing. -/
lemma Phase.of_writing (h : Phase s) {n written : ℕ} {linked : Bool}
    (hw : s.client = .writing n written linked) :
    ∃ l c, s.sent[n]? = some c ∧ s.sent = l ++ [c] ∧ strtrim c.text ≠ [] ∧
      s.executed = served l ∧ n = l.length ∧ linked = true ∧
      (s.server = .polling ∨ s.server = .detected) := by
  cases h with
  | writing l c w hsent hc hexec hfile hclient hserver =>
      obtain ⟨rfl, -, rfl⟩ := Client.writing.inj (hw.symm.trans hclient)
      exact ⟨l, c, by rw [hsent, getElem?_last], hsent, hc, hexec, rfl, rfl, hserver⟩
  | quiet _ _ _ hclient =>
      rcases hclient with hclient | ⟨m, hclient, -⟩ <;> rw [hw] at hclient <;> cases hclient
  | pending _ _ _ _ _ _ hclient | evaluating _ _ _ _ _ hclient | executed _ _ _ _ _ hclient =>
      rcases hclient with hclient | hclient <;> rw [hw] at hclient <;> cases hclient

lemma phase_flush {chars : ℕ} (h : Phase s) (hs : step s (.flush chars) = some s') :
    Phase s' ∧ s'.acks = s.acks ∧ s'.executed = s.executed := by
  simp only [step] at hs
  split at hs
  · next n written linked hw =>
    obtain ⟨l, c, hlast, hsent, hc, hexec, rfl, rfl, hserver⟩ := h.of_writing hw
    rw [hlast] at hs
    obtain rfl := Option.some.inj hs
    exact ⟨.writing l c _ hsent hc hexec rfl rfl hserver, rfl, rfl⟩
  · cases hs

lemma phase_close (h : Phase s) (hs : step s .close = some s') :
    Phase s' ∧ s'.acks = s.acks ∧ s'.executed = s.executed := by
  simp only [step] at hs
  split at hs
  · next n written linked hw =>
    obtain ⟨l, c, hlast, hsent, hc, hexec, rfl, rfl, hserver⟩ := h.of_writing hw
    rw [hlast] at hs
    obtain rfl := Option.some.inj hs
    exact ⟨.pending l c hsent hc hexec rfl (.inr rfl) hserver, rfl, rfl⟩
  · cases hs

/-- While there is a file, a client that stops waiting changes nothing else. -/
lemma Phase.idle (h : Phase s) (hfile : s.cmdfile.isSome) {n : ℕ} (hw : s.client = .waiting n) :
    Phase { s with client := .idle } := by
  cases h with
  | quiet hnone => simp [hnone] at hfile
  | writing _ _ _ _ _ _ _ hclient => rw [hw] at hclient; cases hclient
  | pending l c hsent hc hexec hf _ hserver =>
      exact .pending l c hsent hc hexec hf (.inl rfl) hserver
  | evaluating l c hsent hexec hf _ hserver =>
      exact .evaluating l c hsent hexec hf (.inl rfl) hserver
  | executed l c hsent hexec hf _ hserver => exact .executed l c hsent hexec hf (.inl rfl) hserver

lemma phase_timeout (h : Phase s) (hs : step s .timeout = some s') :
    Phase s' ∧ s'.acks = s.acks ∧ s'.executed = s.executed := by
  simp only [step] at hs
  split at hs
  · next n hw =>
    split at hs <;> cases hs
    next hfile => exact ⟨h.idle hfile hw, rfl, rfl⟩
  · cases hs

/-- A client that sees no file is waiting for the last send, whose deletion was the last. -/
lemma Phase.of_gone (h : Phase s) (hfile : s.cmdfile = none) {n : ℕ} (hw : s.client = .waiting n) :
    Phase { s with client := .idle, acks := s.acks ++ [⟨n, s.lastDeletion⟩] } ∧
      s.lastDeletion = some n ∧ n < s.executed.length := by
  cases h with
  | quiet hnone hserver hexec hclient =>
      rcases hclient with hclient | ⟨m, hclient, hlast, hdel⟩ <;> rw [hw] at hclient
      · cases hclient
      · obtain rfl := Client.waiting.inj hclient
        exact ⟨.quiet hnone hserver hexec (.inl rfl), hdel, by rw [hexec, length_served]; omega⟩
  | writing _ _ _ _ _ _ hf | pending _ _ _ _ _ hf | evaluating _ _ _ _ hf
  | executed _ _ _ _ hf => rw [hfile] at hf; cases hf

lemma phase_detect (h : Phase s) (hs : step s .detect = some s') :
    Phase s' ∧ s'.acks = s.acks ∧ s'.executed = s.executed := by
  simp only [step] at hs
  split at hs
  · next hpoll =>
    split at hs <;> cases hs
    next hfile =>
    refine ⟨?_, rfl, rfl⟩
    cases h with
    | quiet hnone => simp [hnone] at hfile
    | writing l c w hsent hc hexec hf hclient _ =>
        exact .writing l c w hsent hc hexec hf hclient (.inr rfl)
    | pending l c hsent hc hexec hf hclient _ =>
        exact .pending l c hsent hc hexec hf hclient (.inr rfl)
    | evaluating _ _ _ _ _ _ hserver => rw [hpoll] at hserver; cases hserver
    | executed _ _ _ _ _ _ hserver =>
        rcases hserver with hserver | ⟨exit, hserver⟩ <;> rw [hpoll] at hserver <;> cases hserver
  · cases hs

lemma phase_read (h : Phase s) (hg : Careful s .read) (hs : step s .read = some s') :
    Phase s' ∧ s'.acks = s.acks ∧ s.executed.length ≤ s'.executed.length := by
  simp only [step] at hs
  split at hs
  · next hdet =>
    -- the server has detected a file, so a command is pending
    cases h with
    | quiet _ hserver =>
        rcases hserver with hserver | hserver <;> rw [hdet] at hserver <;> cases hserver
    | writing _ _ _ _ _ _ _ hclient _ =>
        change s.client.isWriting = false at hg
        rw [hclient] at hg
        cases hg
    | pending l c hsent hc hexec hf hclient _ =>
        obtain ⟨f, hf', hs'⟩ := Option.bind_eq_some_iff.mp hs
        obtain rfl := Option.some.inj (hf.symm.trans hf')
        obtain rfl := Option.some.inj hs'
        refine ⟨?_, rfl, by simp⟩
        -- `exit` is executed by reading it
        by_cases hexit : strtrim c.text = "exit".toList
        · have hserve : serve ⟨l.length, c.text⟩ = .deleting l.length true := by
            rw [serve_text hc, if_pos hexit]
          refine .executed l c hsent ?_ hf hclient (.inr ⟨true, hserve⟩)
          change s.executed ++ executedAtRead (serve ⟨l.length, c.text⟩) = _
          rw [hserve, hexec, served_concat, hexit]
          rfl
        · have hserve : serve ⟨l.length, c.text⟩ = .evaluating l.length (strtrim c.text) := by
            rw [serve_text hc, if_neg hexit]
          refine .evaluating l c hsent ?_ hf hclient hserve
          change s.executed ++ executedAtRead (serve ⟨l.length, c.text⟩) = _
          rw [hserve, hexec]
          exact List.append_nil _
    | evaluating _ _ _ _ _ _ hserver => rw [hdet] at hserver; cases hserver
    | executed _ _ _ _ _ _ hserver =>
        rcases hserver with hserver | ⟨exit, hserver⟩ <;> rw [hdet] at hserver <;> cases hserver
  · cases hs

lemma phase_evalin {ok : Bool} (h : Phase s) (hg : Careful s (.evalin ok))
    (hs : step s (.evalin ok) = some s') :
    Phase s' ∧ s'.acks = s.acks ∧ s.executed.length ≤ s'.executed.length := by
  obtain rfl : ok = true := hg
  simp only [step] at hs
  split at hs
  · next n command heval =>
    cases hs
    refine ⟨?_, rfl, by simp⟩
    cases h with
    | quiet _ hserver =>
        rcases hserver with hserver | hserver <;> rw [heval] at hserver <;> cases hserver
    | writing _ _ _ _ _ _ _ _ hserver | pending _ _ _ _ _ _ _ hserver =>
        rcases hserver with hserver | hserver <;> rw [heval] at hserver <;> cases hserver
    | evaluating l c hsent hexec hf hclient hserver =>
        obtain ⟨rfl, rfl⟩ := Server.evaluating.inj (heval.symm.trans hserver)
        exact .executed l c hsent (by rw [served_concat, hexec]) hf hclient (.inl rfl)
    | executed _ _ _ _ _ _ hserver =>
        rcases hserver with hserver | ⟨exit, hserver⟩ <;> rw [heval] at hserver <;> cases hserver
  · cases hs

/-- A server that is done with a command is in the phase behind its execution. -/
lemma Phase.of_done (h : Phase s) {n : ℕ}
    (hd : s.server = .reporting n ∨ ∃ exit, s.server = .deleting n exit) :
    ∃ l c, s.sent = l ++ [c] ∧ s.executed = served (l ++ [c]) ∧ n = l.length ∧
      s.cmdfile = some ⟨l.length, c.text⟩ ∧
        (s.client = .idle ∨ s.client = .waiting l.length) := by
  cases h with
  | quiet _ hserver =>
      rcases hserver with hserver | hserver <;> simp [hserver] at hd
  | writing _ _ _ _ _ _ _ _ hserver | pending _ _ _ _ _ _ _ hserver =>
      rcases hserver with hserver | hserver <;> simp [hserver] at hd
  | evaluating _ _ _ _ _ _ hserver => simp [hserver] at hd
  | executed l c hsent hexec hf hclient hserver =>
      refine ⟨l, c, hsent, hexec, ?_, hf, hclient⟩
      rcases hserver with hserver | ⟨exit, hserver⟩ <;> simpa [hserver, eq_comm] using hd

lemma phase_report (h : Phase s) (hs : step s .report = some s') :
    Phase s' ∧ s'.acks = s.acks ∧ s'.executed = s.executed := by
  simp only [step] at hs
  split at hs
  · next n hrep =>
    cases hs
    obtain ⟨l, c, hsent, hexec, rfl, hf, hclient⟩ := h.of_done (.inl hrep)
    exact ⟨.executed l c hsent hexec hf hclient (.inr ⟨false, rfl⟩), rfl, rfl⟩
  · cases hs

lemma phase_delete (h : Phase s) (hs : step s .delete = some s') :
    Phase s' ∧ s'.acks = s.acks ∧ s'.executed = s.executed := by
  simp only [step] at hs
  split at hs
  · next n exit hdel =>
    cases hs
    obtain ⟨l, c, hsent, hexec, rfl, -, hclient⟩ := h.of_done (.inr ⟨exit, hdel⟩)
    refine ⟨.quiet rfl ?_ (by rw [hexec, ← hsent]) ?_, rfl, rfl⟩
    · cases exit
      · exact .inl rfl
      · exact .inr rfl
    · rcases hclient with hclient | hclient
      · exact .inl (by rw [hclient]; rfl)
      · exact .inr ⟨l.length, by rw [hclient]; rfl, by simp [hsent], rfl⟩
  · cases hs

/-- A step that acknowledges nothing keeps the acknowledgements. -/
lemma Orderly.of_phase (h : Orderly s)
    (hp : Phase s' ∧ s'.acks = s.acks ∧ s.executed.length ≤ s'.executed.length) : Orderly s' where
  phase := hp.1
  acks a ha := by
    obtain ⟨hdel, hlt⟩ := h.acks a (hp.2.1 ▸ ha)
    exact ⟨hdel, hlt.trans_le hp.2.2⟩

/-- **A careful step** goes from phase to phase. -/
lemma Orderly.step (h : Orderly s) {a : Action} (hg : Careful s a)
    (hs : CommandFile.step s a = some s') : Orderly s' := by
  -- most actions touch neither the acknowledged nor the executed commands
  have same : (Phase s' ∧ s'.acks = s.acks ∧ s'.executed = s.executed) → Orderly s' :=
    fun hp => h.of_phase ⟨hp.1, hp.2.1, by rw [hp.2.2]⟩
  cases a with
  | openFile c => exact same (phase_openFile h.phase hg hs)
  | flush chars => exact same (phase_flush h.phase hs)
  | close => exact same (phase_close h.phase hs)
  | timeout => exact same (phase_timeout h.phase hs)
  | detect => exact same (phase_detect h.phase hs)
  | report => exact same (phase_report h.phase hs)
  | delete => exact same (phase_delete h.phase hs)
  | read => exact h.of_phase (phase_read h.phase hg hs)
  | evalin ok => exact h.of_phase (phase_evalin h.phase hg hs)
  | poll =>
      simp only [CommandFile.step] at hs
      split at hs
      · next n hw =>
        split at hs <;> cases hs
        · exact h
        · next hnone =>
          -- the file is gone: the command has been acknowledged
          obtain ⟨hphase, hdel, hlt⟩ := h.phase.of_gone (by simpa using hnone) hw
          refine ⟨hphase, fun a ha => ?_⟩
          rcases List.mem_append.mp ha with hold | hnew
          · exact h.acks a hold
          · obtain rfl := List.mem_singleton.mp hnew
            exact ⟨hdel, hlt⟩
      · cases hs

lemma orderly_start : Orderly .start where
  phase := .quiet rfl (.inl rfl) rfl (.inl rfl)
  acks := by simp [State.start]

/-- **The protocol, where it works**: in every run of careful steps, every acknowledged
command has been executed exactly once, as a whole and without an error, the deletion that
acknowledges it is its own, and no command is lost. -/
theorem faithful_of_careful (actions : List Action) (s : State)
    (hrun : run step .start actions = some s) (hcareful : Guarded step Careful .start actions) :
    Faithful s :=
  (run_invariant Orderly (fun _ _ _ h hg hs => h.step hg hs) orderly_start hcareful hrun).faithful

/-- A command of one character. -/
def oneCharacter : Command := ⟨['x'], by decide⟩

/-- The run of a command whose `evalin` ends with or without an error, up to the poll that
sees the file gone. -/
def oneCommand (ok : Bool) : List Action :=
  [.openFile oneCharacter, .flush 1, .close, .poll, .detect, .read, .evalin ok] ++
    (if ok then [.report, .delete, .poll] else [.delete, .poll])

/-- The protocol serves a command. -/
theorem faithful_of_careful_oneCommand : ∃ s,
    run step .start (oneCommand true) = some s ∧ s.acks = [⟨0, some 0⟩] ∧ Faithful s := by
  have heval : (run step .start (oneCommand true)).map State.acks = some [⟨0, some 0⟩] := by decide
  obtain ⟨s, hs, hacks⟩ := Option.map_eq_some_iff.mp heval
  exact ⟨s, hs, hacks, faithful_of_careful _ s hs (by decide)⟩

/-- **An error of `evalin`** is acknowledged like a success: the server deletes the file in
its `catch` branch too, and the send returns `True`. -/
theorem not_faithful_evalinError :
    ¬ ∀ actions s, run step .start actions = some s → Faithful s := by
  intro hfaithful
  have heval : (run step .start (oneCommand false)).map (fun s => (s.acks, s.executed)) =
      some ([⟨0, some 0⟩], [⟨0, ['x'], false⟩]) := by decide
  obtain ⟨s, hs, hval⟩ := Option.map_eq_some_iff.mp heval
  obtain ⟨hacks, hexec⟩ := Prod.mk.inj hval
  obtain ⟨⟨c, -, honce⟩, -⟩ := (hfaithful _ s hs).acked ⟨0, some 0⟩ (by rw [hacks]; simp)
  rw [hexec] at honce
  simp at honce

end Icesee.CommandFile
