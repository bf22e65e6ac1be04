import Icesee.Lib.Interleaving
import Mathlib.Data.Finset.Basic
import Mathlib.Data.Fintype.Defs
import Mathlib.Data.Finset.Image

/-!
The launch of the MATLAB servers.

Every rank starts its own server (`_MatlabServer.launch`). Before it does so it lists the
processes of its node and terminates what looks like a MATLAB without display, one process
after the other; then it removes its old files, starts its server, and waits until the status
file says `ready`. Nothing orders the launches of two ranks, and the servers of the others look
like what is terminated. `step` is one step of a rank or of a starting server, in any
interleaving.

`alive_iff` says which servers are there in the end, and which other processes: a server is
terminated exactly if a rank of its node lists the processes after it was started.
`exists_alive` says that on every node one server is left.
-/

namespace Icesee.Launch

open Machine

/-! ### Processes -/

/-- What `psutil` says of a process. The name and the command line are `None` if they may not
be read. -/
structure Process where
  name : Option (List Char)
  cmdline : Option (List String)
  accessible : Bool

namespace Process

/-- `'matlab' in name.lower() or 'MATLAB' in name`. -/
def isMatlab (name : List Char) : Bool :=
  decide ("matlab".toList <:+: name.map Char.toLower) || decide ("MATLAB".toList <:+: name)

/-- `is_gui`. -/
def isGui (p : Process) : Bool :=
  match p.cmdline with
  | none => true
  | some args => !(["-nodisplay", "-nodesktop"].any fun flag => args.contains flag)

/-- The process is terminated when it is visited, if it has a name. -/
def killable (p : Process) : Bool :=
  match p.name with
  | none => false
  | some name => isMatlab name && !p.isGui && p.accessible

/-- A server: MATLAB, started without display. -/
def server (matlabPath command : String) : Process where
  name := some "MATLAB".toList
  cmdline := some [matlabPath, "-nodisplay", "-nosplash", "-r", command]
  accessible := true

lemma server_killable (matlabPath command : String) : (server matlabPath command).killable := by
  have hname : isMatlab "MATLAB".toList := by decide
  simp only [killable, server, hname]
  simp [isGui]

end Process

/-- The processes: the server of a rank, and the others. -/
inductive Pid (ι : Type) where
  | server (i : ι)
  | other (k : ℕ)
  deriving DecidableEq

/-- Where the ranks and the other processes run, and what the processes are. -/
structure Cluster (ι N : Type) where
  node : ι → N
  otherNode : ℕ → N
  other : ℕ → Process
  matlabPath : String
  command : ι → String

variable {ι N : Type}

namespace Cluster

variable (c : Cluster ι N)

/-- The node of a process. -/
def nodeOf : Pid ι → N
  | .server i => c.node i
  | .other k => c.otherNode k

@[simp] lemma nodeOf_server (i : ι) : c.nodeOf (.server i) = c.node i := rfl

@[simp] lemma nodeOf_other (k : ℕ) : c.nodeOf (.other k) = c.otherNode k := rfl

/-- What a process is. -/
def process : Pid ι → Process
  | .server i => Process.server c.matlabPath (c.command i)
  | .other k => c.other k

end Cluster

/-! ### The launches -/

/-- Where a rank is in `launch`; `scanning` has the listed processes that are not visited. -/
inductive Rank (ι : Type) where
  | start
  | scanning (rest : Finset (Pid ι))
  | cleaned
  | waiting
  | returned
  | failed

namespace Rank

/-- The list of a rank. -/
def list : Rank ι → Finset (Pid ι)
  | scanning rest => rest
  | _ => ∅

@[simp] lemma list_start : (start : Rank ι).list = ∅ := rfl

@[simp] lemma list_scanning (rest : Finset (Pid ι)) : (scanning rest).list = rest := rfl

end Rank

/-- The status file of a rank. -/
inductive Status where
  | absent
  | empty
  | ready

/-- The processes, the ranks and the status files. -/
structure State (ι : Type) where
  alive : Finset (Pid ι)
  rank : ι → Rank ι
  status : ι → Status

section Steps

variable [DecidableEq ι] [DecidableEq N]

/-- The beginning, with other processes and old files. -/
def State.init (others : Finset ℕ) (status : ι → Status) : State ι where
  alive := others.image Pid.other
  rank := fun _ => .start
  status := status

/-- What can happen next. `openStatus` and `writeStatus` are steps of a server, `raise` is an
exception before the server is started. -/
inductive Action (ι : Type) where
  | scan (i : ι)
  | visit (i : ι) (p : Pid ι)
  | clean (i : ι)
  | raise (i : ι)
  | spawn (i : ι)
  | openStatus (i : ι)
  | writeStatus (i : ι)
  | check (i : ι)
  | timeout (i : ι)
  deriving DecidableEq

/-- The rank ends with `sys.exit(1)` and terminates its server. -/
def State.exit (s : State ι) (i : ι) : State ι :=
  { s with alive := s.alive.erase (.server i), rank := Function.update s.rank i .failed }

/-- A process of the list is visited. A process without a name raises, and the rest of the list
is not visited. -/
def State.visit (c : Cluster ι N) (s : State ι) (i : ι) (rest : Finset (Pid ι)) (p : Pid ι) :
    State ι :=
  if p ∉ s.alive then { s with rank := Function.update s.rank i (.scanning (rest.erase p)) }
  else if (c.process p).name = none then
    { s with rank := Function.update s.rank i (.scanning ∅) }
  else { s with
    alive := if (c.process p).killable then s.alive.erase p else s.alive
    rank := Function.update s.rank i (.scanning (rest.erase p)) }

/-- One step; `none` if it is not there. -/
def step (c : Cluster ι N) (s : State ι) : Action ι → Option (State ι)
  | .scan i => match s.rank i with
      | .start => some { s with
          rank := Function.update s.rank i
            (.scanning (s.alive.filter fun p => c.nodeOf p = c.node i)) }
      | _ => none
  | .visit i p => match s.rank i with
      | .scanning rest => if p ∈ rest then some (s.visit c i rest p) else none
      | _ => none
  | .clean i => match s.rank i with
      | .scanning rest => if rest = ∅ then some { s with
            rank := Function.update s.rank i .cleaned
            status := Function.update s.status i .absent }
          else none
      | _ => none
  | .raise i => match s.rank i with
      | .cleaned => some { s with rank := Function.update s.rank i .failed }
      | _ => none
  | .spawn i => match s.rank i with
      | .cleaned => some { s with
          alive := insert (.server i) s.alive
          rank := Function.update s.rank i .waiting }
      | _ => none
  | .openStatus i => match s.status i with
      | .absent => if .server i ∈ s.alive then
            some { s with status := Function.update s.status i .empty } else none
      | _ => none
  | .writeStatus i => match s.status i with
      | .empty => if .server i ∈ s.alive then
            some { s with status := Function.update s.status i .ready } else none
      | _ => none
  | .check i => match s.rank i, s.status i with
      | .waiting, .ready => some { s with rank := Function.update s.rank i .returned }
      | .waiting, .empty => some (s.exit i)
      | _, _ => none
  | .timeout i => match s.rank i, s.status i with
      | .waiting, .absent => some (s.exit i)
      | _, _ => none

end Steps

/-! ### Late lists -/

/-- A rank of the node lists the processes after the server of rank `i` was started. -/
def Late (c : Cluster ι N) (as : List (Action ι)) (i : ι) : Prop :=
  ∃ pre j post, as = pre ++ .scan j :: post ∧ .spawn i ∈ pre ∧ c.node j = c.node i

variable {c : Cluster ι N} {as : List (Action ι)} {a : Action ι} {i j : ι} {s s' : State ι}

lemma late_concat : Late c (as ++ [a]) i ↔
    Late c as i ∨ ∃ j, a = .scan j ∧ .spawn i ∈ as ∧ c.node j = c.node i := by
  constructor
  · rintro ⟨pre, j, post, heq, hspawn, hnode⟩
    rcases List.eq_nil_or_concat post with rfl | ⟨post, b, rfl⟩
    · obtain ⟨rfl, h⟩ := List.append_inj' heq rfl
      exact .inr ⟨j, List.singleton_inj.mp h, hspawn, hnode⟩
    · rw [List.concat_eq_append, ← List.cons_append, ← List.append_assoc] at heq
      obtain ⟨rfl, -⟩ := List.append_inj' heq rfl
      exact .inl ⟨pre, j, post, rfl, hspawn, hnode⟩
  · rintro (⟨pre, j, post, rfl, hspawn, hnode⟩ | ⟨j, rfl, hspawn, hnode⟩)
    · exact ⟨pre, j, post ++ [a], by simp, hspawn, hnode⟩
    · exact ⟨as, j, [], rfl, hspawn, hnode⟩

lemma Late.spawn_mem (h : Late c as i) : .spawn i ∈ as := by
  obtain ⟨pre, j, post, rfl, hspawn, -⟩ := h
  exact List.mem_append_left _ hspawn

/-! ### What a step does -/

variable [DecidableEq ι] [DecidableEq N]

/-- What a step does to the processes and the ranks. -/
inductive Move (c : Cluster ι N) (s s' : State ι) : Action ι → Prop
  | scan (i : ι) (h : s.rank i = .start) (halive : s'.alive = s.alive)
      (hrank : s'.rank = Function.update s.rank i
        (.scanning (s.alive.filter fun p => c.nodeOf p = c.node i))) : Move c s s' (.scan i)
  | visit (i : ι) (p : Pid ι) (rest rest' : Finset (Pid ι)) (h : s.rank i = .scanning rest)
      (hp : p ∈ rest) (hrest : rest' = rest.erase p ∨ (c.process p).name = none ∧ rest' = ∅)
      (halive : s'.alive = if (c.process p).killable then s.alive.erase p else s.alive)
      (hrank : s'.rank = Function.update s.rank i (.scanning rest')) : Move c s s' (.visit i p)
  | clean (i : ι) (h : s.rank i = .scanning ∅) (halive : s'.alive = s.alive)
      (hrank : s'.rank = Function.update s.rank i .cleaned) : Move c s s' (.clean i)
  | raise (i : ι) (h : s.rank i = .cleaned) (halive : s'.alive = s.alive)
      (hrank : s'.rank = Function.update s.rank i .failed) : Move c s s' (.raise i)
  | spawn (i : ι) (h : s.rank i = .cleaned) (halive : s'.alive = insert (.server i) s.alive)
      (hrank : s'.rank = Function.update s.rank i .waiting) : Move c s s' (.spawn i)
  | check (i : ι) (h : s.rank i = .waiting) (halive : s'.alive = s.alive)
      (hrank : s'.rank = Function.update s.rank i .returned) : Move c s s' (.check i)
  | exit (a : Action ι) (i : ι) (ha : a = .check i ∨ a = .timeout i) (h : s.rank i = .waiting)
      (halive : s'.alive = s.alive.erase (.server i))
      (hrank : s'.rank = Function.update s.rank i .failed) : Move c s s' a
  | status (a : Action ι) (i : ι) (ha : a = .openStatus i ∨ a = .writeStatus i)
      (halive : s'.alive = s.alive) (hrank : s'.rank = s.rank) : Move c s s' a

/-- A visited process that is not there any more is not terminated again. -/
lemma move_visit {rest : Finset (Pid ι)} {p : Pid ι} (h : s.rank i = .scanning rest)
    (hp : p ∈ rest) : Move c s (s.visit c i rest p) (.visit i p) := by
  by_cases halive : p ∈ s.alive
  · by_cases hname : (c.process p).name = none
    · rw [State.visit, if_neg (not_not.mpr halive), if_pos hname]
      refine .visit i p rest _ h hp (.inr ⟨hname, rfl⟩) ?_ rfl
      simp [Process.killable, hname]
    · rw [State.visit, if_neg (not_not.mpr halive), if_neg hname]
      exact .visit i p rest _ h hp (.inl rfl) rfl rfl
  · rw [State.visit, if_pos halive]
    refine .visit i p rest _ h hp (.inl rfl) ?_ rfl
    rw [Finset.erase_eq_of_notMem halive, ite_self]

lemma move_of_step (h : step c s a = some s') : Move c s s' a := by
  -- an action is possible in one place of its rank only
  cases a with
  | scan i =>
      cases hr : s.rank i with
      | start =>
          simp only [step, hr] at h
          obtain rfl := Option.some.inj h
          exact .scan i hr rfl rfl
      | _ => simp [step, hr] at h
  | visit i p =>
      cases hr : s.rank i with
      | scanning rest =>
          simp only [step, hr] at h
          split_ifs at h with hp
          obtain rfl := Option.some.inj h
          exact move_visit hr hp
      | _ => simp [step, hr] at h
  | clean i =>
      cases hr : s.rank i with
      | scanning rest =>
          simp only [step, hr] at h
          split_ifs at h with hrest
          obtain rfl := Option.some.inj h
          exact .clean i (by rw [hr, hrest]) rfl rfl
      | _ => simp [step, hr] at h
  | raise i =>
      cases hr : s.rank i with
      | cleaned =>
          simp only [step, hr] at h
          obtain rfl := Option.some.inj h
          exact .raise i hr rfl rfl
      | _ => simp [step, hr] at h
  | spawn i =>
      cases hr : s.rank i with
      | cleaned =>
          simp only [step, hr] at h
          obtain rfl := Option.some.inj h
          exact .spawn i hr rfl rfl
      | _ => simp [step, hr] at h
  | openStatus i =>
      cases hs : s.status i with
      | absent =>
          simp only [step, hs] at h
          split_ifs at h
          obtain rfl := Option.some.inj h
          exact .status _ i (.inl rfl) rfl rfl
      | _ => simp [step, hs] at h
  | writeStatus i =>
      cases hs : s.status i with
      | empty =>
          simp only [step, hs] at h
          split_ifs at h
          obtain rfl := Option.some.inj h
          exact .status _ i (.inr rfl) rfl rfl
      | _ => simp [step, hs] at h
  | check i =>
      cases hr : s.rank i with
      | waiting =>
          cases hs : s.status i with
          | absent => simp [step, hr, hs] at h
          | empty =>
              simp only [step, hr, hs] at h
              obtain rfl := Option.some.inj h
              exact .exit _ i (.inl rfl) hr rfl rfl
          | ready =>
              simp only [step, hr, hs] at h
              obtain rfl := Option.some.inj h
              exact .check i hr rfl rfl
      | _ => simp [step, hr] at h
  | timeout i =>
      cases hr : s.rank i with
      | waiting =>
          cases hs : s.status i with
          | absent =>
              simp only [step, hr, hs] at h
              obtain rfl := Option.some.inj h
              exact .exit _ i (.inr rfl) hr rfl rfl
          | _ => simp [step, hr, hs] at h
      | _ => simp [step, hr] at h

/-! ### The servers -/

/-- Some rank is going to visit the process. -/
def Listed (s : State ι) (p : Pid ι) : Prop := ∃ j, p ∈ (s.rank j).list

lemma listed_update {r : Rank ι} {p : Pid ι} (hrank : s'.rank = Function.update s.rank j r) :
    Listed s' p ↔ p ∈ r.list ∨ ∃ k, k ≠ j ∧ p ∈ (s.rank k).list := by
  rw [Listed, hrank]
  constructor
  · rintro ⟨k, hk⟩
    by_cases hkj : k = j
    · subst hkj
      exact .inl (by simpa using hk)
    · exact .inr ⟨k, hkj, by simpa [hkj] using hk⟩
  · rintro (h | ⟨k, hkj, hk⟩)
    · exact ⟨j, by simpa using h⟩
    · exact ⟨k, by simpa [hkj] using hk⟩

lemma listed_iff (j : ι) {p : Pid ι} :
    Listed s p ↔ p ∈ (s.rank j).list ∨ ∃ k, k ≠ j ∧ p ∈ (s.rank k).list :=
  listed_update (Function.update_eq_self j s.rank).symm

/-- A step that keeps the list of its rank. -/
lemma listed_congr {r : Rank ι} {p : Pid ι} (hrank : s'.rank = Function.update s.rank j r)
    (hlist : r.list = (s.rank j).list) : Listed s' p ↔ Listed s p := by
  rw [listed_update hrank, listed_iff j, hlist]

/-- What a run makes of the server of rank `i`: only a late list holds it, and a server that no
late list has found is kept. -/
structure Fate (c : Cluster ι N) (i : ι) (as : List (Action ι)) (s : State ι) : Prop where
  notSpawned : .spawn i ∉ as → .server i ∉ s.alive
  spawned : .spawn i ∈ as → s.rank i = .waiting ∨ s.rank i = .returned ∨ s.rank i = .failed
  launched : s.rank i = .waiting ∨ s.rank i = .returned → .spawn i ∈ as
  late : Listed s (.server i) → Late c as i
  kept : ¬ Late c as i → s.rank i = .waiting ∨ s.rank i = .returned → .server i ∈ s.alive

/-- A late list holds the server until it is terminated. -/
def Held (c : Cluster ι N) (i : ι) (as : List (Action ι)) (s : State ι) : Prop :=
  Late c as i → .server i ∈ s.alive → Listed s (.server i)

omit [DecidableEq ι] [DecidableEq N] in
lemma late_concat_of_ne (h : ∀ j, a ≠ .scan j) : Late c (as ++ [a]) i ↔ Late c as i := by
  rw [late_concat, or_iff_left]
  rintro ⟨j, rfl, -⟩
  exact h j rfl

omit [DecidableEq N] in
/-- A visit finds nothing that was not listed. -/
lemma listed_of_visit {p q : Pid ι} {rest rest' : Finset (Pid ι)} (h : s.rank j = .scanning rest)
    (hrest : rest' = rest.erase p ∨ (c.process p).name = none ∧ rest' = ∅)
    (hrank : s'.rank = Function.update s.rank j (.scanning rest')) (hlist : Listed s' q) :
    Listed s q := by
  rw [listed_update hrank, Rank.list_scanning] at hlist
  rw [listed_iff j, h, Rank.list_scanning]
  refine hlist.imp_left fun hq => ?_
  rcases hrest with rfl | ⟨-, rfl⟩
  · exact Finset.mem_of_mem_erase hq
  · exact absurd hq (Finset.notMem_empty q)

/-- **A step** of any rank or server, for the server of rank `i`. -/
lemma fate_step (hf : Fate c i as s) (hm : Move c s s' a) : Fate c i (as ++ [a]) s' := by
  obtain ⟨h1, h2, h3, h4, h5⟩ := hf
  have hlate : (∀ j, a ≠ .scan j) → (Late c (as ++ [a]) i ↔ Late c as i) := late_concat_of_ne
  cases hm with
  | scan j h halive hrank =>
      have hlist : Listed s' (.server i) ↔
          (.server i ∈ s.alive ∧ c.node i = c.node j) ∨ Listed s (.server i) := by
        rw [listed_update hrank, listed_iff j, h]
        simp
      have hlate : Late c (as ++ [.scan j]) i ↔
          Late c as i ∨ .spawn i ∈ as ∧ c.node j = c.node i := by
        simp [late_concat]
      constructor
      all_goals
        simp only [halive, hrank, hlate, hlist, List.mem_append, List.mem_singleton]
        grind [Function.update_apply]
  | visit j p rest rest' h hp hrest halive hrank =>
      have hlist : Listed s' (.server i) → Listed s (.server i) :=
        listed_of_visit h hrest hrank
      have hlate := hlate (by simp)
      -- the server is terminated by a late list only
      have hmem : .server i ∈ s'.alive ↔ .server i ∈ s.alive ∧ p ≠ .server i := by
        rw [halive]
        by_cases hpi : p = .server i
        · subst hpi
          have hkill : (c.process (.server i)).killable := Process.server_killable _ _
          simp [hkill]
        · split_ifs <;> simp [hpi, Ne.symm hpi]
      have hfound : p = .server i → Late c as i := by
        rintro rfl
        exact h4 ⟨j, by simpa [h] using hp⟩
      constructor
      all_goals
        simp only [hmem, hrank, hlate, List.mem_append, List.mem_singleton]
        grind [Function.update_apply]
  | clean j h halive hrank | raise j h halive hrank | spawn j h halive hrank
  | check j h halive hrank =>
      have hlist : Listed s' (.server i) ↔ Listed s (.server i) :=
        listed_congr hrank (by simp [Rank.list, h])
      have hlate := hlate (by simp)
      constructor
      all_goals
        simp only [halive, hrank, hlate, hlist, List.mem_append, List.mem_singleton]
        grind [Function.update_apply]
  | exit a j ha h halive hrank =>
      have hlist : Listed s' (.server i) ↔ Listed s (.server i) :=
        listed_congr hrank (by simp [Rank.list, h])
      have hlate := hlate (by grind)
      constructor
      all_goals
        simp only [halive, hrank, hlate, hlist, List.mem_append, List.mem_singleton]
        grind [Function.update_apply]
  | status a j ha halive hrank =>
      have hlist : Listed s' (.server i) ↔ Listed s (.server i) := by
        rw [Listed, Listed, hrank]
      have hlate := hlate (by grind)
      constructor
      all_goals
        simp only [halive, hrank, hlate, hlist, List.mem_append, List.mem_singleton]
        grind

/-- A list is cut off only where a process has no name. -/
lemma held_step (hnamed : ∀ k, (c.other k).name ≠ none) (hf : Fate c i as s)
    (hh : Held c i as s) (hm : Move c s s' a) : Held c i (as ++ [a]) s' := by
  have hlate : (∀ j, a ≠ .scan j) → (Late c (as ++ [a]) i ↔ Late c as i) := late_concat_of_ne
  cases hm with
  | scan j h halive hrank =>
      intro hlate halive'
      rw [halive] at halive'
      rw [listed_update hrank]
      rcases late_concat.mp hlate with hlate | ⟨k, hk, -, hnode⟩
      · have hlist := hh hlate halive'
        rw [listed_iff j, h] at hlist
        simpa using Or.inr (hlist.resolve_left (by simp))
      · -- the new list has the server
        obtain rfl := Action.scan.inj hk
        exact .inl (by simpa using ⟨halive', hnode.symm⟩)
  | visit j p rest rest' h hp hrest halive hrank =>
      have hname : (c.process p).name ≠ none := by
        cases p with
        | server k => simp [Cluster.process, Process.server]
        | other k => exact hnamed k
      obtain rfl := hrest.resolve_right fun hn => hname hn.1
      intro hlate' halive'
      rw [hlate (by simp)] at hlate'
      have hpi : p ≠ .server i := by
        rintro rfl
        have hkill : (c.process (.server i)).killable := Process.server_killable _ _
        simp [halive, hkill] at halive'
      have hlist := hh hlate' (by rw [halive] at halive'; split_ifs at halive' <;> simp_all)
      rw [listed_iff j, h] at hlist
      rw [listed_update hrank]
      exact hlist.imp_left fun hmem => Finset.mem_erase.mpr ⟨hpi.symm, hmem⟩
  | spawn j h halive hrank =>
      have hlist : Listed s' (.server i) ↔ Listed s (.server i) :=
        listed_congr hrank (by simp [Rank.list, h])
      rw [Held, hlate (by simp), hlist, halive]
      intro hl hmem
      rcases Finset.mem_insert.mp hmem with heq | hmem
      · -- a rank does not start its server twice
        obtain rfl := Pid.server.inj heq
        have := hf.spawned hl.spawn_mem
        simp [h] at this
      · exact hh hl hmem
  | clean j h halive hrank | raise j h halive hrank | check j h halive hrank =>
      have hlist : Listed s' (.server i) ↔ Listed s (.server i) :=
        listed_congr hrank (by simp [Rank.list, h])
      rw [Held, hlate (by simp), hlist, halive]
      exact hh
  | exit a j ha h halive hrank =>
      have hlist : Listed s' (.server i) ↔ Listed s (.server i) :=
        listed_congr hrank (by simp [Rank.list, h])
      rw [Held, hlate (by grind), hlist, halive]
      exact fun hl hmem => hh hl (Finset.mem_of_mem_erase hmem)
  | status a j ha halive hrank =>
      rw [Held, hlate (by grind), Listed, hrank, halive]
      exact hh

/-! ### The other processes -/

/-- What a run makes of another process, if all processes have a name. -/
structure OtherFate (c : Cluster ι N) (others : Finset ℕ) (k : ℕ) (s : State ι) : Prop where
  old : .other k ∈ s.alive → k ∈ others
  ofNode : ∀ j, .other k ∈ (s.rank j).list → c.node j = c.otherNode k
  terminated : k ∈ others → .other k ∉ s.alive →
    (c.other k).killable ∧ ∃ j, c.node j = c.otherNode k ∧ s.rank j ≠ .start
  listed : .other k ∈ s.alive → (c.other k).killable → ∀ j, c.node j = c.otherNode k →
    s.rank j ≠ .start → .other k ∈ (s.rank j).list

variable {others : Finset ℕ} {k : ℕ}

lemma otherFate_step (hnamed : ∀ k, (c.other k).name ≠ none) (hf : OtherFate c others k s)
    (hm : Move c s s' a) : OtherFate c others k s' := by
  obtain ⟨h1, h2, h3, h4⟩ := hf
  cases hm with
  | scan i h halive hrank =>
      constructor
      all_goals
        simp only [halive, hrank]
        grind [Function.update_apply, Rank.list_scanning, Cluster.nodeOf_other]
  | visit i p rest rest' h hp hrest halive hrank =>
      -- a name that can be read makes the visit go on
      have hname : (c.process p).name ≠ none := by
        cases p with
        | server k => simp [Cluster.process, Process.server]
        | other k => exact hnamed k
      obtain rfl := hrest.resolve_right fun hn => hname hn.1
      have hnode := h2 i
      -- only a visit of `k` itself can end it
      by_cases hpk : p = .other k
      · subst hpk
        have hmem : .other k ∈ s'.alive ↔ .other k ∈ s.alive ∧ ¬ (c.other k).killable := by
          by_cases hkill : (c.other k).killable <;> simp [halive, Cluster.process, hkill]
        constructor
        all_goals
          simp only [hmem, hrank]
          grind [Function.update_apply, Rank.list_scanning]
      · have hmem : .other k ∈ s'.alive ↔ .other k ∈ s.alive := by
          rw [halive]
          split_ifs <;> simp [Ne.symm hpk]
        constructor
        all_goals
          simp only [hmem, hrank]
          grind [Function.update_apply, Rank.list_scanning]
  | clean i h halive hrank | raise i h halive hrank | spawn i h halive hrank
  | check i h halive hrank =>
      constructor
      all_goals
        simp only [halive, hrank]
        grind [Function.update_apply, Rank.list]
  | exit a i ha h halive hrank =>
      constructor
      all_goals
        simp only [halive, hrank]
        grind [Function.update_apply, Rank.list]
  | status a i ha halive hrank =>
      constructor
      all_goals
        simp only [halive, hrank]
        assumption

/-! ### Whole runs -/

variable {status : ι → Status}

lemma fate_run (h : run (step c) (State.init others status) as = some s) (i : ι) :
    Fate c i as s := by
  refine run_induction (Fate c i) ?_ (fun as t a u _ hf hu => fate_step hf (move_of_step hu)) h
  refine ⟨fun _ => ?_, ?_, ?_, ?_, ?_⟩
  all_goals simp [State.init, Listed, Late]

lemma held_run (hnamed : ∀ k, (c.other k).name ≠ none)
    (h : run (step c) (State.init others status) as = some s) (i : ι) : Held c i as s := by
  refine run_induction (Held c i) ?_
    (fun as t a u ht hf hu => held_step hnamed (fate_run ht i) hf (move_of_step hu)) h
  simp [Held, State.init, Late]

lemma otherFate_run (hnamed : ∀ k, (c.other k).name ≠ none)
    (h : run (step c) (State.init others status) as = some s) (k : ℕ) : OtherFate c others k s := by
  refine run_induction (fun _ => OtherFate c others k) ?_
    (fun as t a u _ hf hu => otherFate_step hnamed hf (move_of_step hu)) h
  refine ⟨?_, ?_, ?_, ?_⟩
  all_goals simp [State.init]

/-- **The processes after the launches**: when no rank has anything left to visit, the server of
a rank that has returned is there exactly if no list of its node is later than its start. Of
the other processes those are gone that look like a MATLAB without display, on the nodes where
a rank has listed the processes. -/
theorem alive_iff (hnamed : ∀ k, (c.other k).name ≠ none)
    (h : run (step c) (State.init others status) as = some s)
    (hquiet : ∀ j, (s.rank j).list = ∅) :
    (∀ i, s.rank i = .returned → (.server i ∈ s.alive ↔ ¬ Late c as i)) ∧
      ∀ k, .other k ∈ s.alive ↔ k ∈ others ∧
        ¬ ((c.other k).killable ∧ ∃ j, c.node j = c.otherNode k ∧ s.rank j ≠ .start) := by
  constructor
  · intro i hi
    refine ⟨fun halive hlate => ?_, fun hlate => (fate_run h i).kept hlate (.inr hi)⟩
    obtain ⟨j, hj⟩ := held_run hnamed h i hlate halive
    simp [hquiet] at hj
  · intro k
    obtain ⟨hold, -, hterm, hlisted⟩ := otherFate_run hnamed h k
    constructor
    · intro halive
      refine ⟨hold halive, fun ⟨hkill, j, hnode, hj⟩ => ?_⟩
      simpa [hquiet] using hlisted halive hkill j hnode hj
    · rintro ⟨hk, hfree⟩
      by_contra hdead
      exact hfree (hterm hk hdead)

/-- Two ranks of a node, without other processes. -/
def pair : Cluster Bool Unit where
  node := fun _ => ()
  otherNode := fun _ => ()
  other := fun _ => ⟨some [], none, true⟩
  matlabPath := "matlab"
  command := fun _ => "matlab_server"

/-- The one rank launches its server after the other. -/
def inTurn : List (Action Bool) :=
  [.scan false, .clean false, .spawn false, .openStatus false, .writeStatus false, .check false,
    .scan true, .visit true (.server false), .clean true, .spawn true, .openStatus true,
    .writeStatus true, .check true]

lemma inTurn_returned : ∃ s, run (step pair) (State.init ∅ fun _ => .empty) inTurn = some s ∧
    ∀ i, s.rank i = .returned := by
  refine ⟨_, rfl, fun i => ?_⟩
  cases i <;> rfl

theorem inTurn_not_alive : ∃ s, run (step pair) (State.init ∅ fun _ => .empty) inTurn = some s ∧
    .server false ∉ s.alive := by
  obtain ⟨s, hrun, hreturned⟩ := inTurn_returned
  have hquiet : ∀ j, (s.rank j).list = ∅ := fun j => by rw [hreturned j]; rfl
  have hlate : Late pair inTurn false :=
    ⟨inTurn.take 6, true, inTurn.drop 7, rfl, by decide, rfl⟩
  have halive := (alive_iff (by simp [pair]) hrun hquiet).1 false (hreturned false)
  exact ⟨s, hrun, fun h => halive.mp h hlate⟩

/-- A rank begins with its list. -/
lemma Move.start_iff (hm : Move c s s' a) (i : ι) :
    s'.rank i = .start ↔ s.rank i = .start ∧ a ≠ .scan i := by
  cases hm with
  | scan j h halive hrank | visit j p rest rest' h hp hrest halive hrank | clean j h halive hrank
  | raise j h halive hrank | spawn j h halive hrank | check j h halive hrank
  | exit a j ha h halive hrank | status a j ha halive hrank =>
      rw [hrank]
      grind [Function.update_apply]

/-- On every node with a list there is a rank whose server no list has found: the one that was
the last to list the processes. -/
structure LastList (c : Cluster ι N) (as : List (Action ι)) (s : State ι) : Prop where
  begun : ∀ i, .spawn i ∈ as → s.rank i ≠ .start
  last : ∀ i, s.rank i ≠ .start → ∃ j, c.node j = c.node i ∧ s.rank j ≠ .start ∧ ¬ Late c as j

lemma lastList_step (hl : LastList c as s) (hm : Move c s s' a) : LastList c (as ++ [a]) s' := by
  have hstart := hm.start_iff
  constructor
  · intro i hi
    rcases List.mem_append.mp hi with hi | hi
    · exact fun h => hl.begun i hi ((hstart i).mp h).1
    · obtain rfl := List.mem_singleton.mp hi
      cases hm with
      | spawn i h halive hrank => simp [hrank]
      | exit a j ha => simp at ha
      | status a j ha => simp at ha
  · intro i hi
    by_cases hscan : ∃ j, a = .scan j
    · obtain ⟨j, rfl⟩ := hscan
      cases hm with
      | scan j h halive hrank =>
          by_cases hnode : c.node j = c.node i
          · -- the server of this rank is not started yet
            have hspawn : .spawn j ∉ as := fun hj => hl.begun j hj h
            refine ⟨j, hnode, by simp [hrank], fun hlate => ?_⟩
            rcases late_concat.mp hlate with hlate | ⟨-, -, hj, -⟩
            · exact hspawn hlate.spawn_mem
            · exact hspawn hj
          · have hi' : s.rank i ≠ .start := fun h' => hi ((hstart i).mpr ⟨h', by grind⟩)
            obtain ⟨k, hk, hrk, hlate⟩ := hl.last i hi'
            refine ⟨k, hk, fun h' => hrk ((hstart k).mp h').1, fun hlate' => ?_⟩
            rcases late_concat.mp hlate' with hlate' | ⟨l, hl', -, hl⟩
            · exact hlate hlate'
            · obtain rfl := Action.scan.inj hl'
              exact hnode (hl.trans hk)
      | exit a j ha => simp at ha
      | status a j ha => simp at ha
    · have hne : ∀ j, a ≠ .scan j := fun j h => hscan ⟨j, h⟩
      have hi' : s.rank i ≠ .start := fun h' => hi ((hstart i).mpr ⟨h', hne i⟩)
      obtain ⟨k, hk, hrk, hlate⟩ := hl.last i hi'
      exact ⟨k, hk, fun h' => hrk ((hstart k).mp h').1, (late_concat_of_ne hne).not.mpr hlate⟩

lemma lastList_run (h : run (step c) (State.init others status) as = some s) : LastList c as s := by
  refine run_induction (LastList c) ?_
    (fun as t a u _ hl hu => lastList_step hl (move_of_step hu)) h
  exact ⟨by simp, by simp [State.init]⟩

/-- **A server is left** on every node, if all ranks have returned: that of the rank which was
the last to list the processes. -/
theorem exists_alive (h : run (step c) (State.init others status) as = some s)
    (hreturned : ∀ i, s.rank i = .returned) (i : ι) :
    ∃ j, c.node j = c.node i ∧ ¬ Late c as j ∧ .server j ∈ s.alive := by
  obtain ⟨j, hnode, -, hlate⟩ := (lastList_run h).last i (by simp [hreturned])
  exact ⟨j, hnode, hlate, (fate_run h j).kept hlate (.inr (hreturned j))⟩

theorem inTurn_exists_alive :
    ∃ s, run (step pair) (State.init ∅ fun _ => .empty) inTurn = some s ∧
      ∃ j, pair.node j = pair.node false ∧ ¬ Late pair inTurn j ∧ .server j ∈ s.alive := by
  obtain ⟨s, hrun, hreturned⟩ := inTurn_returned
  exact ⟨s, hrun, exists_alive hrun hreturned false⟩

end Icesee.Launch
