import Icesee.Lib.Interleaving
import Icesee.Lib.Keyed
import Mathlib.Data.Fintype.Basic
import Mathlib.Data.List.Basic

/-!
Ranks that run one program and meet in collective calls.

The program of a rank is a tree: it ends with a value, or it makes a call and goes on with
the result. A call takes place when all ranks of its group have come to it (`fire`); ranks
outside the group do not take part, so calls of disjoint groups interleave. Such calls
commute (`commutes_fire`), which gives the facts about all interleavings: whether the ranks
come to an end does not depend on the order of the calls.

Two ways in which they do not come to an end are that two ranks wait for each other
(`not_finishes_of_crossed`) and that a rank waits for one that has ended
(`not_finishes_of_left`). In a run that ends, the calls on which all ranks meet are the
same, in the same order, on the paths of all ranks (`path_of_run`).
-/

namespace Spmd

/-- The program of a rank. -/
inductive Prog (Op V R : Type) where
  | ret (r : R)
  | call (op : Op) (x : V) (next : V → Prog Op V R)

namespace Prog

variable {Op V R S : Type}

/-- One program after the other. -/
def bind : Prog Op V R → (R → Prog Op V S) → Prog Op V S
  | ret r, f => f r
  | call op x next, f => call op x fun v => (next v).bind f

/-- A call as a program of its own. -/
def perform (op : Op) (x : V) : Prog Op V V := call op x ret

@[simp] lemma bind_ret (r : R) (f : R → Prog Op V S) : (ret r).bind f = f r := rfl

@[simp] lemma bind_call (op : Op) (x : V) (next : V → Prog Op V R) (f : R → Prog Op V S) :
    (call op x next).bind f = call op x fun v => (next v).bind f := rfl

@[simp] lemma bind_perform (op : Op) (x : V) (f : V → Prog Op V S) :
    (perform op x).bind f = call op x f := rfl

/-- What a rank brings to a call, if it has come to it. -/
def offer [DecidableEq Op] (op : Op) : Prog Op V R → Option V
  | ret _ => none
  | call op' x _ => if op' = op then some x else none

/-- How a rank goes on after its call. -/
def resume (v : V) : Prog Op V R → Prog Op V R
  | ret r => ret r
  | call _ _ next => next v

/-- The rank has ended. -/
def Ended (p : Prog Op V R) : Prop := ∃ r, p = ret r

variable [DecidableEq Op]

lemma offer_eq_some {op : Op} {p : Prog Op V R} {x : V} :
    p.offer op = some x ↔ ∃ next, p = call op x next := by
  cases p with
  | ret r => simp [offer]
  | call op' y next =>
      rw [offer]
      constructor
      · intro h
        split_ifs at h with hop
        obtain rfl := Option.some.inj h
        exact ⟨next, by rw [hop]⟩
      · rintro ⟨next', h⟩
        obtain ⟨rfl, rfl, -⟩ := call.inj h
        exact if_pos rfl

end Prog

open Prog

/-- The groups of the calls, and what a call delivers to a rank for what the group brings. -/
structure Comms (ι Op V : Type) where
  group : Op → List ι
  deliver : Op → List V → ι → V

/-- A program for each rank. -/
abbrev State (ι Op V R : Type) := ι → Prog Op V R

variable {ι Op V R : Type} [DecidableEq ι] [DecidableEq Op] (c : Comms ι Op V)

/-- A call takes place: the ranks of its group have come to it, and there is one. -/
def fire (s : State ι Op V R) (op : Op) : Option (State ι Op V R) :=
  if c.group op = [] then none
  else ((c.group op).mapM fun r => (s r).offer op).map fun xs r =>
    if r ∈ c.group op then (s r).resume (c.deliver op xs r) else s r

/-- All ranks have ended. -/
def Done (s : State ι Op V R) : Prop := ∀ r, (s r).Ended

/-- Some run ends on all ranks. -/
abbrev Finishes (s : State ι Op V R) : Prop := Machine.CanEnd (fire c) Done s

variable {c} {s s' t : State ι Op V R} {op : Op}

/-! ### A call -/

/-- What is found for a list is found for each of its elements. -/
lemma exists_of_mapM {α β : Type} {f : α → Option β} {l : List α} {ys : List β}
    (h : l.mapM f = some ys) : ∀ a ∈ l, ∃ b, f a = some b := by
  intro a ha
  have hall := Keyed.mapM_eq_some_iff.mp h
  clear h
  induction hall with
  | nil => simp at ha
  | cons hb _ ih =>
      rcases List.mem_cons.mp ha with rfl | hmem
      · exact ⟨_, hb⟩
      · exact ih hmem

lemma mapM_eq_map {α β : Type} {f : α → Option β} {g : α → β} {l : List α}
    (h : ∀ a ∈ l, f a = some (g a)) : l.mapM f = some (l.map g) := by
  rw [Keyed.mapM_eq_some_iff, List.forall₂_map_right_iff, List.forall₂_same]
  exact h

lemma mapM_congr {α β : Type} {f g : α → Option β} {l : List α} (h : ∀ a ∈ l, f a = g a) :
    l.mapM f = l.mapM g := by
  induction l with
  | nil => rfl
  | cons a l ih =>
      rw [List.mapM_cons, List.mapM_cons, h a (by simp), ih fun b hb => h b (by simp [hb])]

lemma fire_eq_some : fire c s op = some s' ↔ c.group op ≠ [] ∧
    ∃ xs, ((c.group op).mapM fun r => (s r).offer op) = some xs ∧
      s' = fun r => if r ∈ c.group op then (s r).resume (c.deliver op xs r) else s r := by
  rw [fire]
  split_ifs with hg
  · simp [hg]
  · simp only [Option.map_eq_some_iff, ne_eq, hg, not_false_eq_true, true_and, eq_comm]

/-- The ranks that a call does not concern are as before. -/
lemma fire_of_notMem (h : fire c s op = some s') {r : ι} (hr : r ∉ c.group op) :
    s' r = s r := by
  obtain ⟨-, xs, -, rfl⟩ := fire_eq_some.mp h
  exact if_neg hr

/-- Where a rank of the group goes on. -/
lemma fire_of_mem (h : fire c s op = some s') {r : ι} (hr : r ∈ c.group op) :
    ∃ x next v, s r = call op x next ∧ s' r = next v := by
  obtain ⟨-, xs, hxs, rfl⟩ := fire_eq_some.mp h
  obtain ⟨x, hx⟩ := exists_of_mapM hxs r hr
  obtain ⟨next, hnext⟩ := offer_eq_some.mp hx
  refine ⟨x, next, c.deliver op xs r, hnext, ?_⟩
  simp only [if_pos hr, hnext]
  rfl

/-- A call that all ranks of its group have come to. -/
lemma fire_call (hg : c.group op ≠ []) {x : ι → V} {next : ι → V → Prog Op V R}
    (h : ∀ r ∈ c.group op, s r = call op (x r) (next r)) :
    fire c s op = some fun r => if r ∈ c.group op
      then next r (c.deliver op ((c.group op).map x) r) else s r := by
  refine fire_eq_some.mpr ⟨hg, (c.group op).map x, mapM_eq_map fun r hr => ?_, ?_⟩
  · exact offer_eq_some.mpr ⟨next r, h r hr⟩
  · funext r
    by_cases hr : r ∈ c.group op
    · simp only [if_pos hr, h r hr]
      rfl
    · simp only [if_neg hr]

/-- Two calls that can both take place have no rank in common. -/
lemma disjoint_of_fire {a b : Op} {s₁ s₂ : State ι Op V R} (hab : a ≠ b)
    (ha : fire c s a = some s₁) (hb : fire c s b = some s₂) :
    ∀ r ∈ c.group a, r ∉ c.group b := by
  intro r hra hrb
  obtain ⟨x, next, -, hx, -⟩ := fire_of_mem ha hra
  obtain ⟨y, next', -, hy, -⟩ := fire_of_mem hb hrb
  exact hab (call.inj (hx.symm.trans hy)).1

/-- A call does not see what another one has done to ranks outside its group. -/
lemma fire_congr {s₁ : State ι Op V R} (hfire : fire c s op = some s')
    (heq : ∀ r ∈ c.group op, s₁ r = s r) :
    fire c s₁ op = some fun r => if r ∈ c.group op then s' r else s₁ r := by
  obtain ⟨hg, xs, hxs, rfl⟩ := fire_eq_some.mp hfire
  refine fire_eq_some.mpr ⟨hg, xs, ?_, ?_⟩
  · rw [← hxs]
    exact mapM_congr fun r hr => by rw [heq r hr]
  · funext r
    by_cases hr : r ∈ c.group op
    · simp only [if_pos hr, heq r hr]
    · simp only [if_neg hr]

/-- **Calls commute.** -/
theorem commutes_fire : Machine.Commutes (fire (R := R) c) := by
  intro s a b s₁ s₂ hab ha hb
  have hdisj := disjoint_of_fire hab ha hb
  have hsame : ∀ r ∈ c.group b, s₁ r = s r := fun r hr =>
    fire_of_notMem ha fun hra => hdisj r hra hr
  have ha' := fire_congr ha fun r hr => fire_of_notMem hb (hdisj r hr)
  have hb' := fire_congr hb hsame
  refine ⟨_, hb', ?_⟩
  rw [ha']
  refine congrArg some (funext fun r => ?_)
  by_cases hra : r ∈ c.group a
  · simp only [if_pos hra, if_neg (hdisj r hra)]
  · by_cases hrb : r ∈ c.group b
    · simp only [if_neg hra, if_pos hrb]
    · simp only [if_neg hra, if_neg hrb, fire_of_notMem ha hra, fire_of_notMem hb hrb]

/-- Where all ranks have ended there are no more calls. -/
lemma Done.stopped (h : Done s) : Machine.Stopped (fire c) s := by
  intro op
  by_contra hfire
  obtain ⟨s', hs'⟩ := Option.ne_none_iff_exists'.mp hfire
  obtain ⟨hg, -⟩ := fire_eq_some.mp hs'
  obtain ⟨r, hr⟩ := List.exists_mem_of_ne_nil _ hg
  obtain ⟨x, next, v, hcall, -⟩ := fire_of_mem hs' hr
  obtain ⟨y, hy⟩ := h r
  exact nomatch hy.symm.trans hcall

/-! ### Coming to an end -/

/-- **All interleavings**: the ranks can come to an end exactly if every run can be
continued until they have. -/
theorem finishes_iff : Finishes c s ↔ Machine.AlwaysEnds (fire c) Done s :=
  Machine.canEnd_iff commutes_fire fun _ h => h.stopped

lemma stopped_ret {z : ι → R} (t : State ι Op V R) (ht : t = fun r => ret (z r)) :
    Machine.Stopped (fire c) t := by
  subst ht
  exact Done.stopped fun r => ⟨z r, rfl⟩

variable (c) in
/-- Whatever the interleaving, the ranks come to an end, with these values. -/
def EndsWith (z : ι → R) (s : State ι Op V R) : Prop :=
  Machine.AlwaysEnds (fire c) (· = fun r => ret (z r)) s

/-- To know the values of all interleavings it is enough to know those of one. -/
theorem endsWith_iff {z : ι → R} :
    EndsWith c z s ↔ Machine.CanEnd (fire c) (· = fun r => ret (z r)) s :=
  (Machine.canEnd_iff commutes_fire stopped_ret).symm

lemma finishes_of_done (h : Done s) : Finishes c s := Machine.canEnd_of_final h

lemma finishes_fire (h : fire c s op = some s') : Finishes c s ↔ Finishes c s' :=
  Machine.canEnd_step commutes_fire (fun _ h => h.stopped) h

/-- Ranks of several groups that have come to the calls of their groups. The groups are given
by colors, and those of the list have a call. -/
lemma canEnd_groups {κ : Type} [DecidableEq κ] {final : State ι Op V R → Prop}
    (hfinal : ∀ t, final t → Machine.Stopped (fire c) t) (op : κ → Op) (color : ι → κ) {x : ι → V}
    {next : ι → V → Prog Op V R} {l : List κ} (hl : l.Nodup)
    (hgroup : ∀ k ∈ l, c.group (op k) ≠ [] ∧ ∀ r, r ∈ c.group (op k) ↔ color r = k)
    (h : ∀ r, color r ∈ l → s r = call (op (color r)) (x r) (next r)) :
    Machine.CanEnd (fire c) final s ↔ Machine.CanEnd (fire c) final fun r =>
      if color r ∈ l then next r
        (c.deliver (op (color r)) ((c.group (op (color r))).map x) r)
      else s r := by
  induction l generalizing s with
  | nil => simp
  | cons k l ih =>
      -- the group of the first color makes its call; the other colors are as before
      obtain ⟨hk, hl⟩ := List.nodup_cons.mp hl
      obtain ⟨hne, hmem⟩ := hgroup k List.mem_cons_self
      have hcall : ∀ r ∈ c.group (op k), s r = call (op k) (x r) (next r) := by
        intro r hr
        obtain rfl := (hmem r).mp hr
        exact h r List.mem_cons_self
      have hrest : ∀ r, color r ∈ l → (if r ∈ c.group (op k)
          then next r (c.deliver (op k) ((c.group (op k)).map x) r) else s r) =
            call (op (color r)) (x r) (next r) := by
        intro r hr
        rw [if_neg fun hr' => hk ((hmem r).mp hr' ▸ hr), h r (List.mem_cons_of_mem _ hr)]
      rw [Machine.canEnd_step commutes_fire hfinal
        (fire_call hne hcall), ih hl (fun k' hk' => hgroup k' (List.mem_cons_of_mem _ hk')) hrest]
      refine iff_of_eq (congrArg _ (funext fun r => ?_))
      by_cases hr : color r = k
      · subst hr
        rw [if_neg hk, if_pos ((hmem r).mpr rfl), if_pos List.mem_cons_self]
      · have hr' : r ∉ c.group (op k) := fun hr' => hr ((hmem r).mp hr')
        simp only [List.mem_cons, hr, false_or, if_neg hr']

/-- All ranks have come to one call. -/
lemma canEnd_meet {final : State ι Op V R → Prop}
    (hfinal : ∀ t, final t → Machine.Stopped (fire c) t) {op : Op}
    (hne : c.group op ≠ []) (hall : ∀ r, r ∈ c.group op) {x : ι → V}
    {next : ι → V → Prog Op V R} :
    Machine.CanEnd (fire c) final (fun r => call op (x r) (next r)) ↔
      Machine.CanEnd (fire c) final fun r =>
        next r (c.deliver op ((c.group op).map x) r) := by
  rw [canEnd_groups hfinal (fun _ : Unit => op) (fun _ => ()) (l := [()]) (by simp)
    (fun _ _ => ⟨hne, fun r => by simp [hall r]⟩) (fun _ _ => rfl)]
  simp

/-- A rank that has come to a call stays there as long as another rank of the group has
not, and that one stays at its own call, which is waiting for the first. -/
theorem not_finishes_of_crossed {a b : Op} (hab : a ≠ b) {r q : ι} {x y : V}
    {next next' : V → Prog Op V R} (hr : s r = call a x next) (hq : s q = call b y next')
    (hqa : q ∈ c.group a) (hrb : r ∈ c.group b) : ¬ Finishes c s := by
  refine Machine.not_canEnd_of_invariant
    (fun s => s r = call a x next ∧ s q = call b y next') (fun s op s' hs hfire => ?_)
    ⟨hr, hq⟩ fun t ht hdone => ?_
  · obtain ⟨hr, hq⟩ := hs
    have hr' : r ∉ c.group op := by
      intro hmem
      obtain ⟨x', n', -, hcall, -⟩ := fire_of_mem hfire hmem
      obtain rfl := (call.inj (hr.symm.trans hcall)).1
      obtain ⟨y', m', -, hcall', -⟩ := fire_of_mem hfire hqa
      exact hab (call.inj (hq.symm.trans hcall')).1.symm
    have hq' : q ∉ c.group op := by
      intro hmem
      obtain ⟨y', m', -, hcall, -⟩ := fire_of_mem hfire hmem
      obtain rfl := (call.inj (hq.symm.trans hcall)).1
      exact hr' hrb
    exact ⟨(fire_of_notMem hfire hr').trans hr, (fire_of_notMem hfire hq').trans hq⟩
  · obtain ⟨z, hz⟩ := hdone r
    exact nomatch hz.symm.trans ht.1

/-- A rank waits for one that has ended. -/
theorem not_finishes_of_left {a : Op} {r q : ι} {x : V} {next : V → Prog Op V R} {z : R}
    (hr : s r = call a x next) (hq : s q = ret z) (hqa : q ∈ c.group a) : ¬ Finishes c s := by
  refine Machine.not_canEnd_of_invariant
    (fun s => s r = call a x next ∧ s q = ret z) (fun s op s' hs hfire => ?_)
    ⟨hr, hq⟩ fun t ht hdone => ?_
  · obtain ⟨hr, hq⟩ := hs
    have hq' : q ∉ c.group op := by
      intro hmem
      obtain ⟨y', m', -, hcall, -⟩ := fire_of_mem hfire hmem
      exact nomatch hq.symm.trans hcall
    have hr' : r ∉ c.group op := by
      intro hmem
      obtain ⟨x', n', -, hcall, -⟩ := fire_of_mem hfire hmem
      obtain rfl := (call.inj (hr.symm.trans hcall)).1
      exact hq' hqa
    exact ⟨(fire_of_notMem hfire hr').trans hr, (fire_of_notMem hfire hq').trans hq⟩
  · obtain ⟨w, hw⟩ := hdone r
    exact nomatch hw.symm.trans ht.1

/-! ### Paths -/

/-- A program goes on to another one with some calls. -/
inductive Path : Prog Op V R → List Op → Prog Op V R → Prop
  | refl (p : Prog Op V R) : Path p [] p
  | step {op : Op} {x v : V} {next : V → Prog Op V R} {ops : List Op} {q : Prog Op V R}
      (h : Path (next v) ops q) : Path (call op x next) (op :: ops) q

/-- **Paths of a run**: a rank takes part in the calls of its groups, in the order of the
run. -/
theorem path_of_run {ops : List Op} (h : Machine.run (fire c) s ops = some s') (r : ι) :
    Path (s r) (ops.filter fun op => r ∈ c.group op) (s' r) := by
  induction ops generalizing s with
  | nil =>
      obtain rfl := Option.some.inj h
      exact .refl _
  | cons op ops ih =>
      obtain ⟨s₁, hfire, hrest⟩ := Machine.run_cons_eq_some.mp h
      by_cases hr : r ∈ c.group op
      · obtain ⟨x, next, v, hcall, hnext⟩ := fire_of_mem hfire hr
        rw [List.filter_cons_of_pos (by simpa using hr), hcall]
        exact .step (hnext ▸ ih hrest)
      · rw [List.filter_cons_of_neg (by simpa using hr), ← fire_of_notMem hfire hr]
        exact ih hrest

omit [DecidableEq Op]

/-- A path through one program and then another one. -/
lemma Path.of_bind {S : Type} {p : Prog Op V R} {f : R → Prog Op V S} {ops : List Op} {z : S}
    (h : Path (p.bind f) ops (ret z)) :
    ∃ ops₁ ops₂ r, ops = ops₁ ++ ops₂ ∧ Path p ops₁ (ret r) ∧ Path (f r) ops₂ (ret z) := by
  induction p generalizing ops with
  | ret r => exact ⟨[], ops, r, rfl, .refl _, h⟩
  | call op x next ih =>
      rw [bind_call] at h
      cases h with
      | step hrest =>
          obtain ⟨ops₁, ops₂, r, rfl, h₁, h₂⟩ := ih _ hrest
          exact ⟨op :: ops₁, ops₂, r, rfl, .step h₁, h₂⟩

lemma path_ret {r r' : R} {ops : List Op} (h : Path (V := V) (ret r) ops (ret r')) :
    ops = [] ∧ r = r' := by
  cases h
  exact ⟨rfl, rfl⟩

lemma path_call {op : Op} {x : V} {next : V → Prog Op V R} {ops : List Op} {z : R}
    (h : Path (call op x next) ops (ret z)) :
    ∃ v rest, ops = op :: rest ∧ Path (next v) rest (ret z) := by
  cases h with
  | step hrest => exact ⟨_, _, rfl, hrest⟩

/-- The calls on which all ranks meet are the same on the paths of all ranks. -/
theorem filter_path {ops : List Op} (p : Op → Bool)
    (hp : ∀ op, p op → ∀ r, r ∈ c.group op) (r : ι) :
    (ops.filter fun op => r ∈ c.group op).filter p = ops.filter p := by
  rw [List.filter_filter]
  refine List.filter_congr fun op _ => ?_
  cases hop : p op
  · simp
  · simp [hp op hop r]

/-! ### Straight programs -/

/-- The calls of a list, one after the other, for their own sake. -/
def line (v : V) (r : R) : List Op → Prog Op V R
  | [] => ret r
  | op :: ops => call op v fun _ => line v r ops

lemma path_line {v : V} {r z : R} {l ops : List Op} (h : Path (line v r l) ops (ret z)) :
    ops = l := by
  induction l generalizing ops with
  | nil => exact (path_ret h).1
  | cons op l ih =>
      obtain ⟨-, rest, rfl, hrest⟩ := path_call h
      rw [ih hrest]

variable [DecidableEq Op]

/-- A rank makes the calls in which it is alone. -/
lemma finishes_alone {v : V} {r : ι} {z : R} {l l' : List Op}
    (hl : ∀ op ∈ l, c.group op = [r]) (hs : s r = line v z (l ++ l')) :
    Finishes c s ↔ Finishes c (Function.update s r (line v z l')) := by
  induction l generalizing s with
  | nil => rw [← List.nil_append l', ← hs, Function.update_eq_self]
  | cons op l ih =>
      have hop : c.group op = [r] := hl op List.mem_cons_self
      have hcall : ∀ q ∈ c.group op, s q = call op v fun _ => line v z (l ++ l') := by
        intro q hq
        rw [hop, List.mem_singleton] at hq
        rw [hq, hs]
        rfl
      have hne : c.group op ≠ [] := by simp [hop]
      have hstep : (fun q => if q ∈ c.group op then line v z (l ++ l') else s q) =
          Function.update s r (line v z (l ++ l')) := by
        funext q
        by_cases hq : q = r
        · subst hq
          simp [hop]
        · simp [hop, hq]
      rw [finishes_fire (fire_call hne hcall), hstep,
        ih (fun op' h => hl op' (List.mem_cons_of_mem _ h)) (by simp),
        Function.update_idem]

/-- The ranks of a list make the calls in which they are alone. -/
lemma finishes_alones {v : V} {z : ι → R} {pre : ι → List Op} (rest : ι → List Op)
    {rs : List ι} (hrs : rs.Nodup) (hpre : ∀ r, ∀ op ∈ pre r, c.group op = [r])
    (hs : ∀ r ∈ rs, s r = line v (z r) (pre r ++ rest r)) :
    Finishes c s ↔ Finishes c fun r => if r ∈ rs then line v (z r) (rest r) else s r := by
  induction rs generalizing s with
  | nil => simp
  | cons r rs ih =>
      obtain ⟨hr, hrs⟩ := List.nodup_cons.mp hrs
      have hother : ∀ q ∈ rs, Function.update s r (line v (z r) (rest r)) q =
          line v (z q) (pre q ++ rest q) := by
        intro q hq
        have hne : q ≠ r := fun h => hr (h ▸ hq)
        rw [Function.update_of_ne hne, hs q (List.mem_cons_of_mem _ hq)]
      rw [finishes_alone (hpre r) (hs r List.mem_cons_self), ih hrs hother]
      refine iff_of_eq (congrArg _ (funext fun q => ?_))
      by_cases hq : q = r
      · subst hq
        simp [hr]
      · simp [hq]

/-- **Straight programs**: ranks that make their calls alone or all together come to an end
exactly if they make the same calls together, in the same order. -/
theorem finishes_lines_iff [Fintype ι] [Nonempty ι] {v : V} {z : ι → R} {l : ι → List Op}
    (meets : Op → Bool) (hmeets : ∀ op, meets op → ∀ r, r ∈ c.group op)
    (halone : ∀ r, ∀ op ∈ l r, ¬ meets op → c.group op = [r]) :
    Finishes c (fun r => line v (z r) (l r)) ↔
      ∀ r q, (l r).filter meets = (l q).filter meets := by
  constructor
  · rintro ⟨ops, t, hrun, hdone⟩ r q
    have hpath : ∀ r, (l r).filter meets = ops.filter meets := by
      intro r
      obtain ⟨w, hw⟩ := hdone r
      have hr := path_of_run hrun r
      rw [hw] at hr
      rw [← path_line hr, filter_path meets hmeets r]
    rw [hpath r, hpath q]
  · intro h
    obtain ⟨r₀⟩ := ‹Nonempty ι›
    obtain ⟨m, hm⟩ : ∃ m, ∀ r, (l r).filter meets = m := ⟨_, fun r => h r r₀⟩
    clear h
    induction m generalizing l with
    | nil =>
        have hall : ∀ r, ∀ op ∈ l r, c.group op = [r] := fun r op hop =>
          halone r op hop (List.filter_eq_nil_iff.mp (hm r) op hop)
        rw [finishes_alones (fun _ => [])
          (Finset.nodup_toList Finset.univ) hall fun r _ => by rw [List.append_nil]]
        exact finishes_of_done fun r => ⟨z r, by simp [line]⟩
    | cons op m ih =>
        -- before the first call together every rank is alone
        have hsplit : ∀ r, ∃ pre rest, l r = pre ++ op :: rest ∧ (∀ a ∈ pre, ¬ meets a) ∧
            meets op ∧ rest.filter meets = m := by
          intro r
          obtain ⟨pre, rest, heq, hpre, hop, hrest⟩ := List.filter_eq_cons_iff.mp (hm r)
          exact ⟨pre, rest, heq, hpre, hop, hrest⟩
        choose pre rest heq hpre hop hrest using hsplit
        have hmem : ∀ r, ∀ a ∈ rest r, a ∈ l r := fun r a ha => by
          rw [heq r]
          exact List.mem_append_right _ (List.mem_cons_of_mem _ ha)
        have hlone : ∀ r, ∀ a ∈ pre r, c.group a = [r] := fun r a ha =>
          halone r a (by rw [heq r]; exact List.mem_append_left _ ha) (hpre r a ha)
        have hgroup := hmeets op (hop r₀)
        rw [finishes_alones (fun r => op :: rest r)
          (Finset.nodup_toList Finset.univ) hlone fun r _ => by rw [heq r]]
        simp only [Finset.mem_toList, Finset.mem_univ, if_true]
        refine (canEnd_meet (fun _ h => h.stopped) (List.ne_nil_of_mem (hgroup r₀)) hgroup).mpr ?_
        exact ih (fun r a ha => halone r a (hmem r a ha)) hrest

end Spmd
