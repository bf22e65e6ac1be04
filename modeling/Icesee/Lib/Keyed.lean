import Mathlib.Data.List.Basic
import Mathlib.Data.List.Forall2
import Mathlib.Logic.Function.Basic
import Mathlib.Tactic.Common

/-!
Loops over keys that each rewrite the entry of their own key.

`visit` checks one key and rewrites its entry, `sweep` visits a list of keys in order.
A sweep fails at the first check that fails, and otherwise every key has its entry
rewritten once, whatever the order and the repetitions, if rewriting twice is rewriting
once (`sweep_ok_iff`, `sweep_apply`). `fill` computes the entries of `0, 1, 2, …` from a
list, one after the other (`fill_ok_iff`, `fill_apply`). `collect` puts the lists that the
keys contribute one after the other (`collect_eq_ok`). `table` enters what the keys of a
list compute, and `table_toOption_eq_iff` says when two tables are the same. A loop that
rewrites the entry of every key once is `foldl_update_apply`, and one that enters what
belongs to the number of a key is `foldl_update_zipIdx`.
-/

namespace Keyed

variable {K β ε : Type} [DecidableEq K]

/-- A computation in two parts succeeds if both do. -/
lemma bind_eq_ok {α β ε : Type} {x : Except ε α} {f : α → Except ε β} {b : β} :
    (x >>= f) = .ok b ↔ ∃ a, x = .ok a ∧ f a = .ok b := by
  cases x with
  | error e => simp [bind, Except.bind]
  | ok a => simp [bind, Except.bind]

lemma throw_eq {α ε : Type} {e : ε} : (throw e : Except ε α) = .error e := rfl

/-- What comes after an error is not run. -/
lemma throw_bind_ne_ok {α β ε : Type} {e : ε} {f : α → Except ε β} {b : β} :
    (throw e >>= f) ≠ .ok b := nofun

/-- A check that raises, and what comes after it. -/
lemma check_eq_ok {c : Prop} [Decidable c] {β ε : Type} {e : ε} {x : Except ε β} {b : β} :
    (do if c then throw e
        x) = Except.ok b ↔ ¬ c ∧ x = .ok b := by
  split_ifs with hc
  · exact iff_of_false throw_bind_ne_ok fun h => h.1 hc
  · exact (and_iff_right hc).symm

/-- A check with nothing after it. -/
lemma last_check_eq_ok {c : Prop} [Decidable c] {ε : Type} {e : ε} :
    (if c then throw e else pure () : Except ε Unit) = .ok () ↔ ¬ c := by
  split_ifs with hc
  · exact iff_of_false nofun fun h => h hc
  · exact iff_of_true rfl hc

/-- Two loops whose bodies agree on the elements of the list. -/
lemma foldlM_congr {α ε σ : Type} {f g : σ → α → Except ε σ} {l : List α}
    (h : ∀ a ∈ l, ∀ s, f s a = g s a) (s : σ) : l.foldlM f s = l.foldlM g s := by
  induction l generalizing s with
  | nil => rfl
  | cons a l ih =>
      rw [List.foldlM_cons, List.foldlM_cons, h a List.mem_cons_self]
      exact congrArg _ (funext fun s => ih (fun b hb => h b (List.mem_cons_of_mem a hb)) s)

/-- A loop over the numbered elements whose body needs the numbers only. -/
lemma foldlM_zipIdx {α ε σ : Type} {f : σ → α × ℕ → Except ε σ} {g : σ → ℕ → Except ε σ}
    {l : List α} (h : ∀ i a, l[i]? = some a → ∀ s, f s (a, i) = g s i) (s : σ) :
    l.zipIdx.foldlM f s = (List.range l.length).foldlM g s := by
  rw [List.range_eq_range', ← List.zipIdx_map_snd, List.foldlM_map]
  exact foldlM_congr (fun p hp s => h p.2 p.1 (List.mem_zipIdx_iff_getElem?.mp hp) s) s

/-- What is looked up for every element of a list is found for each of them, in order. -/
lemma mapM_eq_some_iff {α γ : Type} {f : α → Option γ} {l : List α} {r : List γ} :
    l.mapM f = some r ↔ List.Forall₂ (fun a b => f a = some b) l r := by
  induction l generalizing r with
  | nil =>
      rw [List.forall₂_nil_left_iff]
      exact Option.some_inj.trans eq_comm
  | cons a l ih =>
      rw [List.mapM_cons, List.forall₂_cons_left_iff]
      simp only [← ih, Option.bind_eq_bind, Option.bind_eq_some_iff, Option.pure_def,
        Option.some.injEq]
      constructor
      · rintro ⟨b, hb, rest, hrest, rfl⟩
        exact ⟨b, rest, hb, hrest, rfl⟩
      · rintro ⟨b, rest, hb, hrest, rfl⟩
        exact ⟨b, hb, rest, hrest, rfl⟩

/-- A lookup for every element of a list goes through if each of them is found. -/
lemma exists_mapM_eq_some_iff {α γ : Type} {f : α → Option γ} {l : List α} :
    (∃ r, l.mapM f = some r) ↔ ∀ a ∈ l, ∃ b, f a = some b := by
  induction l with
  | nil => exact iff_of_true ⟨[], rfl⟩ fun a ha => absurd ha List.not_mem_nil
  | cons a l ih =>
      rw [List.forall_mem_cons, ← ih]
      simp only [mapM_eq_some_iff, List.forall₂_cons_left_iff]
      constructor
      · rintro ⟨_, b, rest, hb, hrest, rfl⟩
        exact ⟨⟨b, hb⟩, rest, hrest⟩
      · rintro ⟨⟨b, hb⟩, rest, hrest⟩
        exact ⟨_, b, rest, hb, hrest, rfl⟩

/-- A loop that rewrites the entry of every key of a list without repetitions. -/
lemma foldl_update_apply {f : K → β → β} {l : List K} (hl : l.Nodup) (c : K → β) (b : K) :
    l.foldl (fun c a => Function.update c a (f a (c a))) c b =
      if b ∈ l then f b (c b) else c b := by
  induction l generalizing c with
  | nil => rfl
  | cons a l ih =>
      obtain ⟨ha, hl⟩ := List.nodup_cons.mp hl
      rw [List.foldl_cons, ih hl]
      by_cases hb : b = a
      · subst hb
        simp [ha]
      · simp [hb]

/-- A loop over numbered keys leaves the entries of other keys. -/
lemma foldl_update_zipIdx_of_notMem {f : ℕ → β} {l : List K} (n : ℕ) (c : K → β) {a : K}
    (ha : a ∉ l) : (l.zipIdx n).foldl (fun c p => Function.update c p.1 (f p.2)) c a = c a := by
  induction l generalizing n c with
  | nil => rfl
  | cons b l ih =>
      rw [List.mem_cons, not_or] at ha
      rw [List.zipIdx_cons, List.foldl_cons, ih _ _ ha.2, Function.update_of_ne ha.1]

/-- A loop over numbered keys without repetitions that enters what belongs to the number. -/
lemma foldl_update_zipIdx {f : ℕ → β} {l : List K} (hl : l.Nodup) (n : ℕ) (c : K → β) {i : ℕ}
    {a : K} (h : l[i]? = some a) :
    (l.zipIdx n).foldl (fun c p => Function.update c p.1 (f p.2)) c a = f (n + i) := by
  induction l generalizing n c i with
  | nil => simp at h
  | cons b l ih =>
      obtain ⟨hb, hl⟩ := List.nodup_cons.mp hl
      rw [List.zipIdx_cons, List.foldl_cons]
      cases i with
      | zero =>
          obtain rfl : b = a := by simpa using h
          rw [foldl_update_zipIdx_of_notMem _ _ hb, Function.update_self, Nat.add_zero]
      | succ i =>
          rw [ih hl _ _ (by simpa using h), Nat.add_right_comm, Nat.add_assoc]

/-- Visit key `a`: if it takes part, check it and rewrite its entry. -/
def visit (act : K → Bool) (check : K → Except ε Unit) (f : K → β → β) (c : K → β) (a : K) :
    Except ε (K → β) :=
  if act a then do
    check a
    return Function.update c a (f a (c a))
  else return c

/-- Visit the keys of a list, from the left. -/
def sweep (act : K → Bool) (check : K → Except ε Unit) (f : K → β → β) (l : List K)
    (c : K → β) : Except ε (K → β) :=
  l.foldlM (visit act check f) c

variable {act : K → Bool} {check : K → Except ε Unit} {f : K → β → β} {l : List K} {c c' : K → β}
  {a : K}

lemma visit_skip (h : act a = false) : visit act check f c a = .ok c := by
  simp [visit, h, pure, Except.pure]

lemma visit_act (h : act a) (hc : check a = .ok ()) :
    visit act check f c a = .ok (Function.update c a (f a (c a))) := by
  simp [visit, h, hc, bind, Except.bind, pure, Except.pure]

lemma visit_error {e : ε} (h : act a) (hc : check a = .error e) :
    visit act check f c a = .error e := by
  simp [visit, h, hc, bind, Except.bind]

lemma sweep_cons_ok : sweep act check f (a :: l) c = .ok c' ↔
    ∃ m, visit act check f c a = .ok m ∧ sweep act check f l m = .ok c' := by
  rw [sweep, List.foldlM_cons, bind_eq_ok]
  rfl

/-- A sweep goes through exactly if every key that takes part passes its check. -/
theorem sweep_ok_iff : (∃ c', sweep act check f l c = .ok c') ↔
    ∀ a ∈ l, act a → check a = .ok () := by
  induction l generalizing c with
  | nil => simp [sweep, pure, Except.pure]
  | cons a l ih =>
      simp only [sweep_cons_ok, List.forall_mem_cons]
      rw [exists_comm]
      cases ha : act a
      · simp [visit_skip ha, ih]
      · cases hc : check a with
        | error e => simp [visit_error ha hc]
        | ok u => simp [visit_act ha hc, ih]

/-- What a sweep leaves at a key: its entry rewritten if the key is in the list and takes
part, and the old entry otherwise. -/
theorem sweep_apply (h : sweep act check f l c = .ok c') (hf : ∀ a x, f a (f a x) = f a x)
    (b : K) : c' b = if b ∈ l ∧ act b then f b (c b) else c b := by
  induction l generalizing c with
  | nil =>
      obtain rfl := Except.ok.inj h
      simp
  | cons a l ih =>
      obtain ⟨m, hm, hrest⟩ := sweep_cons_ok.mp h
      rw [ih hrest]
      cases ha : act a
      · obtain rfl := Except.ok.inj ((visit_skip ha).symm.trans hm)
        refine if_congr ?_ rfl rfl
        rw [List.mem_cons]
        exact ⟨fun hb => ⟨.inr hb.1, hb.2⟩, fun hb =>
          ⟨hb.1.resolve_left fun he => by simp [he ▸ hb.2] at ha, hb.2⟩⟩
      · cases hc : check a with
        | error e => simp [visit_error ha hc] at hm
        | ok u =>
            obtain rfl := Except.ok.inj ((visit_act ha hc).symm.trans hm)
            rcases eq_or_ne b a with rfl | hne
            · simp [ha, hf]
            · simp [hne]

/-! ### Filling an array from a list -/

/-- Entry `n + i` computed from element `i` of the list, from the left. -/
def fill {α : Type} (entry : ℕ → α → Except ε β) (l : List α) (n : ℕ) (m : ℕ → β) :
    Except ε (ℕ → β) :=
  (l.zipIdx n).foldlM (fun m (a, i) => return Function.update m i (← entry i a)) m

variable {α : Type} {entry : ℕ → α → Except ε β} {x : α} {xs : List α} {n : ℕ} {m m' : ℕ → β}

lemma fill_cons_ok : fill entry (x :: xs) n m = .ok m' ↔
    ∃ b, entry n x = .ok b ∧ fill entry xs (n + 1) (Function.update m n b) = .ok m' := by
  rw [fill, List.zipIdx_cons, List.foldlM_cons, bind_eq_ok]
  simp only [bind_eq_ok]
  constructor
  · rintro ⟨m₁, ⟨b, hb, hm₁⟩, hrest⟩
    obtain rfl := Except.ok.inj hm₁
    exact ⟨b, hb, hrest⟩
  · rintro ⟨b, hb, hrest⟩
    exact ⟨_, ⟨b, hb, rfl⟩, hrest⟩

/-- The array is filled exactly if every entry can be computed. -/
theorem fill_ok_iff : (∃ m', fill entry xs n m = .ok m') ↔
    ∀ i a, xs[i]? = some a → ∃ b, entry (n + i) a = .ok b := by
  induction xs generalizing n m with
  | nil => simp [fill, pure, Except.pure]
  | cons x xs ih =>
      simp only [fill_cons_ok]
      rw [exists_comm]
      constructor
      · rintro ⟨b, m', hb, hrest⟩ i a hi
        cases i with
        | zero =>
            obtain rfl : x = a := by simpa using hi
            exact ⟨b, hb⟩
        | succ i =>
            obtain ⟨b', hb'⟩ := ih.mp ⟨m', hrest⟩ i a (by simpa using hi)
            exact ⟨b', by rwa [Nat.add_right_comm] at hb'⟩
      · intro h
        obtain ⟨b, hb⟩ := h 0 x rfl
        obtain ⟨m', hm'⟩ := ih (n := n + 1) (m := Function.update m n b).mpr fun i a hi => by
          rw [Nat.add_right_comm]
          exact h (i + 1) a (by simpa using hi)
        exact ⟨b, m', hb, hm'⟩

/-- What is filled in, and what stays. -/
theorem fill_apply (h : fill entry xs n m = .ok m') :
    (∀ i a, xs[i]? = some a → entry (n + i) a = .ok (m' (n + i))) ∧
      ∀ j, j < n ∨ n + xs.length ≤ j → m' j = m j := by
  induction xs generalizing n m with
  | nil =>
      obtain rfl := Except.ok.inj h
      simp
  | cons x xs ih =>
      obtain ⟨b, hb, hrest⟩ := fill_cons_ok.mp h
      obtain ⟨hin, hout⟩ := ih hrest
      refine ⟨fun i a hi => ?_, fun j hj => ?_⟩
      · cases i with
        | zero =>
            obtain rfl : x = a := by simpa using hi
            rw [Nat.add_zero, hout n (by omega), Function.update_self, hb]
        | succ i =>
            have := hin i a (by simpa using hi)
            rwa [Nat.add_right_comm] at this
      · rw [List.length_cons] at hj
        rw [hout j (by omega), Function.update_of_ne (by omega)]

/-! ### Lists -/

/-- What the keys of a list contribute, one after the other. -/
def collect {β : Type} (f : K → Except ε (List β)) (l : List K) : Except ε (List β) :=
  l.foldlM (fun acc a => do return acc ++ (← f a)) []

/-- **Collecting** goes through exactly if every key contributes, and then gives all of the
contributions in order. -/
theorem collect_eq_ok {β : Type} {f : K → Except ε (List β)} {l : List K} {rs : List β} :
    collect f l = .ok rs ↔ ∃ g : K → List β, (∀ a ∈ l, f a = .ok (g a)) ∧ rs = l.flatMap g := by
  have key : ∀ (l : List K) (acc : List β),
      l.foldlM (fun acc a => do return acc ++ (← f a)) acc = .ok rs ↔
        ∃ g : K → List β, (∀ a ∈ l, f a = .ok (g a)) ∧ rs = acc ++ l.flatMap g := by
    intro l
    induction l with
    | nil =>
        intro acc
        simp [pure, Except.pure, eq_comm]
    | cons a l ih =>
        intro acc
        rw [List.foldlM_cons, bind_eq_ok]
        constructor
        · rintro ⟨acc', hacc, hrest⟩
          obtain ⟨r, hr, hr'⟩ := bind_eq_ok.mp hacc
          obtain rfl := Except.ok.inj hr'
          obtain ⟨g, hg, rfl⟩ := (ih _).mp hrest
          -- a repeated key contributes the same list again
          have hagain : ∀ b ∈ l, Function.update g a r b = g b := by
            intro b hb
            rcases eq_or_ne b a with rfl | hne
            · rw [Function.update_self]
              exact Except.ok.inj (hr.symm.trans (hg b hb))
            · rw [Function.update_of_ne hne]
          refine ⟨Function.update g a r, fun b hb => ?_, ?_⟩
          · rcases List.mem_cons.mp hb with rfl | hb
            · rwa [Function.update_self]
            · rw [hagain b hb, hg b hb]
          · rw [List.flatMap_cons, Function.update_self, List.flatMap_congr hagain,
              List.append_assoc]
        · rintro ⟨g, hg, rfl⟩
          refine ⟨acc ++ g a, bind_eq_ok.mpr ⟨g a, hg a (by simp), rfl⟩, ?_⟩
          exact (ih _).mpr ⟨g, fun b hb => hg b (by simp [hb]), by simp⟩
  exact (key l []).trans (by simp)

omit [DecidableEq K] in
/-- What is made of the contributions can be made of all of them at the end. -/
lemma collect_map {β γ : Type} (h : β → γ) (f : K → Except ε (List β)) (l : List K) :
    collect (fun a => (f a).map (List.map h)) l = (collect f l).map (List.map h) := by
  have key : ∀ (l : List K) (acc : List β),
      l.foldlM (fun acc a => do return acc ++ (← (f a).map (List.map h))) (acc.map h) =
        (l.foldlM (fun acc a => do return acc ++ (← f a)) acc).map (List.map h) := by
    intro l
    induction l with
    | nil => exact fun acc => rfl
    | cons a l ih =>
        intro acc
        rw [List.foldlM_cons, List.foldlM_cons]
        cases f a with
        | error e => rfl
        | ok r =>
            have hstep := ih (acc ++ r)
            rw [List.map_append] at hstep
            exact hstep
  exact key l []

/-! ### Tables -/

/-- Enter what key `a` computes; a key that computes nothing gets no entry. -/
def enter {β : Type} (f : K → Option (Except ε β)) (c : K → Option β) (a : K) :
    Except ε (K → Option β) :=
  match f a with
  | none => return c
  | some x => return Function.update c a (some (← x))

/-- The table of what the keys of a list compute, from the left. -/
def table {β : Type} (f : K → Option (Except ε β)) (l : List K) : Except ε (K → Option β) :=
  l.foldlM (enter f) fun _ => none

/-- A key of the list that computes an entry, and fails. -/
def Raises {β : Type} (f : K → Option (Except ε β)) (l : List K) : Prop :=
  ∃ a ∈ l, ∃ e, f a = some (.error e)

/-- The entry of a key, if there is one. -/
def entry? {β : Type} (f : K → Option (Except ε β)) (a : K) : Option β :=
  (f a).bind Except.toOption

section Table

variable {β : Type} {f g : K → Option (Except ε β)} {l : List K} {a : K}

lemma foldlM_enter_eq_ok {c₀ c : K → Option β} : l.foldlM (enter f) c₀ = .ok c ↔
    ¬ Raises f l ∧ c = fun a => if a ∈ l ∧ (f a).isSome then entry? f a else c₀ a := by
  induction l generalizing c₀ with
  | nil =>
      have hnone : ¬ Raises f [] := fun ⟨_, h, _⟩ => absurd h List.not_mem_nil
      simp only [List.foldlM_nil, pure, Except.pure, Except.ok.injEq, hnone, not_false_eq_true,
        List.not_mem_nil, false_and, if_false, true_and]
      exact eq_comm
  | cons a l ih =>
      have hcons : Raises f (a :: l) ↔ (∃ e, f a = some (.error e)) ∨ Raises f l := by
        simp [Raises]
      rw [List.foldlM_cons, bind_eq_ok, hcons, not_or]
      rcases hfa : f a with _ | e | b
      · simp only [enter, hfa, pure, Except.pure, Except.ok.injEq, exists_eq_left', ih]
        refine and_congr (by simp) (Eq.congr_right (funext fun k => ?_))
        rcases eq_or_ne k a with rfl | hne <;> simp_all
      · simp [enter, hfa, bind, Except.bind]
      · simp only [enter, hfa, bind, Except.bind, pure, Except.pure, Except.ok.injEq,
          exists_eq_left', ih]
        refine and_congr (by simp) (Eq.congr_right (funext fun k => ?_))
        rcases eq_or_ne k a with rfl | hne
        · by_cases hk : k ∈ l <;> simp [hk, hfa, entry?, Except.toOption]
        · simp [hne]

/-- **A table** is built exactly if no key raises, and then has the entries of the keys. -/
theorem table_eq_ok {c : K → Option β} : table f l = .ok c ↔
    ¬ Raises f l ∧ c = fun a => if a ∈ l then entry? f a else none := by
  rw [table, foldlM_enter_eq_ok]
  refine and_congr_right fun _ => Eq.congr_right (funext fun a => ?_)
  by_cases hmem : a ∈ l
  · cases hfa : f a <;> simp [hmem, hfa, entry?]
  · simp [hmem]

lemma toOption_eq_iff {x y : Except ε β} :
    x.toOption = y.toOption ↔ ∀ b, x = .ok b ↔ y = .ok b := by
  rcases x with _ | b <;> rcases y with _ | b' <;> simp [Except.toOption]

/-- **Two tables** over the same keys are the same: no key raises and the entries agree, or
a key raises in the one and a key in the other. -/
theorem table_toOption_eq_iff : (table f l).toOption = (table g l).toOption ↔
    (Raises f l ↔ Raises g l) ∧ (¬ Raises f l → ∀ a ∈ l, entry? f a = entry? g a) := by
  simp only [toOption_eq_iff, table_eq_ok]
  by_cases hf : Raises f l <;> by_cases hg : Raises g l
  · simp [hf, hg]
  · simp [hf, hg]
  · simp [hf, hg]
  · simp only [hf, hg, not_false_eq_true, true_and, forall_true_left]
    refine ⟨fun h a ha => ?_, fun h c => Eq.congr_right (funext fun a => ?_)⟩
    · have := congrFun ((h _).mp rfl) a
      simpa [ha] using this
    · by_cases ha : a ∈ l
      · simp [ha, h a ha]
      · simp [ha]

end Table

end Keyed
