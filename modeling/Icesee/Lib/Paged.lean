import Mathlib.Data.List.Induction
import Mathlib.Data.List.Infix
import Mathlib.Tactic.Common

/-!
Paged memories whose page switch erases.

A memory is cut into pages and one page is open at a time. An access to the open
page just writes; an access to another page opens that page **blank** first. The
question is when such a memory cannot be told from a memory without pages.

* `ideal h` is the memory without pages after the history `h`: every address
  holds what was written to it last (`ideal_append_singleton`).
* `run p₀ h` is the paged memory, page `p₀` open and blank at the start.
* `Keeps p₀ h`: opening the page of an access never loses anything written before.
* `NoReturn p₀ h`: no access comes back to a page that was written and then left.

`keeps_iff_noReturn` is the exact criterion, and `run_mem_of_noReturn` the
simulation behind it: without a return the paged memory *is* the ideal one.
-/

namespace Paged

variable {Addr Page Val : Type*} {page : Addr → Page}

/-! ### Accesses and the memory without pages -/

/-- An access visits a page and writes inside it; a read writes nothing. -/
structure Access (page : Addr → Page) (Val : Type*) where
  visits : Page
  put : Addr → Option Val
  inside : ∀ a, page a ≠ visits → put a = none

/-- The memory without pages: the last value written at every address. -/
def ideal (h : List (Access page Val)) : Addr → Option Val :=
  h.foldl (fun m x a => (x.put a).or (m a)) fun _ => none

@[simp] lemma ideal_nil (a : Addr) : ideal ([] : List (Access page Val)) a = none := rfl

@[simp] lemma ideal_append_singleton (h : List (Access page Val)) (x : Access page Val)
    (a : Addr) : ideal (h ++ [x]) a = (x.put a).or (ideal h a) := by
  simp [ideal]

/-- An address is empty exactly when no access of the history wrote it. -/
lemma ideal_eq_none_iff {h : List (Access page Val)} {a : Addr} :
    ideal h a = none ↔ ∀ x ∈ h, x.put a = none := by
  induction h using List.reverseRecOn with
  | nil => simp
  | append_singleton h x ih =>
      simp only [ideal_append_singleton, Option.or_eq_none_iff, ih, List.mem_append,
        List.mem_singleton]
      constructor
      · rintro ⟨hx, hh⟩ y (hy | rfl)
        exacts [hh y hy, hx]
      · exact fun hall => ⟨hall x (.inr rfl), fun y hy => hall y (.inl hy)⟩

/-- The page open after a history: the page of its last access. -/
def lastVisited (p₀ : Page) (h : List (Access page Val)) : Page :=
  (h.getLast?.map Access.visits).getD p₀

@[simp] lemma lastVisited_append_singleton (p₀ : Page) (h : List (Access page Val))
    (x : Access page Val) : lastVisited p₀ (h ++ [x]) = x.visits := by
  simp [lastVisited]

/-- No access comes back to a page that was written and then left. -/
def NoReturn (p₀ : Page) (h : List (Access page Val)) : Prop :=
  ∀ pre x post, h = pre ++ x :: post → x.visits = lastVisited p₀ pre ∨
    ∀ y ∈ pre, y.visits = x.visits → ∀ a, y.put a = none

lemma NoReturn.of_append {p₀ : Page} {h post : List (Access page Val)}
    (hn : NoReturn p₀ (h ++ post)) : NoReturn p₀ h := by
  intro pre x mid hsplit
  exact hn pre x (mid ++ post) (by rw [hsplit]; simp)

/-- A page nobody wrote is blank in the memory without pages. -/
lemma ideal_eq_none_of_untouched {h : List (Access page Val)} {a : Addr}
    (hu : ∀ y ∈ h, y.visits = page a → ∀ b, y.put b = none) : ideal h a = none := by
  refine ideal_eq_none_iff.mpr fun y hy => ?_
  by_cases hp : page a = y.visits
  · exact hu y hy hp.symm a
  · exact y.inside a hp

/-! ### The paged memory -/

/-- The open page and the contents. -/
structure Memory (Addr Page Val : Type*) where
  openPage : Page
  mem : Addr → Option Val

variable [DecidableEq Page]

/-- Opening a page: nothing if it is open already, otherwise it is opened blank. -/
def Memory.visit (page : Addr → Page) (p : Page) (s : Memory Addr Page Val) :
    Memory Addr Page Val :=
  if p = s.openPage then s
  else { openPage := p, mem := fun a => if page a = p then none else s.mem a }

/-- One access: open its page, then write. -/
def Memory.step (s : Memory Addr Page Val) (x : Access page Val) : Memory Addr Page Val :=
  { openPage := x.visits, mem := fun a => (x.put a).or ((s.visit page x.visits).mem a) }

@[simp] lemma Memory.step_mem (s : Memory Addr Page Val) (x : Access page Val) (a : Addr) :
    (s.step x).mem a = (x.put a).or ((s.visit page x.visits).mem a) := rfl

/-- The paged memory after a history, page `p₀` open and blank at the start. -/
def run (p₀ : Page) (h : List (Access page Val)) : Memory Addr Page Val :=
  h.foldl Memory.step { openPage := p₀, mem := fun _ => none }

@[simp] lemma run_nil (p₀ : Page) :
    run p₀ ([] : List (Access page Val)) = { openPage := p₀, mem := fun _ => none } := rfl

@[simp] lemma run_append_singleton (p₀ : Page) (h : List (Access page Val))
    (x : Access page Val) : run p₀ (h ++ [x]) = (run p₀ h).step x := by
  simp [run]

@[simp] lemma Memory.visit_openPage (p : Page) (s : Memory Addr Page Val) :
    (s.visit page p).openPage = p := by
  by_cases hp : p = s.openPage
  · rw [Memory.visit, if_pos hp, hp]
  · rw [Memory.visit, if_neg hp]

lemma Memory.visit_of_eq {p : Page} {s : Memory Addr Page Val} (h : p = s.openPage) :
    s.visit page p = s := by
  rw [Memory.visit, if_pos h]

lemma Memory.visit_mem_of_ne {p : Page} {s : Memory Addr Page Val} (h : p ≠ s.openPage)
    (a : Addr) : (s.visit page p).mem a = if page a = p then none else s.mem a := by
  rw [Memory.visit, if_neg h]

@[simp] lemma run_openPage (p₀ : Page) (h : List (Access page Val)) :
    (run p₀ h).openPage = lastVisited p₀ h := by
  induction h using List.reverseRecOn with
  | nil => rfl
  | append_singleton h x _ => simp [Memory.step]

/-! ### When the switch loses nothing -/

/-- Opening the page of an access never loses a value written before it. -/
def Keeps (p₀ : Page) (h : List (Access page Val)) : Prop :=
  ∀ pre x post, h = pre ++ x :: post → ((run p₀ pre).visit page x.visits).mem = ideal pre

/-- The step of the simulation: opening a page that is open already, or that was
never written, changes nothing. -/
lemma visit_mem_eq_ideal {p₀ p : Page} {pre : List (Access page Val)}
    (hmem : (run p₀ pre).mem = ideal pre)
    (hp : p = lastVisited p₀ pre ∨ ∀ y ∈ pre, y.visits = p → ∀ a, y.put a = none) :
    ((run p₀ pre).visit page p).mem = ideal pre := by
  by_cases hopen : p = (run p₀ pre).openPage
  · rw [Memory.visit_of_eq hopen, hmem]
  · have hu := hp.resolve_left (by rwa [run_openPage] at hopen)
    funext a
    rw [Memory.visit_mem_of_ne hopen, hmem]
    split
    · next ha => exact (ideal_eq_none_of_untouched (by rwa [ha])).symm
    · rfl

/-- **The simulation**: without a return, the paged memory holds exactly what the
memory without pages holds. -/
theorem run_mem_of_noReturn {p₀ : Page} {h : List (Access page Val)} (hn : NoReturn p₀ h) :
    (run p₀ h).mem = ideal h := by
  induction h using List.reverseRecOn with
  | nil => rfl
  | append_singleton h x ih =>
      have hvisit := visit_mem_eq_ideal (ih hn.of_append) (hn h x [] rfl)
      funext a
      rw [run_append_singleton, ideal_append_singleton, Memory.step_mem, hvisit]

/-- Opening a page writes nothing. -/
lemma Memory.visit_mem_eq_none {p : Page} {s : Memory Addr Page Val} {a : Addr}
    (ha : s.mem a = none) : (s.visit page p).mem a = none := by
  rw [Memory.visit]
  split
  · exact ha
  · simp only [ha, ite_self]

/-- What the memory without pages does not hold, the paged memory does not hold. -/
lemma run_mem_eq_none {p₀ : Page} {h : List (Access page Val)} {a : Addr}
    (ha : ideal h a = none) : (run p₀ h).mem a = none := by
  induction h using List.reverseRecOn with
  | nil => rfl
  | append_singleton h x ih =>
      rw [ideal_append_singleton, Option.or_eq_none_iff] at ha
      rw [run_append_singleton, Memory.step_mem, ha.1, Option.none_or]
      exact Memory.visit_mem_eq_none (ih ha.2)

/-- **The criterion**: page switches lose nothing exactly when no access comes
back to a page that was written and then left. -/
theorem keeps_iff_noReturn {p₀ : Page} {h : List (Access page Val)} :
    Keeps p₀ h ↔ NoReturn p₀ h := by
  refine ⟨fun hk pre x post hsplit => ?_, fun hn pre x post hsplit => ?_⟩
  · by_contra! hret
    obtain ⟨hleft, y, hy, hyx, a, hput⟩ := hret
    have hpage : page a = x.visits := by
      by_contra hne
      exact hput (y.inside a (by rwa [hyx]))
    have hblank : ideal pre a = none := by
      rw [← hk pre x post hsplit, Memory.visit_mem_of_ne (by rwa [run_openPage]), if_pos hpage]
    exact hput (ideal_eq_none_iff.mp hblank y hy)
  · have hpre : NoReturn p₀ pre := by
      rw [hsplit] at hn
      exact hn.of_append
    exact visit_mem_eq_ideal (run_mem_of_noReturn hpre) (hn pre x post hsplit)

end Paged
