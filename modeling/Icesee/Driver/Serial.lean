import Mathlib.Data.List.Range
import Icesee.Obs.Counter
import Icesee.Driver.Events

/-!
The time loop of the serial driver.

The loop runs over `range(nt)` from `km = 0`, and a due iteration calls the analysis of
its filter before it advances the counter. It is the loop that the other two drivers are
compared with: `serialRun_km` and `serialRun_updates` say where its counter is and which
columns it has used, and `advancesAfterUpdate_serialRun` that no column is passed over.
-/

namespace Icesee

open Counting

variable (filter : FilterType) (obs : ObsIndex)

/-! ### The loop -/

/-- `assimilate k km` is what a due iteration logs that calls an update. -/
def assimilate (k km : ℕ) : List Event := [.analysis k km, .update k km, .advance k km]

/-- The branches of the serial analysis: each filter has its method. -/
def serialAnalysis (k km : ℕ) : List Event :=
  match filter with
  | .EnKF => assimilate k km
  | .DEnKF => assimilate k km
  | .EnRSKF => assimilate k km
  | .EnTKF => assimilate k km

/-- One iteration. -/
def serialIteration (s : LoopState) (k : ℕ) : LoopState :=
  if obs.due s.km k then { km := s.km + 1, log := s.log ++ serialAnalysis filter k s.km }
  else s

/-- The state after the first `n` iterations. -/
def serialRun (n : ℕ) : LoopState :=
  (List.range n).foldl (serialIteration filter obs) { km := 0, log := [] }

variable {filter obs}

@[simp] lemma serialAnalysis_eq (k km : ℕ) : serialAnalysis filter k km = assimilate k km := by
  cases filter <;> rfl

@[simp] lemma updates_assimilate (k km : ℕ) : updates (assimilate k km) = [(k, km)] := rfl

lemma serialRun_succ (n : ℕ) :
    serialRun filter obs (n + 1) = serialIteration filter obs (serialRun filter obs n) n := by
  rw [serialRun, List.range_succ, List.foldl_append]
  rfl

/-! ### What a run assimilates -/

/-- The counter is at the position of the next step. -/
lemma serialRun_km (hobs : ∀ k ∈ obs.times, 0 ≤ k) (n : ℕ) :
    (serialRun filter obs n).km = below obs.times n := by
  induction n with
  | zero => exact (below_eq_zero fun x hx => not_lt.mpr (hobs x hx)).symm
  | succ n ih =>
      rw [serialRun_succ, serialIteration, Nat.cast_succ, ih]
      by_cases hmem : (n : ℤ) ∈ obs.times
      · rw [if_pos (obs.due_below.mpr hmem), below_succ_of_mem obs.sorted hmem]
      · rw [if_neg (obs.due_below.not.mpr hmem), below_succ_of_notMem obs.sorted hmem, ih]

/-- The columns are used in order, one after the other. -/
lemma serialRun_updates (hobs : ∀ k ∈ obs.times, 0 ≤ k) (n : ℕ) :
    (updates (serialRun filter obs n).log).map Prod.snd = List.range (below obs.times n) := by
  induction n with
  | zero =>
      rw [Nat.cast_zero, below_eq_zero fun x hx => not_lt.mpr (hobs x hx)]
      rfl
  | succ n ih =>
      rw [serialRun_succ, serialIteration, Nat.cast_succ, serialRun_km hobs]
      by_cases hmem : (n : ℤ) ∈ obs.times
      · rw [if_pos (obs.due_below.mpr hmem), below_succ_of_mem obs.sorted hmem,
          List.range_succ, ← ih]
        simp
      · rw [if_neg (obs.due_below.not.mpr hmem), below_succ_of_notMem obs.sorted hmem, ih]

/-- The updates of a run are those of the observations it reaches. -/
lemma mem_updates_serialRun (hobs : ∀ k ∈ obs.times, 0 ≤ k) {n k km : ℕ} :
    (k, km) ∈ updates (serialRun filter obs n).log ↔
      obs.times[km]? = some (k : ℤ) ∧ k < n := by
  induction n with
  | zero => simp [serialRun, updates]
  | succ n ih =>
      rw [serialRun_succ, serialIteration, serialRun_km hobs]
      by_cases hmem : (n : ℤ) ∈ obs.times
      · have hpos := (getElem?_below obs.sorted).mpr hmem
        -- step `n` is due, and its column is the number of the observations before it
        rw [if_pos (obs.due_below.mpr hmem)]
        simp only [serialAnalysis_eq, updates_append, updates_assimilate, List.mem_append, ih,
          List.mem_singleton, Prod.mk.injEq]
        constructor
        · rintro (⟨hk, hlt⟩ | ⟨rfl, rfl⟩)
          · exact ⟨hk, by omega⟩
          · exact ⟨hpos, Nat.lt_succ_self _⟩
        · rintro ⟨hk, hlt⟩
          rcases Nat.lt_succ_iff_lt_or_eq.mp hlt with hlt | rfl
          · exact .inl ⟨hk, hlt⟩
          · exact .inr ⟨rfl, (below_eq_of_getElem? obs.sorted hk).symm⟩
      · rw [if_neg (obs.due_below.not.mpr hmem), ih]
        -- no observation is at step `n`
        refine and_congr_right fun hk => ⟨fun hlt => by omega, fun hlt => ?_⟩
        rcases Nat.lt_succ_iff_lt_or_eq.mp hlt with hlt | rfl
        · exact hlt
        · exact absurd (List.mem_of_getElem? hk) hmem

/-- Every advance of the counter comes after an update with its column. -/
def AdvancesAfterUpdate (log : List Event) : Prop :=
  ∀ past k km future, log = past ++ .advance k km :: future → .update k km ∈ past

/-- An update moves an advance that was in order no further than its column. -/
lemma AdvancesAfterUpdate.append_assimilate {log : List Event} (h : AdvancesAfterUpdate log)
    (k km : ℕ) : AdvancesAfterUpdate (log ++ assimilate k km) := by
  intro past j jm future heq
  rcases List.append_eq_append_iff.mp heq with ⟨new, rfl, hnew⟩ | ⟨old, rfl, hold⟩
  · -- the advance is one of the new events, the last one
    rcases new with - | ⟨a, - | ⟨b, - | ⟨c, new⟩⟩⟩
    · simp [assimilate] at hnew
    · simp [assimilate] at hnew
    · obtain ⟨rfl, rfl⟩ : k = j ∧ km = jm := by
        simp only [assimilate, List.cons_append, List.nil_append, List.cons.injEq,
          Event.advance.injEq] at hnew
        exact ⟨hnew.2.2.1.1, hnew.2.2.1.2⟩
      simp only [assimilate, List.cons_append, List.nil_append, List.cons.injEq] at hnew
      simp [← hnew.2.1]
    · simp [assimilate] at hnew
  · -- the advance is an old one, or the first of the new events, which is none
    rcases old with - | ⟨a, old⟩
    · simp [assimilate] at hold
    · obtain ⟨rfl, -⟩ := List.cons.inj hold
      exact h past j jm old rfl

lemma advancesAfterUpdate_serialRun (n : ℕ) :
    AdvancesAfterUpdate (serialRun filter obs n).log := by
  induction n with
  | zero => intro past k km future heq; simp [serialRun] at heq
  | succ n ih =>
      rw [serialRun_succ, serialIteration]
      split
      · simpa using ih.append_assimilate n _
      · exact ih

end Icesee
