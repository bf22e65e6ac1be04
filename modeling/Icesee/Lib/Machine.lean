import Mathlib.Logic.Basic
import Mathlib.Tactic.Common

/-!
Finite runs of a machine whose steps are named by actions.

`run step s as` takes the actions one after the other and is `none` if one of them is
not enabled. `Guarded step guard s as` says that every step of the run meets a guard,
which looks at the state before the step. An invariant that every guarded step keeps
holds at the end of every guarded run (`run_invariant`), so at every state that such a
run reaches. `foldlM_range` is the rule for a loop over `0, …, n - 1` that has to go
through.
-/

namespace Machine

variable {σ α : Type} (step : σ → α → Option σ)

/-- The state after some actions. -/
def run : σ → List α → Option σ
  | s, [] => some s
  | s, a :: as => (step s a).bind fun s' => run s' as

/-- Every step of the run meets the guard. -/
def Guarded (guard : σ → α → Prop) : σ → List α → Prop
  | _, [] => True
  | s, a :: as => guard s a ∧ ∀ s', step s a = some s' → Guarded guard s' as

variable {step} {guard : σ → α → Prop} {s s' : σ} {a : α} {as bs : List α}

@[simp] lemma run_nil : run step s [] = some s := rfl

lemma run_cons : run step s (a :: as) = (step s a).bind fun s' => run step s' as := rfl

lemma run_cons_of_eq (h : step s a = some s') : run step s (a :: as) = run step s' as := by
  rw [run_cons, h, Option.bind_some]

lemma run_cons_eq_some : run step s (a :: as) = some s' ↔
    ∃ s₁, step s a = some s₁ ∧ run step s₁ as = some s' := Option.bind_eq_some_iff

lemma run_append : run step s (as ++ bs) = (run step s as).bind fun s' => run step s' bs := by
  induction as generalizing s with
  | nil => rfl
  | cons a as ih =>
      rw [List.cons_append, run_cons, run_cons, Option.bind_assoc]
      exact congrArg _ (funext fun s' => ih)

/-- A run that goes on from where another one ends. -/
lemma run_append_of_eq (h : run step s as = some s') :
    run step s (as ++ bs) = run step s' bs := by
  rw [run_append, h, Option.bind_some]

/-- **Invariants**: what every guarded step keeps, every guarded run keeps. -/
theorem run_invariant (inv : σ → Prop)
    (hstep : ∀ s a s', inv s → guard s a → step s a = some s' → inv s') (hs : inv s)
    (hg : Guarded step guard s as) (h : run step s as = some s') : inv s' := by
  induction as generalizing s with
  | nil =>
      obtain rfl := Option.some.inj h
      exact hs
  | cons a as ih =>
      obtain ⟨s₁, hs₁, hrest⟩ := run_cons_eq_some.mp h
      exact ih (hstep s a s₁ hs hg.1 hs₁) (hg.2 s₁ hs₁) hrest

lemma guarded_append (hg : Guarded step guard s as)
    (h : ∀ s', run step s as = some s' → Guarded step guard s' bs) :
    Guarded step guard s (as ++ bs) := by
  induction as generalizing s with
  | nil => exact h s rfl
  | cons a as ih =>
      refine ⟨hg.1, fun s₁ hs₁ => ih (hg.2 s₁ hs₁) fun s' hs' => h s' ?_⟩
      rw [run_cons_of_eq hs₁, hs']

/-- A guarded run can be checked by running it. -/
instance decidableGuarded [∀ s a, Decidable (guard s a)] :
    (s : σ) → (as : List α) → Decidable (Guarded step guard s as)
  | _, [] => isTrue trivial
  | s, a :: as => match h : step s a with
      | none => decidable_of_iff (guard s a) (by simp [Guarded, h])
      | some s' =>
          have := decidableGuarded s' as
          decidable_of_iff (guard s a ∧ Guarded step guard s' as) (by simp [Guarded, h])

/-- A guard on the actions alone is a condition on the list of actions. -/
lemma guarded_of_forall {p : α → Prop} (h : ∀ a ∈ as, p a) :
    Guarded step (fun _ a => p a) s as := by
  induction as generalizing s with
  | nil => trivial
  | cons a as ih => exact ⟨h a (by simp), fun s' _ => ih fun b hb => h b (by simp [hb])⟩

/-- **Counted loops**: if every iteration goes through and moves an indexed invariant one
further, so does the loop. -/
theorem foldlM_range {f : σ → ℕ → Option σ} (P : ℕ → σ → Prop) {n : ℕ}
    (hstep : ∀ r < n, ∀ s, P r s → ∃ s', f s r = some s' ∧ P (r + 1) s') (hs : P 0 s) :
    ∃ s', (List.range n).foldlM f s = some s' ∧ P n s' := by
  induction n with
  | zero => exact ⟨s, rfl, hs⟩
  | succ n ih =>
      obtain ⟨s₁, hrun, h₁⟩ := ih fun r hr => hstep r (by omega)
      obtain ⟨s₂, hlast, h₂⟩ := hstep n (Nat.lt_succ_self n) s₁ h₁
      exact ⟨s₂, by simp [List.range_succ, List.foldlM_append, hrun, hlast], h₂⟩

end Machine
