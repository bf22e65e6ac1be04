import Mathlib.Data.Nat.Notation
import Mathlib.Tactic.Common

/-!
A loop `while cond: body` whose body can raise.

`loop cond body n s` is the loop in at most `n` rounds. With an invariant under which the
body does not raise, and a measure that it decreases, the loop ends (`exists_loop`).
-/

namespace WhileLoop

variable {σ : Type} (cond : σ → Prop) [DecidablePred cond] (body : σ → Option σ)

/-- The loop from `s` on: `none` if it goes on after the given number of rounds, and
`some none` if its body raises. -/
def loop : ℕ → σ → Option (Option σ)
  | 0, _ => none
  | n + 1, s => if cond s then (body s).elim (some none) (loop n) else some (some s)

variable {cond body} {s s' : σ}

lemma loop_of_not (h : ¬ cond s) (n : ℕ) : loop cond body (n + 1) s = some (some s) := by
  rw [loop, if_neg h]

lemma loop_of_step (h : cond s) (hbody : body s = some s') (n : ℕ) :
    loop cond body (n + 1) s = loop cond body n s' := by
  rw [loop, if_pos h, hbody, Option.elim_some]

/-- What a loop returns that ends in its first round. -/
lemma eq_of_loop_of_step {n : ℕ} {r : σ} (hloop : loop cond body n s = some (some r))
    (h : cond s) (hbody : body s = some s') (hend : ¬ cond s') : r = s' := by
  rcases n with _ | _ | n
  · cases hloop
  · rw [loop_of_step h hbody] at hloop
    cases hloop
  · rw [loop_of_step h hbody, loop_of_not hend] at hloop
    cases hloop
    rfl

/-- **Total correctness**: an invariant and a measure for a loop that ends. -/
theorem exists_loop (inv : σ → Prop) (measure : σ → ℕ)
    (hstep : ∀ s, inv s → cond s → ∃ s', body s = some s' ∧ inv s' ∧ measure s' < measure s)
    (hs : inv s) : ∃ n s', loop cond body n s = some (some s') ∧ inv s' ∧ ¬ cond s' := by
  induction hm : measure s using Nat.strongRecOn generalizing s with
  | ind m ih =>
      by_cases hcond : cond s
      · obtain ⟨s₁, hbody, hinv, hlt⟩ := hstep s hs hcond
        obtain ⟨n, s', hloop, hs'⟩ := ih (measure s₁) (hm ▸ hlt) hinv rfl
        exact ⟨n + 1, s', (loop_of_step hcond hbody n).trans hloop, hs'⟩
      · exact ⟨1, s, loop_of_not hcond 0, hs, hcond⟩

end WhileLoop
