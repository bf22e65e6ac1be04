import Mathlib.Tactic.Common

/-!
What the assimilation loops of the three drivers have in common: the filter types
they recognise, and the log of what an iteration does with the observation counter.
-/

namespace Icesee

/-- The filter types that the drivers recognise. -/
inductive FilterType where
  | EnKF
  | DEnKF
  | EnRSKF
  | EnTKF
  deriving DecidableEq, Repr

/-- What a loop does with observation column `km` at iteration `k`: it enters the
analysis branch, it updates the ensemble with the column, it advances the counter. -/
inductive Event where
  | analysis (k km : ℕ)
  | update (k km : ℕ)
  | advance (k km : ℕ)
  deriving DecidableEq, Repr

/-- The counter and the log of a loop. -/
structure LoopState where
  km : ℕ
  log : List Event
  deriving DecidableEq, Repr

/-- The iterations that enter the analysis branch, with their columns. -/
def analyses (log : List Event) : List (ℕ × ℕ) :=
  log.filterMap fun
    | .analysis k km => some (k, km)
    | _ => none

/-- The updates, with their columns. -/
def updates (log : List Event) : List (ℕ × ℕ) :=
  log.filterMap fun
    | .update k km => some (k, km)
    | _ => none

@[simp] lemma analyses_append (l₁ l₂ : List Event) :
    analyses (l₁ ++ l₂) = analyses l₁ ++ analyses l₂ := List.filterMap_append

@[simp] lemma updates_append (l₁ l₂ : List Event) :
    updates (l₁ ++ l₂) = updates l₁ ++ updates l₂ := List.filterMap_append

end Icesee
