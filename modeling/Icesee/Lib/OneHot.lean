import Mathlib.Algebra.Notation.Defs
import Mathlib.Data.Set.Insert
import Mathlib.Tactic.Common

/-!
Matrices that are filled with unit rows, piece by piece.

`IsOneHot cols W D` says that the rows of `W` have a one each, in the column that `cols`
gives, and that `D` is zero otherwise, so that there is one such matrix
(`IsOneHot.unique`). `setSegment` assigns to a part of a row. To write the part with the
one into a row is all that it takes (`IsOneHot.setSegment`), once or more often, and
`IsOneHot.foldl` is the rule for a loop of such writes.
-/

namespace OneHot

variable {K : Type*} [Zero K] [One K]

/-- The rows of `W` are unit rows, everything else is zero. -/
structure IsOneHot (cols : ℕ → ℕ) (W : Set ℕ) (D : ℕ → ℕ → K) : Prop where
  one : ∀ r ∈ W, D r (cols r) = 1
  zero : ∀ r c, (r ∈ W → c ≠ cols r) → D r c = 0

/-- `D[rr, c0:c1] = v`. -/
def setSegment (D : ℕ → ℕ → K) (rr c0 c1 : ℕ) (v : ℕ → K) : ℕ → ℕ → K :=
  fun r c => if r = rr ∧ c0 ≤ c ∧ c < c1 then v (c - c0) else D r c

variable {cols : ℕ → ℕ} {W : Set ℕ} {D D' : ℕ → ℕ → K}

namespace IsOneHot

lemma empty (cols : ℕ → ℕ) : IsOneHot cols ∅ fun _ _ => (0 : K) :=
  ⟨fun _ h => absurd h (Set.notMem_empty _), fun _ _ _ => rfl⟩

/-- The rows and their columns determine the matrix. -/
lemma unique (h : IsOneHot cols W D) (h' : IsOneHot cols W D') : D = D' := by
  funext r c
  by_cases hrc : r ∈ W ∧ c = cols r
  · rw [hrc.2, h.one r hrc.1, h'.one r hrc.1]
  · rw [h.zero r c (not_and.mp hrc), h'.zero r c (not_and.mp hrc)]

/-- Writing the part of a row that has its one. -/
lemma setSegment {rr c0 c1 : ℕ} {v : ℕ → K} (h : IsOneHot cols W D) (hlow : c0 ≤ cols rr)
    (hhigh : cols rr < c1) (hone : v (cols rr - c0) = 1)
    (hzero : ∀ c, c ≠ cols rr - c0 → v c = 0) :
    IsOneHot cols (insert rr W) (setSegment D rr c0 c1 v) := by
  refine ⟨fun r hr => ?_, fun r c hrc => ?_⟩
  · rw [OneHot.setSegment]
    split_ifs with hin
    · rw [hin.1, hone]
    · refine h.one r ((Set.mem_insert_iff.mp hr).resolve_left fun heq => hin ?_)
      exact ⟨heq, heq ▸ hlow, heq ▸ hhigh⟩
  · rw [OneHot.setSegment]
    split_ifs with hin
    · have hne : c ≠ cols rr := hin.1 ▸ hrc (Set.mem_insert_iff.mpr (Or.inl hin.1))
      exact hzero _ (by omega)
    · exact h.zero r c fun hr => hrc (Set.mem_insert_of_mem rr hr)

/-- **Loops** whose turns each complete some rows. -/
theorem foldl {β : Type*} {step : (ℕ → ℕ → K) → β → ℕ → ℕ → K} {rows : β → Set ℕ} {l : List β}
    (hstep : ∀ b ∈ l, ∀ W D, IsOneHot cols W D → IsOneHot cols (W ∪ rows b) (step D b))
    (h : IsOneHot cols W D) :
    IsOneHot cols (W ∪ {r | ∃ b ∈ l, r ∈ rows b}) (l.foldl step D) := by
  induction l generalizing W D with
  | nil => simpa using h
  | cons b l ih =>
      have hrest := ih (fun a ha => hstep a (List.mem_cons_of_mem b ha))
        (hstep b List.mem_cons_self W D h)
      have hset : W ∪ {r | ∃ a ∈ b :: l, r ∈ rows a} =
          W ∪ rows b ∪ {r | ∃ a ∈ l, r ∈ rows a} := by
        ext r
        simp [or_assoc]
      rwa [hset]

end IsOneHot

end OneHot
