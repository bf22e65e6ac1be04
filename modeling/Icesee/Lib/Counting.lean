import Mathlib.Data.List.Sort
import Mathlib.Data.Int.Order.Basic
import Mathlib.Tactic

/-!
Positions in a strictly increasing list of integers.

`below l k` counts the entries of `l` smaller than `k`. In a strictly increasing
list that is a position: the entries before it are smaller than `k`, the others
are not (`lt_below_iff`), so `k` occurs in the list exactly if it stands there
(`getElem?_below`). Counting moves on by one exactly at the entries of the list
(`below_succ`), which is how a loop over `k` can keep the position as a counter.
-/

namespace Counting

variable {l : List ℤ}

/-- The number of entries below `k`. -/
def below (l : List ℤ) (k : ℤ) : ℕ := l.countP (· < k)

lemma below_cons (x : ℤ) (l : List ℤ) (k : ℤ) :
    below (x :: l) k = below l k + if x < k then 1 else 0 := by
  simp [below, List.countP_cons]

/-- Counting the entries up to `k` is counting those below `k + 1`. -/
lemma countP_le_eq (l : List ℤ) (k : ℤ) : l.countP (· ≤ k) = below l (k + 1) := by
  simp only [below, Int.lt_add_one_iff]

lemma below_eq_zero (h : ∀ x ∈ l, ¬ x < k) : below l k = 0 := by
  rw [below, List.countP_eq_zero]
  simpa using h

/-- The position splits the list at `k`. -/
lemma lt_below_iff (hl : l.SortedLT) {i : ℕ} {x k : ℤ} (hx : l[i]? = some x) :
    i < below l k ↔ x < k := by
  induction l generalizing i with
  | nil => simp at hx
  | cons y l ih =>
      have hpair := List.pairwise_cons.mp hl.pairwise
      rw [below_cons]
      cases i with
      | zero =>
          obtain rfl : y = x := by simpa using hx
          by_cases hy : y < k
          · simp [hy]
          · -- all later entries are larger than `y`, so none is below `k`
            have hz : below l k = 0 := below_eq_zero fun z hz => by
              have := hpair.1 z hz
              omega
            simp [hy, hz]
      | succ i =>
          have hx' : l[i]? = some x := by simpa using hx
          have hih := ih hpair.2.sortedLT hx'
          have hyx := hpair.1 x (List.mem_of_getElem? hx')
          by_cases hy : y < k
          · rw [if_pos hy, Nat.add_lt_add_iff_right, hih]
          · have hz : below l k = 0 := below_eq_zero fun z hz => by
              have := hpair.1 z hz
              omega
            rw [if_neg hy, hz]
            omega

/-- `k` is in the list exactly if it stands at its position. -/
lemma getElem?_below (hl : l.SortedLT) {k : ℤ} : l[below l k]? = some k ↔ k ∈ l := by
  refine ⟨List.mem_of_getElem?, fun hk => ?_⟩
  obtain ⟨i, hi⟩ := List.mem_iff_getElem?.mp hk
  have hle : below l k ≤ i := by
    have := (lt_below_iff hl hi).not.mpr (lt_irrefl k)
    omega
  -- an entry at an earlier position would be smaller than `k` but not counted
  obtain ⟨x, hx⟩ : ∃ x, l[below l k]? = some x := by
    have hlt : i < l.length := (List.getElem?_eq_some_iff.mp hi).1
    exact ⟨_, List.getElem?_eq_getElem (by omega)⟩
  have hxk : ¬ x < k := by rw [← lt_below_iff hl hx]; omega
  obtain h | h : below l k = i ∨ below l k < i := by omega
  · rw [h]; exact hi
  · obtain ⟨hib, hik⟩ := List.getElem?_eq_some_iff.mp hi
    obtain ⟨hbb, hbx⟩ := List.getElem?_eq_some_iff.mp hx
    have hxi : l[below l k] < l[i] := hl.getElem_lt_getElem_of_lt h
    omega

/-- The count moves on by one at the entries of the list, and only there. -/
lemma below_succ (hl : l.SortedLT) (k : ℤ) :
    below l (k + 1) = below l k + if k ∈ l then 1 else 0 := by
  induction l with
  | nil => rfl
  | cons y l ih =>
      have hpair := List.pairwise_cons.mp hl.pairwise
      rw [below_cons, below_cons, ih hpair.2.sortedLT]
      by_cases hk : k ∈ l
      · have := hpair.1 k hk
        simp [hk, show y < k + 1 by omega, show y < k by omega]
      · by_cases hy : k = y
        · subst hy; simp [hk, show k < k + 1 by omega]
        · have hiff : y < k + 1 ↔ y < k := by omega
          simp [hk, hy, hiff]

lemma below_succ_of_mem (hl : l.SortedLT) {k : ℤ} (hk : k ∈ l) :
    below l (k + 1) = below l k + 1 := by
  rw [below_succ hl, if_pos hk]

lemma below_succ_of_notMem (hl : l.SortedLT) {k : ℤ} (hk : k ∉ l) :
    below l (k + 1) = below l k := by
  rw [below_succ hl, if_neg hk, Nat.add_zero]

/-- Different entries have different positions. -/
lemma below_inj (hl : l.SortedLT) {j k : ℤ} (hj : j ∈ l) (hk : k ∈ l) :
    below l j = below l k ↔ j = k := by
  refine ⟨fun h => ?_, fun h => by rw [h]⟩
  have hj' := (getElem?_below hl).mpr hj
  rw [h, (getElem?_below hl).mpr hk] at hj'
  exact (Option.some.inj hj').symm

lemma below_lt_length (hl : l.SortedLT) {k : ℤ} (hk : k ∈ l) : below l k < l.length :=
  (List.getElem?_eq_some_iff.mp ((getElem?_below hl).mpr hk)).1

/-- Conversely an entry stands at its position only. -/
lemma below_eq_of_getElem? (hl : l.SortedLT) {i : ℕ} {k : ℤ} (hi : l[i]? = some k) :
    below l k = i := by
  have hle := (lt_below_iff hl hi).not.mpr (lt_irrefl k)
  have hlt := (lt_below_iff hl hi).mpr (lt_add_one k)
  rw [below_succ_of_mem hl (List.mem_of_getElem? hi)] at hlt
  omega

end Counting
