import Mathlib.Algebra.Order.Archimedean.Basic
import Mathlib.Algebra.Order.Floor.Ring
import Mathlib.Data.List.Basic
import Mathlib.Data.List.Range
import Mathlib.Tactic.Common
import Mathlib.Tactic.Linarith

/-!
Masks as array programs build them, on lists.

`mark` writes one value to some positions, and `strided n k` are the positions of
`range(0, n, k)`; every position is marked exactly if all of them are given
(`mark_replicate_eq_iff`), which a stride above one does for one position at most
(`forall_mem_strided_iff`). `tile` repeats a list (`getElem?_tile`), and `roundHalfEven` is
the rounding that breaks ties to even.
-/

namespace Masks

variable {α : Type*}

/-! ### Marking positions -/

/-- Write `v` to the positions `js`. -/
def mark (l : List α) (js : List ℕ) (v : α) : List α := js.foldl (fun l j => l.set j v) l

@[simp] lemma length_mark {l : List α} {js : List ℕ} {v : α} : (mark l js v).length = l.length := by
  induction js generalizing l with
  | nil => rfl
  | cons j js ih => rw [mark, List.foldl_cons, ← mark, ih, List.length_set]

lemma getElem?_mark {l : List α} {js : List ℕ} {v : α} {i : ℕ} (hi : i < l.length) :
    (mark l js v)[i]? = if i ∈ js then some v else l[i]? := by
  induction js generalizing l with
  | nil => simp [mark]
  | cons j js ih =>
      rw [mark, List.foldl_cons, ← mark, ih (by rwa [List.length_set]), List.getElem?_set]
      by_cases hmem : i ∈ js
      · simp [hmem]
      · by_cases hij : j = i
        · simp [hij, hi]
        · simp [hmem, hij, Ne.symm hij]

/-- Everything is marked exactly if every position is given. -/
theorem mark_replicate_eq_iff {a v : α} (h : a ≠ v) {n : ℕ} {js : List ℕ} :
    mark (List.replicate n a) js v = List.replicate n v ↔ ∀ i < n, i ∈ js := by
  refine ⟨fun heq i hi => ?_, fun hall => List.ext_getElem? fun i => ?_⟩
  · by_contra hmem
    have hget : (mark (List.replicate n a) js v)[i]? = _ := getElem?_mark (by simpa)
    rw [heq, if_neg hmem, List.getElem?_replicate_of_lt hi, List.getElem?_replicate_of_lt hi,
      Option.some_inj] at hget
    exact h hget.symm
  · rcases lt_or_ge i n with hi | hi
    · rw [getElem?_mark (by simpa), if_pos (hall i hi), List.getElem?_replicate_of_lt hi]
    · rw [List.getElem?_eq_none (by simpa), List.getElem?_eq_none (by simpa)]

/-- Marking with what is there. -/
lemma mark_replicate_self {a : α} {n : ℕ} {js : List ℕ} :
    mark (List.replicate n a) js a = List.replicate n a := by
  refine List.ext_getElem? fun i => ?_
  rcases lt_or_ge i n with hi | hi
  · rw [getElem?_mark (by simpa), List.getElem?_replicate_of_lt hi, ite_self]
  · rw [List.getElem?_eq_none (by simpa), List.getElem?_eq_none (by simpa)]

/-! ### Strides -/

/-- The positions of `range(0, n, k)`. -/
def strided (n k : ℕ) : List ℕ := List.range' 0 ((n + k - 1) / k) k

lemma mem_strided {n k j : ℕ} (hk : 0 < k) : j ∈ strided n k ↔ j < n ∧ k ∣ j := by
  have hcount : ∀ i, i < (n + k - 1) / k ↔ k * i < n := by
    intro i
    rw [← Nat.succ_le_iff, Nat.le_div_iff_mul_le hk, Nat.succ_mul, Nat.mul_comm]
    omega
  simp only [strided, List.mem_range', hcount, Nat.zero_add]
  refine ⟨?_, ?_⟩
  · rintro ⟨i, hi, rfl⟩
    exact ⟨hi, Nat.dvd_mul_right k i⟩
  · rintro ⟨hj, i, rfl⟩
    exact ⟨i, hj, rfl⟩

/-- A stride leaves nothing out if it is one, or if there is nothing after the start. -/
theorem forall_mem_strided_iff {n k : ℕ} (hk : 0 < k) :
    (∀ i < n, i ∈ strided n k) ↔ n ≤ 1 ∨ k ≤ 1 := by
  refine ⟨fun h => ?_, fun h i hi => (mem_strided hk).mpr ⟨hi, ?_⟩⟩
  · by_contra! hn
    have hdvd := ((mem_strided hk).mp (h 1 hn.1)).2
    have := Nat.le_of_dvd one_pos hdvd
    omega
  · rcases h with h | h
    · obtain rfl : i = 0 := by omega
      exact dvd_zero k
    · obtain rfl : k = 1 := by omega
      exact one_dvd i

/-! ### Repeating a list -/

/-- The list `k` times over. -/
def tile (k : ℕ) (l : List α) : List α := (List.replicate k l).flatten

lemma length_tile {k : ℕ} {l : List α} : (tile k l).length = k * l.length := by
  simp [tile]

lemma getElem?_tile {k : ℕ} {l : List α} {i : ℕ} (hi : i < k * l.length) :
    (tile k l)[i]? = l[i % l.length]? := by
  induction k generalizing i with
  | zero => simp at hi
  | succ k ih =>
      rw [tile, List.replicate_succ, List.flatten_cons, ← tile, List.getElem?_append]
      split_ifs with hlt
      · rw [Nat.mod_eq_of_lt hlt]
      · rw [not_lt] at hlt
        rw [Nat.succ_mul] at hi
        rw [ih (by omega), Nat.mod_eq_sub_mod hlt]

/-! ### Rounding -/

variable {K : Type*} [Field K] [LinearOrder K] [IsStrictOrderedRing K] [FloorRing K]

/-- The nearest integer, and the even one of two that are equally near. -/
def roundHalfEven (q : K) : ℤ :=
  if q - ⌊q⌋ < ⌊q⌋ + 1 - q then ⌊q⌋
  else if ⌊q⌋ + 1 - q < q - ⌊q⌋ then ⌊q⌋ + 1
  else ⌊q⌋ + ⌊q⌋ % 2

lemma roundHalfEven_le (q : K) : (roundHalfEven q : K) ≤ q + 1 / 2 := by
  have hfloor := Int.floor_le q
  have hmod : ((⌊q⌋ % 2 : ℤ) : K) ≤ 1 := by exact_mod_cast (by omega : ⌊q⌋ % 2 ≤ 1)
  rw [roundHalfEven]
  split_ifs <;> push_cast <;> linarith

lemma le_roundHalfEven (q : K) : q - 1 / 2 ≤ roundHalfEven q := by
  have hfloor := Int.lt_floor_add_one q
  have hmod : (0 : K) ≤ ((⌊q⌋ % 2 : ℤ) : K) := by exact_mod_cast (by omega : 0 ≤ ⌊q⌋ % 2)
  rw [roundHalfEven]
  split_ifs <;> push_cast <;> linarith

/-- Where there is no tie. -/
lemma roundHalfEven_eq {q : K} {m : ℤ} (hlo : m - 1 / 2 < q) (hhi : q < m + 1 / 2) :
    roundHalfEven q = m := by
  have hle : (roundHalfEven q : K) < m + 1 := (roundHalfEven_le q).trans_lt (by linarith)
  have hge : (m - 1 : K) < roundHalfEven q := lt_of_lt_of_le (by linarith) (le_roundHalfEven q)
  have hle' : roundHalfEven q < m + 1 := by exact_mod_cast hle
  have hge' : m - 1 < roundHalfEven q := by exact_mod_cast hge
  omega

theorem roundHalfEven_le_one_iff {q : K} : roundHalfEven q ≤ 1 ↔ q < 3 / 2 := by
  have hlo : (⌊q⌋ : K) ≤ q := Int.floor_le q
  have hhi : q < ⌊q⌋ + 1 := Int.lt_floor_add_one q
  have hcast : ∀ m : ℤ, ⌊q⌋ ≤ m → (⌊q⌋ : K) ≤ m := fun m h => by exact_mod_cast h
  have hcast' : ∀ m : ℤ, m ≤ ⌊q⌋ → (m : K) ≤ ⌊q⌋ := fun m h => by exact_mod_cast h
  rcases lt_trichotomy ⌊q⌋ 1 with h | h | h
  · -- below one nothing is rounded past it
    have h0 := hcast 0 (by omega)
    rw [Int.cast_zero] at h0
    refine iff_of_true ?_ (by linarith)
    rw [roundHalfEven]
    split_ifs <;> omega
  · have h1 : (⌊q⌋ : K) = 1 := by exact_mod_cast h
    rw [roundHalfEven, h, Int.cast_one]
    split_ifs with hlt hgt
    · exact iff_of_true le_rfl (by linarith)
    · exact iff_of_false (by omega) (by linarith)
    · exact iff_of_false (by omega) (by linarith)
  · have h2 := hcast' 2 (by omega)
    rw [Int.cast_ofNat] at h2
    refine iff_of_false ?_ (by linarith)
    rw [roundHalfEven]
    split_ifs <;> omega

end Masks
