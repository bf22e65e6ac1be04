import Mathlib.Data.Int.ModEq
import Mathlib.Algebra.Order.Ring.Abs
import Mathlib.Tactic.Linarith
import Mathlib.Tactic.LinearCombination

/-!
The pairs `(x, y)` with `m * x ≡ y` modulo `p`.

The rows of the Euclidean algorithm for `p` and `m` give pairs with alternating signs, and
neighbouring rows have the determinant `p` (`Adjacent`). Between two neighbouring rows there
is no room for another pair (`Adjacent.eq_zero`), so a box has no pair but `(0, 0)` exactly if
no row lies in it (`box_iff`).
-/

namespace ModLattice

variable {p m : ℤ}

/-- `m * x` and `y` are the same modulo `p`. -/
def Pair (p m x y : ℤ) : Prop := p ∣ m * x - y

instance (p m x y : ℤ) : Decidable (Pair p m x y) := inferInstanceAs (Decidable (_ ∣ _))

/-- Two rows, with the sign of the second component of the first one. -/
structure Adjacent (p m e : ℤ) (v w : ℕ × ℕ) : Prop where
  sign : e * e = 1
  left : Pair p m v.1 (e * v.2)
  right : Pair p m w.1 (-e * w.2)
  det : (v.1 * w.2 + w.1 * v.2 : ℤ) = p

instance (p m e : ℤ) (v w : ℕ × ℕ) : Decidable (Adjacent p m e v w) :=
  decidable_of_iff (e * e = 1 ∧ Pair p m v.1 (e * v.2) ∧ Pair p m w.1 (-e * w.2) ∧
    (v.1 * w.2 + w.1 * v.2 : ℤ) = p)
    ⟨fun ⟨h₁, h₂, h₃, h₄⟩ => ⟨h₁, h₂, h₃, h₄⟩, fun h => ⟨h.sign, h.left, h.right, h.det⟩⟩

/-- Rows that are adjacent one after the other, down to the second component `0`. -/
def Rows (p m : ℤ) : ℤ → List (ℕ × ℕ) → Prop
  | _, [] => False
  | _, [v] => v.2 = 0
  | e, v :: w :: l => Adjacent p m e v w ∧ Rows p m (-e) (w :: l)

instance decidableRows (p m : ℤ) : (e : ℤ) → (l : List (ℕ × ℕ)) → Decidable (Rows p m e l)
  | _, [] => isFalse id
  | _, [v] => inferInstanceAs (Decidable (v.2 = 0))
  | e, _ :: w :: l =>
      have := decidableRows p m (-e) (w :: l)
      inferInstanceAs (Decidable (_ ∧ _))

namespace Adjacent

variable {e x y : ℤ} {v w : ℕ × ℕ}

/-- Adjacent rows are a basis. -/
lemma exists_coords (h : Adjacent p m e v w) (hp : p ≠ 0) (hxy : Pair p m x y) :
    ∃ a b : ℤ, x = a * v.1 + b * w.1 ∧ e * y = a * v.2 - b * w.2 := by
  obtain ⟨q, hq⟩ := hxy
  obtain ⟨r, hr⟩ := h.left
  obtain ⟨s, hs⟩ := h.right
  have he := h.sign
  have hdet := h.det
  have ha : p * (e * (s * x - q * w.1)) = x * w.2 + e * y * w.1 := by
    linear_combination (-e * x) * hs + e * w.1 * hq + x * w.2 * he
  have hb : p * (-e * (r * x - q * v.1)) = x * v.2 - e * y * v.1 := by
    linear_combination e * x * hr - e * v.1 * hq + x * v.2 * he
  refine ⟨e * (s * x - q * w.1), -e * (r * x - q * v.1), ?_, ?_⟩
  all_goals refine mul_left_cancel₀ hp ?_
  · linear_combination (-v.1 : ℤ) * ha - w.1 * hb - x * hdet
  · linear_combination (-v.2 : ℤ) * ha + w.2 * hb - e * y * hdet

/-- **No room between two rows.** -/
lemma eq_zero (h : Adjacent p m e v w) (hp : p ≠ 0) (hxy : Pair p m x y) (hx : |x| < w.1)
    (hy : |y| < v.2) : x = 0 ∧ y = 0 := by
  obtain ⟨a, b, hxab, hyab⟩ := h.exists_coords hp hxy
  have hey : |e * y| = |y| := by
    rw [abs_mul, abs_eq_abs.mpr (mul_self_eq_one_iff.mp h.sign), abs_one, one_mul]
  rw [← hey, abs_lt] at hy
  rw [abs_lt] at hx
  -- a pair that is not `(0, 0)` is too wide or too high, by the signs of the coordinates
  have hv1 : (0 : ℤ) ≤ v.1 := Int.natCast_nonneg _
  have hv2 : (0 : ℤ) ≤ v.2 := Int.natCast_nonneg _
  have hw1 : (0 : ℤ) ≤ w.1 := Int.natCast_nonneg _
  have hw2 : (0 : ℤ) ≤ w.2 := Int.natCast_nonneg _
  have hzero : a = 0 ∧ b = 0 := by
    rcases lt_trichotomy b 0 with hb | rfl | hb
    · rcases le_or_gt a 0 with ha | ha
      · nlinarith [mul_nonneg (neg_nonneg.mpr ha) hv1]
      · nlinarith [mul_nonneg (neg_nonneg.mpr hb.le) hw2]
    · rcases lt_trichotomy a 0 with ha | rfl | ha
      · nlinarith
      · exact ⟨rfl, rfl⟩
      · nlinarith
    · rcases le_or_gt 0 a with ha | ha
      · nlinarith [mul_nonneg ha hv1]
      · nlinarith [mul_nonneg hb.le hw2]
  obtain ⟨rfl, rfl⟩ := hzero
  have he : e ≠ 0 := fun he => by simpa [he] using h.sign
  exact ⟨by simpa using hxab, by simpa [he] using hyab⟩

end Adjacent

variable {e : ℤ} {v : ℕ × ℕ} {l : List (ℕ × ℕ)} {K R : ℕ}

/-- Every row is a pair. -/
lemma Rows.exists_pair (hrows : Rows p m e (v :: l)) (hl : l ≠ []) {w : ℕ × ℕ}
    (hw : w ∈ v :: l) (hp : p ≠ 0) :
    ∃ s : ℤ, |s| = 1 ∧ Pair p m w.1 (s * w.2) ∧ (w.1 ≠ 0 ∨ w.2 ≠ 0) := by
  induction l generalizing e v with
  | nil => exact absurd rfl hl
  | cons u l ih =>
      obtain ⟨hadj, hrest⟩ := hrows
      have hdet := hadj.det
      have hsign : |e| = 1 := by
        rw [abs_eq_abs.mpr (mul_self_eq_one_iff.mp hadj.sign), abs_one]
      rcases List.mem_cons.mp hw with rfl | hw
      · refine ⟨e, hsign, hadj.left, ?_⟩
        by_contra hzero
        push Not at hzero
        exact hp (by simpa [hzero.1, hzero.2] using hdet.symm)
      · rcases List.mem_cons.mp hw with rfl | hw'
        · refine ⟨-e, by rwa [abs_neg], hadj.right, ?_⟩
          by_contra hzero
          push Not at hzero
          exact hp (by simpa [hzero.1, hzero.2] using hdet.symm)
        · exact ih hrest (List.ne_nil_of_mem hw') hw

/-- A box that is lower than the first row and has no other row. -/
lemma Rows.eq_zero (hrows : Rows p m e (v :: l)) (hp : p ≠ 0) (hR : R ≤ v.2)
    (hfree : ∀ w ∈ l, K ≤ w.1 ∨ R ≤ w.2) {x y : ℤ} (hxy : Pair p m x y) (hx : |x| < K)
    (hy : |y| < R) : x = 0 ∧ y = 0 := by
  induction l generalizing e v with
  | nil =>
      have hv : v.2 = 0 := hrows
      have := abs_nonneg y
      omega
  | cons w l ih =>
      obtain ⟨hadj, hrest⟩ := hrows
      rcases hfree w List.mem_cons_self with hK | hR'
      · exact hadj.eq_zero hp hxy (by omega) (by omega)
      · exact ih hrest hR' fun u hu => hfree u (List.mem_cons_of_mem _ hu)

/-- **Boxes**: if the rows begin on the axis, a box has no pair but `(0, 0)` exactly if no row
lies in it. -/
theorem box_iff (hrows : Rows p m e (v :: l)) (hl : l ≠ []) (hp : p ≠ 0) (hv : v.1 = 0) :
    (∀ x y : ℤ, Pair p m x y → |x| < K → |y| < R → x = 0 ∧ y = 0) ↔
      ∀ w ∈ v :: l, K ≤ w.1 ∨ R ≤ w.2 := by
  constructor
  · intro hbox w hw
    by_contra hin
    push Not at hin
    obtain ⟨s, hs, hpair, hne⟩ := hrows.exists_pair hl hw hp
    have hheight : |s * w.2| = w.2 := by rw [abs_mul, hs, one_mul, Nat.abs_cast]
    obtain ⟨h₁, h₂⟩ := hbox w.1 (s * w.2) hpair (by rw [Nat.abs_cast]; exact_mod_cast hin.1)
      (by rw [hheight]; exact_mod_cast hin.2)
    have h₃ : (w.2 : ℤ) = 0 := by rw [← hheight, h₂, abs_zero]
    omega
  · intro hfree x y hxy hx hy
    have hK : ¬ K ≤ v.1 := by
      have := abs_nonneg x
      omega
    have hR := (hfree v List.mem_cons_self).resolve_left hK
    exact hrows.eq_zero hp hR (fun w hw => hfree w (List.mem_cons_of_mem _ hw)) hxy hx hy

end ModLattice
