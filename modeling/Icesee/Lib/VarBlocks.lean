import Icesee.Lib.Tiling

/-!
Blocks of variables, seen from consecutive blocks of rows.

`v` variables of `nd / v` rows each stand one under the other in `nd` rows, and some of
them are marked. Somebody who only holds the `L` rows of one block `r` of a tiling, and
takes these for all the rows, places the variables at multiples of `L / v` instead of
`nd / v`. `aligned_iff` says for which tilings and which marks he still finds the rows
of the marked variables: one block has all rows, or no row is found and none is marked,
or all rows are found and all are marked, or the marked variables are the last ones and
only the last block is large enough to hold a row of each.
-/

namespace VarBlocks

open Tiling

/-- Row `j` is in one of the marked blocks of `n` rows. -/
def Marked (T : ℕ → Prop) (n j : ℕ) : Prop := ∃ i, T i ∧ i * n ≤ j ∧ j < i * n + n

variable {T : ℕ → Prop} {n j : ℕ}

lemma marked_iff : Marked T n j ↔ 0 < n ∧ T (j / n) := by
  constructor
  · rintro ⟨i, hi, hle, hlt⟩
    have hn : 0 < n := by omega
    have hdiv : j / n = i :=
      Nat.div_eq_of_lt_le hle (by rw [Nat.succ_mul]; omega)
    exact ⟨hn, hdiv ▸ hi⟩
  · rintro ⟨hn, hT⟩
    exact ⟨j / n, hT, Nat.div_mul_le_self j n, Nat.lt_div_mul_add hn⟩

instance [DecidablePred T] : Decidable (Marked T n j) := decidable_of_iff _ marked_iff.symm

/-- With the first `m` variables marked, the rows that are not marked are the rows from
`n * m` on. -/
lemma not_marked_lt_iff {m : ℕ} : ¬ Marked (· < m) n j ↔ n * m ≤ j := by
  rw [marked_iff]
  rcases Nat.eq_zero_or_pos n with rfl | hn
  · simp
  · rw [Nat.div_lt_iff_lt_mul hn, Nat.mul_comm n m]
    simp [hn]

/-- The first row of a variable is marked if the variable is. -/
lemma marked_mul_iff (hn : 0 < n) {i : ℕ} : Marked T n (i * n) ↔ T i := by
  rw [marked_iff, Nat.mul_div_cancel i hn]
  exact and_iff_right hn

section Aligned

variable {nd p : ℕ} (c : Cuts nd p) (v : ℕ) (T : ℕ → Prop)

/-- In every block the rows of the marked variables are found. -/
def Aligned : Prop :=
  ∀ r < p, ∀ j < c.size r, Marked T (c.size r / v) j ↔ Marked T (nd / v) (c.cut r + j)

/-- One block has all the rows. -/
def OneBlock : Prop := ∃ r < p, c.size r = nd

/-- No variable is marked, and no block finds a marked one in the rows that it has left
over after `v` variables. -/
def NoneMarked : Prop :=
  (∀ i < v, ¬ T i) ∧
    ∀ r < p, v ≤ c.size r → ∀ i, i * (c.size r / v) < c.size r → ¬ T i

/-- All variables are marked, and every block that has rows finds all of them marked. -/
def AllMarked : Prop :=
  (∀ i < v, T i) ∧
    ∀ r < p, 0 < c.size r → v ≤ c.size r ∧ ∀ i, i * (c.size r / v) < c.size r → T i

/-- The variables from `t` on are marked, and the last block, whose variable `t` begins
where it should, is the first one with a row for every variable. -/
def LastMarked : Prop :=
  ∃ r < p, ∃ t, 0 < t ∧ t < v ∧ c.cut (r + 1) = nd ∧ v ≤ c.size r ∧
    (∀ s < r, c.size s < v) ∧ (∀ i < v, T i ↔ t ≤ i) ∧
    (∀ i, t ≤ i → i * (c.size r / v) < c.size r → T i) ∧
    c.cut r + t * (c.size r / v) = t * (nd / v)

variable {c v T}

/-- A position of the tiling belongs to one of the variables. -/
lemma row_div_lt (hd : v ∣ nd) {i : ℕ} (hi : i < nd) : i / (nd / v) < v := by
  have hN : 0 < nd / v := Nat.div_pos (Nat.le_of_dvd (by omega) hd)
    (Nat.pos_of_dvd_of_pos hd (by omega))
  rwa [Nat.div_lt_iff_lt_mul hN, Nat.mul_div_cancel' hd]

lemma rows_pos (hd : v ∣ nd) (hnd : 0 < nd) : 0 < nd / v :=
  Nat.div_pos (Nat.le_of_dvd hnd hd) (Nat.pos_of_dvd_of_pos hd hnd)

/-! ### The tilings that are aligned -/

/-- The block with all rows begins at the first one, and the others are empty. -/
lemma OneBlock.eq {r r₀ : ℕ} (hr₀ : r₀ < p) (hsize : c.size r₀ = nd) (hr : r < p)
    (hj : j < c.size r) : r = r₀ ∧ c.cut r = 0 := by
  have hcut : c.cut r₀ = 0 := by
    have := c.cut_add_size hr₀
    have : c.cut (r₀ + 1) ≤ nd := c.cut_le hr₀
    omega
  have hlt := c.cut_add_lt hr hj
  have hr' : r = r₀ := c.block_unique hr hr₀ hj (by omega) (j := c.cut r + j) (by omega)
  exact ⟨hr', hr' ▸ hcut⟩

lemma OneBlock.aligned (h : OneBlock c) : Aligned c v T := by
  obtain ⟨r₀, hr₀, hsize⟩ := h
  intro r hr j hj
  obtain ⟨rfl, hcut⟩ := OneBlock.eq hr₀ hsize hr hj
  rw [hsize, hcut, Nat.zero_add]

lemma NoneMarked.aligned (hd : v ∣ nd) (h : NoneMarked c v T) : Aligned c v T := by
  intro r hr j hj
  rw [marked_iff, marked_iff]
  refine iff_of_false (fun ⟨hn, hT⟩ => ?_) fun ⟨_, hT⟩ => ?_
  · exact h.2 r hr (Nat.div_pos_iff.mp hn).2 _ ((Nat.div_mul_le_self _ _).trans_lt hj) hT
  · exact h.1 _ (row_div_lt hd (c.cut_add_lt hr hj)) hT

lemma AllMarked.aligned (hd : v ∣ nd) (hv : 0 < v) (h : AllMarked c v T) : Aligned c v T := by
  intro r hr j hj
  have hlt := c.cut_add_lt hr hj
  obtain ⟨hle, hall⟩ := h.2 r hr (by omega)
  rw [marked_iff, marked_iff]
  refine iff_of_true ⟨Nat.div_pos hle hv, ?_⟩ ⟨rows_pos hd (by omega), ?_⟩
  · exact hall _ ((Nat.div_mul_le_self _ _).trans_lt hj)
  · exact h.1 _ (row_div_lt hd hlt)

lemma LastMarked.aligned (hd : v ∣ nd) (hv : 0 < v) (h : LastMarked c v T) : Aligned c v T := by
  obtain ⟨r₀, hr₀, t, ht, htv, hlast, hsize, hsmall, hiff, hcover, hcut⟩ := h
  intro r hr j hj
  have hlt := c.cut_add_lt hr hj
  have hN : 0 < nd / v := rows_pos hd (by omega)
  have hq := row_div_lt hd hlt
  have hglobal : Marked T (nd / v) (c.cut r + j) ↔ t * (nd / v) ≤ c.cut r + j := by
    rw [marked_iff, hiff _ hq, Nat.le_div_iff_mul_le hN]
    exact and_iff_right hN
  rw [hglobal]
  rcases lt_trichotomy r r₀ with hlt₀ | rfl | hlt₀
  · -- the blocks before the last one have no row for the later variables
    have hend := c.cut_add_size_le hlt₀ hr₀.le
    rw [marked_iff, Nat.div_eq_of_lt (hsmall r hlt₀)]
    exact iff_of_false (fun h => absurd h.1 (lt_irrefl 0)) (by omega)
  · have hn : 0 < c.size r / v := Nat.div_pos hsize hv
    have hlocal : T (j / (c.size r / v)) ↔ t ≤ j / (c.size r / v) := by
      obtain hqv | hqv := lt_or_ge (j / (c.size r / v)) v
      · exact hiff _ hqv
      · exact iff_of_true (hcover _ (htv.le.trans hqv)
          ((Nat.div_mul_le_self _ _).trans_lt hj)) (htv.le.trans hqv)
    rw [marked_iff, hlocal, Nat.le_div_iff_mul_le hn, and_iff_right hn, ← hcut]
    omega
  · have hend := c.cut_add_size_le hlt₀ hr.le
    rw [c.cut_add_size hr₀] at hend
    omega

/-! ### No others -/

section Necessary

variable (hd : v ∣ nd) (h : Aligned c v T)

include hd h

/-- With no variable marked, no block finds any. -/
lemma Aligned.noneMarked (hv : 0 < v) (hnone : ∀ i < v, ¬ T i) : NoneMarked c v T := by
  refine ⟨hnone, fun r hr hsize i hi hT => ?_⟩
  have hn : 0 < c.size r / v := Nat.div_pos hsize hv
  have hglobal := (h r hr _ hi).mp ((marked_mul_iff hn).mpr hT)
  exact hnone _ (row_div_lt hd (c.cut_add_lt hr hi)) (marked_iff.mp hglobal).2

variable (hsmaller : ∀ r < p, c.size r / v < nd / v)

include hsmaller

/-- With the first variable marked, all are. -/
lemma Aligned.allMarked (hT : T 0) (hnd : 0 < nd) : AllMarked c v T := by
  have hN := rows_pos hd hnd
  have hall : ∀ i < v, T i := by
    obtain ⟨r, hr, j, hj, hrow⟩ := c.exists_block hnd
    obtain ⟨hcut, rfl⟩ : c.cut r = 0 ∧ j = 0 := by omega
    -- the block of row `0` has a row for every variable, so it finds variable `i`
    have hn : 0 < c.size r / v := by
      have hrow0 := (h r hr 0 hj).mpr (by rw [hcut, marked_iff]; simpa [hN] using hT)
      exact (marked_iff.mp hrow0).1
    intro i
    induction i using Nat.strong_induction_on with
    | _ i ih =>
        intro hi
        have hpos : i * (c.size r / v) < c.size r := by
          calc i * (c.size r / v) < v * (c.size r / v) := Nat.mul_lt_mul_of_pos_right hi hn
            _ ≤ c.size r := Nat.mul_div_le _ _
        refine (marked_mul_iff hn).mp ((h r hr _ hpos).mpr ?_)
        rw [hcut, Nat.zero_add, marked_iff]
        rcases Nat.eq_zero_or_pos i with rfl | hi0
        · simpa [hN] using hT
        · have hqi : i * (c.size r / v) / (nd / v) < i := by
            rw [Nat.div_lt_iff_lt_mul hN]
            exact Nat.mul_lt_mul_of_pos_left (hsmaller r hr) hi0
          exact ⟨hN, ih _ hqi (by omega)⟩
  refine ⟨hall, fun r hr hsize => ?_⟩
  -- every row is marked, so every block finds every row of its own marked
  have hmarked : ∀ j < c.size r, Marked T (c.size r / v) j := fun j hj =>
    (h r hr j hj).mpr (marked_iff.mpr ⟨hN, hall _ (row_div_lt hd (c.cut_add_lt hr hj))⟩)
  have hn := (marked_iff.mp (hmarked 0 hsize)).1
  exact ⟨(Nat.div_pos_iff.mp hn).2, fun i hi => (marked_mul_iff hn).mp (hmarked _ hi)⟩

omit hd h hsmaller in
/-- Blocks of `n` rows that begin where the block `t` of `N` rows does, fall behind. -/
lemma shift_lt {a t i n N : ℕ} (hstart : a + t * n = t * N) (hn : n < N) (hi : t < i) :
    a + i * n < i * N := by
  obtain ⟨d, rfl⟩ := Nat.exists_eq_add_of_lt hi
  have hstep : (d + 1) * n < (d + 1) * N := Nat.mul_lt_mul_of_pos_left hn (by omega)
  rw [Nat.add_assoc t d 1, Nat.add_mul t (d + 1), Nat.add_mul t (d + 1)]
  omega

/-- From a marked variable that a block has where it should, the marked variables have no
gap up to the end of the block. -/
lemma Aligned.no_gap (hnd : 0 < nd) {r t : ℕ} (hr : r < p) (hn : 0 < c.size r / v) (hTt : T t)
    (hcut : c.cut r + t * (c.size r / v) = t * (nd / v)) :
    ∀ i, t ≤ i → i * (c.size r / v) < c.size r → T i := by
  have hN := rows_pos hd hnd
  intro i
  induction i using Nat.strong_induction_on with
  | _ i ih =>
      intro hti hi
      obtain rfl | hlt := hti.eq_or_lt
      · exact hTt
      refine (marked_mul_iff hn).mp ((h r hr _ hi).mpr ?_)
      have hge : t ≤ (c.cut r + i * (c.size r / v)) / (nd / v) := by
        rw [Nat.le_div_iff_mul_le hN, ← hcut]
        exact Nat.add_le_add_left (Nat.mul_le_mul_right _ hti) _
      have hqi : (c.cut r + i * (c.size r / v)) / (nd / v) < i :=
        (Nat.div_lt_iff_lt_mul hN).mpr (shift_lt hcut (hsmaller r hr) hlt)
      refine marked_iff.mpr ⟨hN, ih _ hqi hge ?_⟩
      exact (Nat.mul_le_mul_right _ hqi.le).trans_lt hi

/-- With the first variable not marked, the block that has the first marked row is the
last one, and from there on everything is marked. -/
lemma Aligned.lastMarked (hv : 0 < v) (hT0 : ¬ T 0) {t : ℕ} (htv : t < v) (hTt : T t)
    (hleast : ∀ i < t, ¬ T i) (hnd : 0 < nd) : LastMarked c v T := by
  have hN := rows_pos hd hnd
  have ht : 0 < t := Nat.pos_of_ne_zero fun h0 => hT0 (h0 ▸ hTt)
  have hrow : t * (nd / v) < nd := by
    calc t * (nd / v) < v * (nd / v) := Nat.mul_lt_mul_of_pos_right htv hN
      _ = nd := Nat.mul_div_cancel' hd
  -- before row `t * (nd / v)` nothing is marked
  have hbefore : ∀ i < t * (nd / v), ¬ Marked T (nd / v) i := fun i hi hm =>
    hleast _ ((Nat.div_lt_iff_lt_mul hN).mpr hi) (marked_iff.mp hm).2
  obtain ⟨r, hr, j, hj, hrj⟩ := c.exists_block hrow
  have hmark : Marked T (c.size r / v) j :=
    (h r hr j hj).mpr (by rw [hrj]; exact (marked_mul_iff hN).mpr hTt)
  obtain ⟨hn, hTj⟩ := marked_iff.mp hmark
  set n := c.size r / v with hn_def
  have hle : t * n ≤ j := by
    rw [← Nat.le_div_iff_mul_le hn]
    exact not_lt.mp fun hlt => hleast _ hlt hTj
  have hcut : c.cut r + t * n = t * (nd / v) := by
    have hge : ¬ c.cut r + t * n < t * (nd / v) := fun hlt =>
      hbefore _ hlt ((h r hr _ (hle.trans_lt hj)).mp ((marked_mul_iff hn).mpr hTt))
    omega
  have hvn : v * n ≤ c.size r := Nat.mul_div_le _ _
  have hcover : ∀ i, t ≤ i → i * n < c.size r → T i :=
    h.no_gap hd hsmaller hnd hr hn hTt hcut
  refine ⟨r, hr, t, ht, htv, ?_, (Nat.div_pos_iff.mp hn).2, fun s hs => ?_,
    fun i hi => ⟨fun hTi => not_lt.mp fun hlt => hleast i hlt hTi, fun hti => hcover i hti ?_⟩,
    hcover, hcut⟩
  · -- a row after the block would be marked, but it is the first one of its block
    by_contra hne
    have hend := c.cut_add_size hr
    have hend_lt : c.cut r + c.size r < nd := by
      have : c.cut (r + 1) ≤ nd := c.cut_le hr
      omega
    obtain ⟨r', hr', hsize', hcut'⟩ := c.exists_next hr hend_lt
    have hq : T ((c.cut r + c.size r) / (nd / v)) := by
      have hge : t ≤ (c.cut r + c.size r) / (nd / v) := by
        rw [Nat.le_div_iff_mul_le hN]
        omega
      refine hcover _ hge ?_
      obtain heq | hlt := hge.eq_or_lt
      · rw [← heq]
        omega
      · have hshift : c.cut r + _ * n < _ * (nd / v) := shift_lt hcut (hsmaller r hr) hlt
        have hq_le := Nat.div_mul_le_self (c.cut r + c.size r) (nd / v)
        omega
    have hfound := (h r' hr' 0 hsize').mpr (by
      rw [Nat.add_zero, hcut']
      exact marked_iff.mpr ⟨hN, hq⟩)
    exact hT0 (by simpa using (marked_iff.mp hfound).2)
  · -- an earlier block with a row for variable `t` would find it too early
    by_contra! hge
    have hns : 0 < c.size s / v := Nat.div_pos hge hv
    have hpos : t * (c.size s / v) < c.size s := by
      calc t * (c.size s / v) < v * (c.size s / v) := Nat.mul_lt_mul_of_pos_right htv hns
        _ ≤ c.size s := Nat.mul_div_le _ _
    have hend := c.cut_add_size_le hs hr.le
    refine hbefore _ ?_ ((h s (by omega) _ hpos).mp ((marked_mul_iff hns).mpr hTt))
    omega
  · exact (Nat.mul_lt_mul_of_pos_right hi hn).trans_le hvn

end Necessary

/-- **Aligned tilings**: the marked rows are found in every block exactly in the four
cases. -/
theorem aligned_iff (hd : v ∣ nd) (hv : 0 < v) (hp : 0 < p) :
    Aligned c v T ↔ OneBlock c ∨ NoneMarked c v T ∨ AllMarked c v T ∨ LastMarked c v T := by
  constructor
  · intro h
    by_cases hone : OneBlock c
    · exact Or.inl hone
    refine Or.inr ?_
    -- every block is smaller than the whole
    have hlt : ∀ r < p, c.size r < nd := by
      intro r hr
      exact lt_of_le_of_ne (c.size_le hr) fun heq => hone ⟨r, hr, heq⟩
    have hnd : 0 < nd := (Nat.zero_le _).trans_lt (hlt 0 hp)
    have hsmaller : ∀ r < p, c.size r / v < nd / v := fun r hr =>
      Nat.div_lt_of_lt_mul (by rw [Nat.mul_div_cancel' hd]; exact hlt r hr)
    by_cases hT0 : T 0
    · -- the first variable decides, or else the first one that is marked
      exact Or.inr (Or.inl (h.allMarked hd hsmaller hT0 hnd))
    by_cases hex : ∃ t, t < v ∧ T t
    · classical
      obtain ⟨htv, hTt⟩ := Nat.find_spec hex
      exact Or.inr (Or.inr (h.lastMarked hd hsmaller hv hT0 htv hTt
        (fun i hi hTi => Nat.find_min hex hi ⟨hi.trans htv, hTi⟩) hnd))
    · exact Or.inl (h.noneMarked hd hv fun i hi hTi => hex ⟨i, hi, hTi⟩)
  · rintro (h | h | h | h)
    · exact h.aligned
    · exact h.aligned hd
    · exact h.aligned hd hv
    · exact h.aligned hd hv

/-! ### The first variables marked, and tilings that do not grow -/

/-- Marking the first `m` variables: none, or all in blocks that `v` divides. -/
theorem aligned_lt_iff (hd : v ∣ nd) (hv : 0 < v) (hp : 0 < p) {m : ℕ} (hm : m ≤ v) :
    Aligned c v (· < m) ↔ OneBlock c ∨ m = 0 ∨ (m = v ∧ ∀ r < p, v ∣ c.size r) := by
  have hnone : NoneMarked c v (· < m) ↔ m = 0 := by
    refine ⟨fun h => Nat.eq_zero_of_not_pos (h.1 0 hv), ?_⟩
    rintro rfl
    exact ⟨fun i _ => Nat.not_lt_zero i, fun r _ _ i _ => Nat.not_lt_zero i⟩
  have hall : AllMarked c v (· < m) ↔ m = v ∧ ∀ r < p, v ∣ c.size r := by
    constructor
    · rintro ⟨h, hblocks⟩
      have hvm : v ≤ m := by
        have := h (v - 1) (by omega)
        omega
      refine ⟨le_antisymm hm hvm, fun r hr => ?_⟩
      rcases Nat.eq_zero_or_pos (c.size r) with h0 | hpos
      · exact h0 ▸ Nat.dvd_zero v
      -- a row past the rows of the `v` variables would not be marked
      have hno : ¬ v * (c.size r / v) < c.size r := fun hlt => by
        have := (hblocks r hr hpos).2 v hlt
        omega
      exact ⟨c.size r / v, le_antisymm (not_lt.mp hno) (Nat.mul_div_le _ _)⟩
    · rintro ⟨rfl, h⟩
      refine ⟨fun i hi => hi, fun r hr hpos => ⟨Nat.le_of_dvd hpos (h r hr), fun i hi => ?_⟩⟩
      refine Nat.lt_of_mul_lt_mul_right (a := c.size r / m) ?_
      rwa [Nat.mul_div_cancel' (h r hr)]
  have hlast : ¬ LastMarked c v (· < m) := by
    rintro ⟨r, -, t, ht, htv, -, -, -, hiff, -, -⟩
    have h0 := hiff 0 hv
    have ht' := hiff t htv
    simp only at h0 ht'
    omega
  rw [aligned_iff hd hv hp, hnone, hall]
  tauto

/-- Where later blocks are not larger than the first one, the last case is the first. -/
lemma LastMarked.oneBlock (h : LastMarked c v T) (hmono : ∀ r < p, c.size r ≤ c.size 0) :
    OneBlock c := by
  obtain ⟨r, hr, t, -, -, hlast, hsize, hsmall, -, -, -⟩ := h
  rcases Nat.eq_zero_or_pos r with rfl | hpos
  · refine ⟨0, hr, ?_⟩
    rw [Cuts.size, hlast, c.cut_zero, Nat.sub_zero]
  · have := hsmall 0 hpos
    have := hmono r hr
    omega

end Aligned

end VarBlocks
