import Mathlib.Algebra.Group.Fin.Basic
import Mathlib.Data.List.FinRange
import Mathlib.Data.PNat.Basic
import Icesee.Lib.Hermitian
import Icesee.Lib.Keyed
import Icesee.Noise.EnkfField

/-!
The random phases of the pseudo-random fields.

In one dimension the phases are assigned by masks: the first of two conjugate points is
given a draw, the second one the opposite, and a point that is its own conjugate keeps its
zero. In two dimensions a loop over the cells does the same with an array of cells that are
done. Both assign every cell once, give every pair of conjugate cells a draw of its own and
leave phases that make the coefficients Hermitian, so that the inverse transform is real
(`hermitianPhases`), and `np.real` in the generator of one dimension drops nothing
(`Domain1d.qExt_eq`).
-/

namespace Icesee

open Hermitian Keyed

/-- The draws of the phases: every pair of conjugate cells shares one, with a number that no
other pair has. -/
def DrawnByPairs {G : Type} [Neg G] (phi : G → ℝ) (draw : ℕ → ℝ) : Prop :=
  ∃ num : G → ℕ, ∀ k, -k ≠ k →
    num (-k) = num k ∧ SharesDraw (phi k) (phi (-k)) (draw (num k)) ∧
      ∀ l, -l ≠ l → num l = num k → l = k ∨ l = -k

/-- What the phases of a grid should be: every cell is assigned once, conjugate cells share a
draw and have opposite phases, and so even amplitudes give Hermitian coefficients and a real
transform. -/
structure HermitianField {G : Type} [AddCommGroup G] [Fintype G] (phi : G → ℝ) (draw : ℕ → ℝ)
    (assigned : List G) (transform : (G → ℂ) → G → ℂ) : Prop where
  nodup : assigned.Nodup
  mem : ∀ k, k ∈ assigned
  drawn : DrawnByPairs phi draw
  phases : Phases phi
  coefficients : ∀ A : G → ℝ, (∀ k, A (-k) = A k) → IsHermitian fun k => (A k : ℂ) * turn (phi k)
  real : ∀ A : G → ℝ, (∀ k, A (-k) = A k) → ∀ j,
    (transform (fun k => (A k : ℂ) * turn (phi k)) j).im = 0

/-! ### One dimension -/

/-- `phi`, with the cells in the order in which they are given their phases. -/
structure Assigned (G : Type) where
  phi : G → ℝ
  assigned : List G

/-- `phi[i] = x`. -/
def Assigned.assign {G : Type} [DecidableEq G] (s : Assigned G) (i : G) (x : ℝ) : Assigned G where
  phi := Function.update s.phi i x
  assigned := s.assigned ++ [i]

section OneDimension

variable (n : ℕ+)

/-- `self_conj_mask`. -/
def selfConj : List (Fin n) := (List.finRange n).filter fun i => i = -i

/-- `mask_representative & ~self_conj_mask`. -/
def representatives : List (Fin n) := (List.finRange n).filter fun i => i ≤ -i ∧ i ≠ -i

/-- `~mask_representative`. -/
def conjugates : List (Fin n) := (List.finRange n).filter fun i => ¬ i ≤ -i

/-- `np.zeros`, which is where the points of `self_conj_mask` have their phases from. -/
def zeroPhases : Assigned (Fin n) where
  phi := fun _ => 0
  assigned := selfConj n

/-- `phi` after the draws are assigned, in the order of the representatives. -/
def drawnPhases (draw : ℕ → ℝ) : Assigned (Fin n) :=
  (representatives n).zipIdx.foldl (fun s p => s.assign p.1 (draw p.2)) (zeroPhases n)

/-- `phi` in `generate_pseudo_random_field_1d`. -/
noncomputable def phases1d (draw : ℕ → ℝ) : Assigned (Fin n) :=
  (conjugates n).foldl (fun s i => s.assign i (Int.fract (-(drawnPhases n draw).phi (-i))))
    (drawnPhases n draw)

/-- `np.fft.ifft(b) * N_ext`. -/
noncomputable def ifft1d (b : Fin n → ℂ) (j : Fin n) : ℂ :=
  ∑ k, b k * turn ((j : ℕ) * (k : ℕ) / (n : ℕ))

end OneDimension

/-! ### Two dimensions -/

section TwoDimensions

variable (ny nx : ℕ+)

/-- The cells in the order of the loops. -/
def cells : List (Fin ny × Fin nx) :=
  (List.finRange ny).flatMap fun j => (List.finRange nx).map fun i => (j, i)

/-- The loops over the cells, with `phi` and `done`. -/
noncomputable def phases2D (draw : ℕ → ℝ) : Visited (Fin ny × Fin nx) :=
  visitAll (fun cell => -cell) draw (cells ny nx)

/-- `np.fft.ifft2(b) * (nx_ext * ny_ext)`. -/
noncomputable def ifft2D (b : Fin ny × Fin nx → ℂ) (j : Fin ny × Fin nx) : ℂ :=
  ∑ k, b k * turn ((j.1 : ℕ) * (k.1 : ℕ) / (ny : ℕ) + (j.2 : ℕ) * (k.2 : ℕ) / (nx : ℕ))

end TwoDimensions

/-! ### The transforms -/

section Transforms

variable {n ny nx : ℕ+}

/-- The opposite of an index, as a number. -/
lemma exists_cast_neg (k : Fin n) : ∃ z : ℤ, (((-k : Fin n) : ℕ) : ℝ) = -((k : ℕ) : ℝ) + n * z := by
  rw [Fin.val_neg]
  split_ifs with h
  · exact ⟨0, by simp [h]⟩
  · exact ⟨1, by rw [Nat.cast_sub k.2.le]; push_cast; ring⟩

/-- The exponentials of the transform turn round with the index. -/
lemma exists_angle_neg (j k : Fin n) : ∃ z : ℤ, (j : ℕ) * ((-k : Fin n) : ℕ) / ((n : ℕ) : ℝ) =
    -((j : ℕ) * (k : ℕ) / ((n : ℕ) : ℝ)) + z := by
  obtain ⟨z, hz⟩ := exists_cast_neg k
  have hn : ((n : ℕ) : ℝ) ≠ 0 := Nat.cast_ne_zero.mpr n.ne_zero
  refine ⟨(j : ℕ) * z, ?_⟩
  rw [hz]
  push_cast
  field_simp

lemma isHermitian_turn1d (j : Fin n) :
    IsHermitian fun k : Fin n => turn ((j : ℕ) * (k : ℕ) / (n : ℕ)) := by
  intro k
  obtain ⟨z, hz⟩ := exists_angle_neg j k
  dsimp only
  rw [hz, turn_add_int, turn_neg]

lemma isHermitian_turn2D (j : Fin ny × Fin nx) : IsHermitian fun k : Fin ny × Fin nx =>
    turn ((j.1 : ℕ) * (k.1 : ℕ) / (ny : ℕ) + (j.2 : ℕ) * (k.2 : ℕ) / (nx : ℕ)) := by
  intro k
  obtain ⟨z1, hz1⟩ := exists_angle_neg j.1 k.1
  obtain ⟨z2, hz2⟩ := exists_angle_neg j.2 k.2
  have hadd : ∀ x y : ℝ, -x + z1 + (-y + z2) = -(x + y) + ((z1 + z2 : ℤ) : ℝ) := by
    intro x y
    push_cast
    ring
  dsimp only
  rw [Prod.fst_neg, Prod.snd_neg, hz1, hz2, hadd, turn_add_int, turn_neg]

end Transforms

/-! ### The masks -/

section Masks

variable {n : ℕ+} {draw : ℕ → ℝ} {i : Fin n}

lemma mem_selfConj : i ∈ selfConj n ↔ i = -i := by simp [selfConj]

lemma mem_representatives : i ∈ representatives n ↔ i < -i := by
  simp [representatives, lt_iff_le_and_ne]

lemma mem_conjugates : i ∈ conjugates n ↔ -i < i := by simp [conjugates]

/-- A loop of assignments, with what it assigns. -/
lemma foldl_assign {G β : Type} [DecidableEq G] (cell : β → G) (value : β → ℝ) (l : List β)
    (s : Assigned G) : l.foldl (fun s b => s.assign (cell b) (value b)) s =
      ⟨l.foldl (fun phi b => Function.update phi (cell b) (value b)) s.phi,
        s.assigned ++ l.map cell⟩ := by
  induction l generalizing s with
  | nil => rw [List.map_nil, List.append_nil, List.foldl_nil, List.foldl_nil]
  | cons b l ih =>
      rw [List.foldl_cons, ih, List.foldl_cons, List.map_cons, List.append_cons]
      rfl

lemma drawnPhases_phi : (drawnPhases n draw).phi = (representatives n).zipIdx.foldl
    (fun phi p => Function.update phi p.1 (draw p.2)) fun _ => 0 :=
  congrArg Assigned.phi (foldl_assign Prod.fst (fun p => draw p.2) _ (zeroPhases n))

lemma drawnPhases_assigned : (drawnPhases n draw).assigned = selfConj n ++ representatives n := by
  have hloop := congrArg Assigned.assigned
    (foldl_assign Prod.fst (fun p => draw p.2) (representatives n).zipIdx (zeroPhases n))
  rw [drawnPhases, hloop, List.zipIdx_map_fst]
  rfl

/-- A point that is no representative keeps its zero. -/
lemma drawnPhases_of_not_lt (h : ¬ i < -i) : (drawnPhases n draw).phi i = 0 := by
  rw [drawnPhases_phi]
  exact foldl_update_zipIdx_of_notMem 0 _ (mem_representatives.not.mpr h)

lemma phases1d_apply (i : Fin n) : (phases1d n draw).phi i =
    if -i < i then Int.fract (-(drawnPhases n draw).phi (-i)) else (drawnPhases n draw).phi i := by
  have hnodup : (conjugates n).Nodup := (List.nodup_finRange n).filter _
  have hloop := foldl_update_apply (f := fun i _ => Int.fract (-(drawnPhases n draw).phi (-i)))
    hnodup (drawnPhases n draw).phi i
  have hphi := congrArg Assigned.phi (foldl_assign (fun i : Fin n => i)
    (fun i => Int.fract (-(drawnPhases n draw).phi (-i))) (conjugates n) (drawnPhases n draw))
  rw [phases1d, hphi]
  exact hloop.trans (if_congr mem_conjugates rfl rfl)

/-- What the three statements assign. -/
lemma phases1d_assigned :
    (phases1d n draw).assigned = selfConj n ++ representatives n ++ conjugates n := by
  have hloop := congrArg Assigned.assigned (foldl_assign (fun i : Fin n => i)
    (fun i => Int.fract (-(drawnPhases n draw).phi (-i))) (conjugates n) (drawnPhases n draw))
  rw [phases1d, hloop, drawnPhases_assigned, List.map_id']

/-- Conjugate points have opposite phases. -/
lemma phases_phases1d : Phases (phases1d n draw).phi where
  neg k := by
    rw [phases1d_apply, phases1d_apply, neg_neg]
    rcases lt_trichotomy k (-k) with h | h | h
    · rw [if_pos h, if_neg h.not_gt]
      exact exists_fract_neg _
    · refine ⟨0, ?_⟩
      rw [if_neg (by rw [← h]; exact lt_irrefl k), if_neg (by rw [← h]; exact lt_irrefl k), ← h,
        drawnPhases_of_not_lt (by rw [← h]; exact lt_irrefl k)]
      simp
    · rw [if_neg h.not_gt, if_pos h]
      exact exists_neg_fract_neg _
  self k hk := by
    rw [phases1d_apply, hk, if_neg (lt_irrefl k),
      drawnPhases_of_not_lt (by rw [hk]; exact lt_irrefl k)]

/-- The three masks are a partition of the points. -/
lemma nodup_assigned1d : (phases1d n draw).assigned.Nodup := by
  have hfin : (List.finRange n).Nodup := List.nodup_finRange n
  rw [phases1d_assigned, List.nodup_append', List.nodup_append']
  refine ⟨⟨hfin.filter _, hfin.filter _, fun i hs hr => ?_⟩, hfin.filter _, fun i hs hc => ?_⟩
  · exact (mem_representatives.mp hr).ne (mem_selfConj.mp hs)
  · have hlt := mem_conjugates.mp hc
    rcases List.mem_append.mp hs with h | h
    · exact hlt.ne' (mem_selfConj.mp h)
    · exact hlt.not_gt (mem_representatives.mp h)

lemma mem_assigned1d (i : Fin n) : i ∈ (phases1d n draw).assigned := by
  rw [phases1d_assigned, List.mem_append, List.mem_append, mem_selfConj, mem_representatives,
    mem_conjugates]
  rcases lt_trichotomy i (-i) with h | h | h
  · exact .inl (.inr h)
  · exact .inl (.inl h)
  · exact .inr h

/-- The representatives are the points from one up to the middle. -/
lemma map_representatives (n : ℕ+) :
    (representatives n).map Fin.val = List.range' 1 (((n : ℕ) - 1) / 2) := by
  have hlt : ∀ i : Fin n, i < -i ↔ 1 ≤ (i : ℕ) ∧ (i : ℕ) < 1 + ((n : ℕ) - 1) / 2 := by
    intro i
    have := i.2
    rw [Fin.lt_def, Fin.val_neg]
    split_ifs with h
    · rw [h]
      simp
    · have := Fin.val_ne_zero_iff.mpr h
      omega
  refine List.Pairwise.eq_of_mem_iff ?_ List.pairwise_lt_range' fun a => ?_
  · exact List.pairwise_map.mpr ((List.pairwise_lt_finRange n).filter _)
  · rw [List.mem_map, List.mem_range'_1]
    constructor
    · rintro ⟨i, hi, rfl⟩
      exact (hlt i).mp (mem_representatives.mp hi)
    · intro h
      have ha : a < n := by omega
      exact ⟨⟨a, ha⟩, mem_representatives.mpr ((hlt ⟨a, ha⟩).mpr h), rfl⟩

/-- A representative is given the draw with its number. -/
lemma drawnPhases_of_lt (h : i < -i) : (drawnPhases n draw).phi i = draw ((i : ℕ) - 1) := by
  obtain ⟨k, hk⟩ := List.mem_iff_getElem?.mp (mem_representatives.mpr h)
  have hnodup : (representatives n).Nodup := (List.nodup_finRange n).filter _
  have hval : ((representatives n).map Fin.val)[k]? = some (i : ℕ) := by
    rw [List.getElem?_map, hk]
    rfl
  rw [map_representatives, List.getElem?_eq_some_iff] at hval
  obtain ⟨hlt, hval⟩ := hval
  rw [List.getElem_range', Nat.one_mul] at hval
  rw [drawnPhases_phi, foldl_update_zipIdx hnodup 0 _ hk, ← hval, Nat.zero_add,
    Nat.add_sub_cancel_left]

/-- A pair of points has the draw of its representative. -/
lemma drawnByPairs_phases1d : DrawnByPairs (phases1d n draw).phi draw := by
  have hshare : ∀ k : Fin n, k < -k →
      SharesDraw ((phases1d n draw).phi k) ((phases1d n draw).phi (-k)) (draw ((k : ℕ) - 1)) := by
    intro k hk
    refine .inl ⟨?_, ?_⟩
    · rw [phases1d_apply, if_neg hk.not_gt, drawnPhases_of_lt hk]
    · rw [phases1d_apply, neg_neg, if_pos hk, drawnPhases_of_lt hk]
  have hpos : ∀ k : Fin n, -k ≠ k → 0 < (k : ℕ) := by
    intro k hk
    refine Nat.pos_of_ne_zero fun h => hk ?_
    rw [Fin.val_eq_zero_iff.mp h, neg_zero]
  refine ⟨fun k => (min k (-k) : Fin n) - 1, fun k hk => ⟨?_, ?_, fun l hl heq => ?_⟩⟩
  · dsimp only
    rw [neg_neg, min_comm]
  · rcases lt_or_gt_of_ne hk with h | h
    · have hneg := hshare (-k) (by rwa [neg_neg])
      rw [neg_neg] at hneg
      dsimp only
      rw [min_eq_right h.le]
      exact hneg.symm
    · dsimp only
      rw [min_eq_left h.le]
      exact hshare k h
  · -- the smaller point of a pair is its representative, and its number is its own
    have hmin : ∀ k : Fin n, -k ≠ k → 0 < ((min k (-k) : Fin n) : ℕ) := by
      intro k hk
      rcases min_choice k (-k) with h | h <;> rw [h]
      · exact hpos k hk
      · exact hpos (-k) (by rw [neg_neg]; exact hk.symm)
    have hval : min l (-l) = min k (-k) := by
      have hk0 := hmin k hk
      have hl0 := hmin l hl
      refine Fin.ext ?_
      dsimp only at heq
      omega
    rcases min_choice l (-l) with h | h <;> rcases min_choice k (-k) with h' | h' <;>
      rw [h, h'] at hval
    · exact .inl hval
    · exact .inr hval
    · exact .inr (neg_eq_iff_eq_neg.mp hval)
    · exact .inl (neg_injective hval)

end Masks

/-! ### Real fields -/

/-- Phases that are opposite make everything else so. -/
lemma HermitianField.of_phases {G : Type} [AddCommGroup G] [Fintype G] {phi : G → ℝ}
    {draw : ℕ → ℝ} {assigned : List G} {χ : G → G → ℂ} (hnodup : assigned.Nodup)
    (hmem : ∀ k, k ∈ assigned) (hdrawn : DrawnByPairs phi draw) (hphi : Phases phi)
    (hχ : ∀ j, IsHermitian (χ j)) :
    HermitianField phi draw assigned fun b j => ∑ k, b k * χ j k where
  nodup := hnodup
  mem := hmem
  drawn := hdrawn
  phases := hphi
  coefficients _ hA := hphi.isHermitian hA
  real _ hA j := (hphi.isHermitian hA).im_sum (hχ j)

lemma mem_cells {ny nx : ℕ+} (k : Fin ny × Fin nx) : k ∈ cells ny nx :=
  List.mem_flatMap.mpr ⟨k.1, List.mem_finRange _, List.mem_map.mpr ⟨k.2, List.mem_finRange _, rfl⟩⟩

/-- The loop over the cells draws once for each pair. -/
lemma drawnByPairs_phases2D {ny nx : ℕ+} {draw : ℕ → ℝ} :
    DrawnByPairs (phases2D ny nx draw).phi draw := by
  have hinv : Function.Involutive fun k : Fin ny × Fin nx => -k := fun k => neg_neg k
  have hmem : ∀ k, k ∈ (phases2D ny nx draw).assigned :=
    fun k => (paired_visitAll hinv draw (cells ny nx)).2 k (mem_cells k)
  obtain ⟨num, hnum⟩ := numbered_visitAll hinv draw (cells ny nx)
  refine ⟨num, fun k hk => ⟨hnum.same k (hmem k), hnum.shares k (hmem k) hk.symm, ?_⟩⟩
  exact fun l hl heq => hnum.own k (hmem k) l (hmem l) hk.symm hl.symm heq.symm

/-- **Hermitian phases**, of a line and of a grid of any size, for any draws. -/
theorem hermitianPhases (n ny nx : ℕ+) (draw : ℕ → ℝ) :
    HermitianField (phases1d n draw).phi draw (phases1d n draw).assigned (ifft1d n) ∧
      HermitianField (phases2D ny nx draw).phi draw (phases2D ny nx draw).assigned
        (ifft2D ny nx) := by
  have hinv : Function.Involutive fun k : Fin ny × Fin nx => -k := fun k => neg_neg k
  obtain ⟨hpaired, hall⟩ := paired_visitAll hinv draw (cells ny nx)
  have hmem : ∀ k, k ∈ (phases2D ny nx draw).assigned := fun k => hall k (mem_cells k)
  have hphases : Phases (phases2D ny nx draw).phi :=
    ⟨fun k => hpaired.neg k (hmem k), fun k hk => hpaired.self k (hmem k) hk.symm⟩
  exact ⟨.of_phases nodup_assigned1d mem_assigned1d drawnByPairs_phases1d phases_phases1d
      isHermitian_turn1d,
    .of_phases hpaired.nodup hmem drawnByPairs_phases2D hphases isHermitian_turn2D⟩

/-! ### The generator in one dimension -/

namespace Domain1d

variable (p : Domain1d) (sigma : ℝ) (draw : ℕ → ℝ)

/-- `N_ext` points. -/
def points : ℕ+ := ⟨p.extended, Nat.mul_pos p.N_pos p.gridExtension_pos⟩

lemma conj_eq (i : Fin p.points) : p.conj i = ((-i : Fin p.points) : ℕ) := rfl

/-- `phi` in closed form. -/
lemma phi_eq (i : Fin p.points) : p.phi draw i = (phases1d p.points draw).phi i := by
  rw [phi, conj_eq, phases1d_apply]
  rcases lt_trichotomy i (-i) with h | h | h
  · rw [if_neg (Fin.lt_def.mp h).ne, if_pos (Fin.lt_def.mp h), if_neg h.not_gt,
      drawnPhases_of_lt h]
  · rw [if_pos (congrArg Fin.val h), if_neg (by rw [← h]; exact lt_irrefl i),
      drawnPhases_of_not_lt (by rw [← h]; exact lt_irrefl i)]
  · have hlt : -i < - -i := by rwa [neg_neg]
    rw [if_neg (Fin.lt_def.mp h).ne', if_neg (Fin.lt_def.mp h).not_gt, if_pos h,
      drawnPhases_of_lt hlt]

/-- Conjugate modes have opposite frequencies, but for the one in the middle. -/
lemma fftfreq_sub {n i : ℕ} (hi : i < n) (d : ℝ) :
    fftfreq n d (n - i) = -fftfreq n d i ∨ n - i = i := by
  rcases eq_or_ne (n - i) i with h | h
  · exact .inr h
  · have hneg : (if n - i < (n - 1) / 2 + 1 then ((n - i : ℕ) : ℤ) else (n - i : ℕ) - n) =
        -(if i < (n - 1) / 2 + 1 then (i : ℤ) else i - n) := by
      split_ifs <;> omega
    rw [fftfreq, fftfreq, hneg, Int.cast_neg, neg_div]
    exact .inl rfl

/-- So the amplitudes are even. -/
lemma amplitude_neg (i : Fin p.points) :
    p.amplitude sigma ((-i : Fin p.points) : ℕ) = p.amplitude sigma i := by
  have hkx : p.kx ((-i : Fin p.points) : ℕ) ^ 2 = p.kx i ^ 2 := by
    have hsub : fftfreq p.extended p.dx (p.points - i) = -fftfreq p.extended p.dx i ∨
        (p.points - i : ℕ) = i := fftfreq_sub i.2 p.dx
    rw [kx, kx, Fin.val_neg]
    split_ifs with h0
    · rw [h0]
      rfl
    · rcases hsub with h | h
      · rw [h, neg_mul, neg_mul, neg_sq]
      · rw [h]
  rw [amplitude, amplitude, hkx]

/-- **The field before it is cropped**: the sum of the modes has no imaginary part. -/
theorem qExt_eq (j : Fin p.points) : (p.qExt sigma draw j : ℂ) =
    ifft1d p.points
      (fun k => (p.amplitude sigma k : ℂ) * turn ((phases1d p.points draw).phi k)) j := by
  have hphases : Phases (phases1d p.points draw).phi := phases_phases1d
  have hreal := (hphases.isHermitian (A := fun k : Fin p.points => p.amplitude sigma k)
    (p.amplitude_neg sigma)).im_sum (isHermitian_turn1d j)
  have hsum : p.qExt sigma draw j = (ifft1d p.points
      (fun k => (p.amplitude sigma k : ℂ) * turn ((phases1d p.points draw).phi k)) j).re := by
    rw [qExt, ifft1d, Finset.sum_range]
    refine congrArg Complex.re (Finset.sum_congr rfl fun i _ => ?_)
    rw [← p.phi_eq draw i, turn, turn]
    have hpoints : ((p.points : ℕ) : ℂ) = (p.extended : ℂ) := rfl
    have hangle : ((2 : ℕ) : ℂ) * Real.pi * (((i : ℕ) : ℂ) * (j : ℕ)) / (p.extended : ℕ) *
        Complex.I =
          (2 : ℕ) * Real.pi * (((j : ℕ) * (i : ℕ) / (p.points : ℕ) : ℝ) : ℂ) * Complex.I := by
      push_cast
      rw [hpoints]
      ring
    rw [hangle]
  rw [hsum]
  exact Complex.ext rfl hreal.symm

end Domain1d

end Icesee
