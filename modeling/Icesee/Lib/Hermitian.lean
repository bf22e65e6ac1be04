import Mathlib.Analysis.SpecialFunctions.Complex.Circle
import Mathlib.Algebra.BigOperators.Group.Finset.Basic

/-!
Hermitian coefficients with random phases.

Phases that change their sign with the index (`Phases`) make the coefficients of an even
amplitude Hermitian (`Phases.isHermitian`), and sums of Hermitian coefficients are real
(`IsHermitian.im_sum`). `visit` assigns phases cell by cell: a cell that is not done gets
a draw, and its partner the opposite of it. Whatever the order of the cells, every cell is
assigned once, and partners have opposite phases (`Paired`, `paired_visitAll`).
-/

namespace Hermitian

open Complex

/-! ### Coefficients -/

section Group

variable {G : Type} [AddCommGroup G]

/-- Opposite indices have conjugate values. -/
def IsHermitian (b : G → ℂ) : Prop := ∀ k, b (-k) = starRingEnd ℂ (b k)

/-- Opposite indices have opposite phases, in whole turns, and an index that is its own
opposite has none. -/
structure Phases (phi : G → ℝ) : Prop where
  neg : ∀ k, ∃ z : ℤ, phi (-k) = -phi k + z
  self : ∀ k, -k = k → phi k = 0

/-- `exp(2πi x)`. -/
noncomputable def turn (x : ℝ) : ℂ := exp ((2 : ℕ) * Real.pi * x * I)

lemma turn_add_int (x : ℝ) (z : ℤ) : turn (x + z) = turn x := by
  have hadd : ((2 : ℕ) : ℂ) * Real.pi * ((x + z : ℝ) : ℂ) * I =
      (2 : ℕ) * Real.pi * x * I + z * (2 * Real.pi * I) := by
    push_cast
    ring
  rw [turn, hadd, exp_add, exp_int_mul_two_pi_mul_I, mul_one, turn]

lemma turn_neg (x : ℝ) : turn (-x) = starRingEnd ℂ (turn x) := by
  rw [turn, turn, ← exp_conj]
  congr 1
  simp only [map_mul, map_natCast, conj_ofReal, conj_I, ofReal_neg, mul_neg, neg_mul]

/-- The opposite of a phase, in `[0, 1)`. -/
lemma exists_fract_neg (x : ℝ) : ∃ z : ℤ, Int.fract (-x) = -x + z := by
  refine ⟨-⌊-x⌋, ?_⟩
  rw [Int.fract]
  push_cast
  ring

lemma exists_neg_fract_neg (x : ℝ) : ∃ z : ℤ, x = -Int.fract (-x) + z := by
  obtain ⟨z, hz⟩ := exists_fract_neg x
  exact ⟨z, by rw [hz]; ring⟩

variable {A phi : G → ℝ} {b χ : G → ℂ}

/-- **Even amplitudes** with such phases are Hermitian. -/
theorem Phases.isHermitian (h : Phases phi) (hA : ∀ k, A (-k) = A k) :
    IsHermitian fun k => (A k : ℂ) * turn (phi k) := by
  intro k
  obtain ⟨z, hz⟩ := h.neg k
  show (A (-k) : ℂ) * turn (phi (-k)) = starRingEnd ℂ (A k * turn (phi k))
  rw [hA, hz, turn_add_int, turn_neg, map_mul, conj_ofReal]

/-- **A sum** of Hermitian values is real. -/
theorem IsHermitian.im_sum [Fintype G] (hb : IsHermitian b) (hχ : IsHermitian χ) :
    (∑ k, b k * χ k).im = 0 := by
  rw [← conj_eq_iff_im, map_sum]
  calc ∑ k, starRingEnd ℂ (b k * χ k) = ∑ k, b (-k) * χ (-k) := by
        refine Finset.sum_congr rfl fun k _ => ?_
        rw [map_mul, hb, hχ]
    _ = ∑ k, b k * χ k := Equiv.sum_comp (Equiv.neg G) fun k => b k * χ k

end Group

/-! ### Pairs of cells -/

section Visit

variable {α : Type} [DecidableEq α]

/-- The phases so far, which cells are done, how many draws were used, and the cells that
were assigned. -/
structure Visited (α : Type) where
  phi : α → ℝ
  done : α → Bool
  draws : ℕ
  assigned : List α

/-- Visit a cell, with its partner. -/
noncomputable def visit (partner : α → α) (draw : ℕ → ℝ) (s : Visited α) (a : α) : Visited α :=
  if s.done a then s
  else if a = partner a then
    { phi := Function.update s.phi a 0
      done := Function.update s.done a true
      draws := s.draws
      assigned := s.assigned ++ [a] }
  else
    { phi := Function.update (Function.update s.phi a (draw s.draws)) (partner a)
        (Int.fract (-draw s.draws))
      done := Function.update (Function.update s.done a true) (partner a) true
      draws := s.draws + 1
      assigned := s.assigned ++ [a, partner a] }

/-- Visit the cells of a list, when nothing is done. -/
noncomputable def visitAll (partner : α → α) (draw : ℕ → ℝ) (cells : List α) : Visited α :=
  cells.foldl (visit partner draw)
    { phi := fun _ => 0, done := fun _ => false, draws := 0, assigned := [] }

/-- What holds while the cells are visited: the cells that are done have been assigned once, in
pairs, with opposite phases. -/
structure Paired (partner : α → α) (s : Visited α) : Prop where
  done_iff : ∀ a, s.done a = true ↔ a ∈ s.assigned
  nodup : s.assigned.Nodup
  partner_mem : ∀ a ∈ s.assigned, partner a ∈ s.assigned
  neg : ∀ a ∈ s.assigned, ∃ z : ℤ, s.phi (partner a) = -s.phi a + z
  self : ∀ a ∈ s.assigned, a = partner a → s.phi a = 0

variable {partner : α → α} {draw : ℕ → ℝ} {s : Visited α} {a : α}

lemma visit_of_done (h : a ∈ s.assigned) (hs : Paired partner s) : visit partner draw s a = s := by
  rw [visit, if_pos ((hs.done_iff a).mpr h)]

variable (draw) in
/-- A cell that is its own partner. -/
lemma Paired.visit_self (hs : Paired partner s) (ha : a ∉ s.assigned) (hself : a = partner a) :
    (visit partner draw s a).assigned = s.assigned ++ [a] ∧
      Paired partner (visit partner draw s a) := by
  have hdone : ¬ s.done a = true := fun h => ha ((hs.done_iff a).mp h)
  rw [visit, if_neg hdone, if_pos hself]
  have hne : ∀ b ∈ s.assigned, b ≠ a := fun b hb h => ha (h ▸ hb)
  -- what was done, the list, the partners, the phases of pairs, the phases of single cells
  refine ⟨rfl, fun b => ?_, ?_, fun b hb => ?_, fun b hb => ?_, fun b hb hb' => ?_⟩
  · by_cases h : b = a
    · simp [h]
    · simp [h, hs.done_iff]
  · exact List.nodup_append.mpr ⟨hs.nodup, List.nodup_singleton a, fun b hb c hc => by
      rw [List.mem_singleton.mp hc]
      exact hne b hb⟩
  · rcases List.mem_append.mp hb with h | h
    · exact List.mem_append_left _ (hs.partner_mem b h)
    · rw [List.mem_singleton.mp h, ← hself]
      exact List.mem_append_right _ (List.mem_singleton_self a)
  · rcases List.mem_append.mp hb with h | h
    · dsimp only
      rw [Function.update_of_ne (hne _ (hs.partner_mem b h)), Function.update_of_ne (hne b h)]
      exact hs.neg b h
    · obtain rfl := List.mem_singleton.mp h
      refine ⟨0, ?_⟩
      dsimp only
      rw [← hself, Function.update_self]
      simp
  · rcases List.mem_append.mp hb with h | h
    · dsimp only
      rw [Function.update_of_ne (hne b h)]
      exact hs.self b h hb'
    · rw [List.mem_singleton.mp h]
      exact Function.update_self ..

variable (draw) in
/-- Two partners. -/
lemma Paired.visit_pair (hinv : Function.Involutive partner) (hs : Paired partner s)
    (ha : a ∉ s.assigned) (hself : a ≠ partner a) :
    (visit partner draw s a).assigned = s.assigned ++ [a, partner a] ∧
      Paired partner (visit partner draw s a) := by
  have hdone : ¬ s.done a = true := fun h => ha ((hs.done_iff a).mp h)
  have hpartner : partner a ∉ s.assigned := fun h => ha (hinv a ▸ hs.partner_mem _ h)
  rw [visit, if_neg hdone, if_neg hself]
  have hne : ∀ b ∈ s.assigned, b ≠ a ∧ b ≠ partner a :=
    fun b hb => ⟨fun h => ha (h ▸ hb), fun h => hpartner (h ▸ hb)⟩
  have hmem : ∀ b, b ∈ s.assigned ++ [a, partner a] ↔
      b ∈ s.assigned ∨ b = a ∨ b = partner a := by
    intro b
    simp
  -- the same five parts as for a single cell
  refine ⟨rfl, fun b => ?_, ?_, fun b hb => ?_, fun b hb => ?_, fun b hb hb' => ?_⟩
  · rw [hmem, ← hs.done_iff]
    by_cases h : b = partner a
    · simp [h]
    · by_cases h' : b = a
      · simp [h', hself]
      · simp [h, h']
  · refine List.nodup_append.mpr ⟨hs.nodup, by simpa using hself, fun b hb c hc => ?_⟩
    rcases List.mem_pair.mp hc with rfl | rfl
    · exact (hne b hb).1
    · exact (hne b hb).2
  · rw [hmem] at hb ⊢
    rcases hb with h | rfl | rfl
    · exact .inl (hs.partner_mem b h)
    · exact .inr (.inr rfl)
    · exact .inr (.inl (hinv a))
  · dsimp only
    rcases (hmem b).mp hb with h | rfl | rfl
    · obtain ⟨h1, h2⟩ := hne b h
      obtain ⟨h3, h4⟩ := hne _ (hs.partner_mem b h)
      rw [Function.update_of_ne h4, Function.update_of_ne h3, Function.update_of_ne h2,
        Function.update_of_ne h1]
      exact hs.neg b h
    · rw [Function.update_self, Function.update_of_ne hself, Function.update_self]
      exact exists_fract_neg _
    · rw [hinv a, Function.update_of_ne hself, Function.update_self, Function.update_self]
      exact exists_neg_fract_neg _
  · rcases (hmem b).mp hb with h | rfl | rfl
    · dsimp only
      rw [Function.update_of_ne (hne b h).2, Function.update_of_ne (hne b h).1]
      exact hs.self b h hb'
    · exact absurd hb' hself
    · exact absurd (hb'.trans (hinv a)).symm hself

variable (draw) in
/-- What a visit leaves. -/
lemma Paired.visit (hinv : Function.Involutive partner) (hs : Paired partner s) (a : α) :
    Paired partner (visit partner draw s a) ∧ a ∈ (Hermitian.visit partner draw s a).assigned ∧
      ∀ b ∈ s.assigned, b ∈ (Hermitian.visit partner draw s a).assigned := by
  by_cases ha : a ∈ s.assigned
  · rw [visit_of_done ha hs]
    exact ⟨hs, ha, fun b hb => hb⟩
  · by_cases hself : a = partner a
    · obtain ⟨heq, hpaired⟩ := hs.visit_self draw ha hself
      rw [heq]
      exact ⟨hpaired, by simp, fun b hb => List.mem_append_left _ hb⟩
    · obtain ⟨heq, hpaired⟩ := hs.visit_pair draw hinv ha hself
      rw [heq]
      exact ⟨hpaired, by simp, fun b hb => List.mem_append_left _ hb⟩

/-- **All cells** of the list are assigned, once. -/
theorem paired_visitAll (hinv : Function.Involutive partner) (draw : ℕ → ℝ) (cells : List α) :
    Paired partner (visitAll partner draw cells) ∧
      ∀ a ∈ cells, a ∈ (visitAll partner draw cells).assigned := by
  -- for any state before, along the list
  have hloop : ∀ (cells : List α) (s : Visited α), Paired partner s →
      Paired partner (cells.foldl (Hermitian.visit partner draw) s) ∧
        ∀ a, a ∈ cells ∨ a ∈ s.assigned →
          a ∈ (cells.foldl (Hermitian.visit partner draw) s).assigned := by
    intro cells
    induction cells with
    | nil => exact fun s hs => ⟨hs, fun a ha => by simpa using ha⟩
    | cons c cells ih =>
        intro s hs
        obtain ⟨hpaired, hc, hkeep⟩ := hs.visit draw hinv c
        obtain ⟨hpaired', hall⟩ := ih _ hpaired
        refine ⟨hpaired', fun a ha => hall a ?_⟩
        rcases ha with ha | ha
        · rcases List.mem_cons.mp ha with rfl | ha
          · exact .inr hc
          · exact .inl ha
        · exact .inr (hkeep a ha)
  have hstart : Paired partner
      { phi := fun _ => 0, done := fun _ => false, draws := 0, assigned := [] } :=
    ⟨by simp, List.nodup_nil, by simp, by simp, by simp⟩
  obtain ⟨hpaired, hall⟩ := hloop cells _ hstart
  exact ⟨hpaired, fun a ha => hall a (.inl ha)⟩

/-! ### The draws of the pairs -/

/-- One of two values is a draw, and the other one its opposite. -/
def SharesDraw (x y r : ℝ) : Prop := x = r ∧ y = Int.fract (-r) ∨ y = r ∧ x = Int.fract (-r)

lemma SharesDraw.symm {x y r : ℝ} (h : SharesDraw x y r) : SharesDraw y x r := Or.symm h

/-- The numbers of the draws: partners share a draw, and other pairs have other ones. -/
structure Numbered (partner : α → α) (draw : ℕ → ℝ) (s : Visited α) (num : α → ℕ) : Prop where
  lt : ∀ a ∈ s.assigned, a ≠ partner a → num a < s.draws
  same : ∀ a ∈ s.assigned, num (partner a) = num a
  shares : ∀ a ∈ s.assigned, a ≠ partner a →
    SharesDraw (s.phi a) (s.phi (partner a)) (draw (num a))
  own : ∀ a ∈ s.assigned, ∀ b ∈ s.assigned, a ≠ partner a → b ≠ partner b → num a = num b →
    b = a ∨ b = partner a

/-- A visit numbers its pair with the draws so far. -/
lemma Numbered.visit {num : α → ℕ} (hinv : Function.Involutive partner) (hs : Paired partner s)
    (hnum : Numbered partner draw s num) (a : α) :
    ∃ num', Numbered partner draw (Hermitian.visit partner draw s a) num' := by
  by_cases ha : a ∈ s.assigned
  · exact ⟨num, by rwa [visit_of_done ha hs]⟩
  have hdone : ¬ s.done a = true := fun h => ha ((hs.done_iff a).mp h)
  have hpartner : partner a ∉ s.assigned := fun h => ha (hinv a ▸ hs.partner_mem _ h)
  have hne : ∀ b ∈ s.assigned, b ≠ a ∧ b ≠ partner a :=
    fun b hb => ⟨fun h => ha (h ▸ hb), fun h => hpartner (h ▸ hb)⟩
  by_cases hself : a = partner a
  · -- no draw is used, and the pairs keep their phases
    have hmem : ∀ b ∈ s.assigned ++ [a], b ≠ partner b → b ∈ s.assigned := by
      intro b hb hb'
      rcases List.mem_append.mp hb with h | h
      · exact h
      · rw [List.mem_singleton.mp h] at hb'
        exact absurd hself hb'
    rw [Hermitian.visit, if_neg hdone, if_pos hself]
    refine ⟨num, fun b hb hb' => hnum.lt b (hmem b hb hb') hb', fun b hb => ?_,
      fun b hb hb' => ?_, fun b hb c hc hb' hc' =>
        hnum.own b (hmem b hb hb') c (hmem c hc hc') hb' hc'⟩
    · rcases List.mem_append.mp hb with h | h
      · exact hnum.same b h
      · rw [List.mem_singleton.mp h, ← hself]
    · have h := hmem b hb hb'
      dsimp only
      rw [Function.update_of_ne (hne b h).1,
        Function.update_of_ne (hne _ (hs.partner_mem b h)).1]
      exact hnum.shares b h hb'
  · -- the pair is numbered with a draw that no other pair has
    rw [Hermitian.visit, if_neg hdone, if_neg hself]
    have hold : ∀ b ∈ s.assigned, Function.update (Function.update num a s.draws) (partner a)
        s.draws b = num b := by
      intro b hb
      rw [Function.update_of_ne (hne b hb).2, Function.update_of_ne (hne b hb).1]
    have hnew : Function.update (Function.update num a s.draws) (partner a) s.draws a =
        s.draws := by
      rw [Function.update_of_ne hself, Function.update_self]
    have hnew' : Function.update (Function.update num a s.draws) (partner a) s.draws (partner a) =
        s.draws := Function.update_self ..
    have hmem : ∀ b ∈ s.assigned ++ [a, partner a],
        b ∈ s.assigned ∨ b = a ∨ b = partner a := by
      intro b hb
      simpa using hb
    refine ⟨Function.update (Function.update num a s.draws) (partner a) s.draws,
      fun b hb hb' => ?_, fun b hb => ?_, fun b hb hb' => ?_, fun b hb c hc hb' hc' heq => ?_⟩
    · rcases hmem b hb with h | rfl | rfl
      · rw [hold b h]
        exact (hnum.lt b h hb').trans (Nat.lt_succ_self _)
      · rw [hnew]
        exact Nat.lt_succ_self _
      · rw [hnew']
        exact Nat.lt_succ_self _
    · rcases hmem b hb with h | rfl | rfl
      · rw [hold b h, hold _ (hs.partner_mem b h), hnum.same b h]
      · rw [hnew, hnew']
      · rw [hinv a, hnew, hnew']
    · dsimp only
      rcases hmem b hb with h | rfl | rfl
      · obtain ⟨h1, h2⟩ := hne b h
        obtain ⟨h3, h4⟩ := hne _ (hs.partner_mem b h)
        rw [hold b h, Function.update_of_ne h4, Function.update_of_ne h3, Function.update_of_ne h2,
          Function.update_of_ne h1]
        exact hnum.shares b h hb'
      · rw [hnew, Function.update_self, Function.update_of_ne hself, Function.update_self]
        exact .inl ⟨rfl, rfl⟩
      · rw [hnew', hinv a, Function.update_self, Function.update_of_ne hself, Function.update_self]
        exact .inr ⟨rfl, rfl⟩
    · rcases hmem b hb with h | rfl | rfl <;> rcases hmem c hc with h' | rfl | rfl
      · rw [hold b h, hold c h'] at heq
        exact hnum.own b h c h' hb' hc' heq
      · rw [hold b h, hnew] at heq
        exact absurd heq (hnum.lt b h hb').ne
      · rw [hold b h, hnew'] at heq
        exact absurd heq (hnum.lt b h hb').ne
      · rw [hold c h', hnew] at heq
        exact absurd heq.symm (hnum.lt c h' hc').ne
      · exact .inl rfl
      · exact .inr rfl
      · rw [hold c h', hnew'] at heq
        exact absurd heq.symm (hnum.lt c h' hc').ne
      · exact .inr (hinv c).symm
      · exact .inl rfl

/-- **The draws**: after all visits partners share a draw that no other pair has. -/
theorem numbered_visitAll (hinv : Function.Involutive partner) (draw : ℕ → ℝ) (cells : List α) :
    ∃ num, Numbered partner draw (visitAll partner draw cells) num := by
  have hloop : ∀ (cells : List α) (s : Visited α) (num : α → ℕ), Paired partner s →
      Numbered partner draw s num →
        ∃ num', Numbered partner draw (cells.foldl (Hermitian.visit partner draw) s) num' := by
    intro cells
    induction cells with
    | nil => exact fun s num _ hnum => ⟨num, hnum⟩
    | cons c cells ih =>
        intro s num hs hnum
        obtain ⟨num', hnum'⟩ := hnum.visit hinv hs c
        exact ih _ num' (hs.visit draw hinv c).1 hnum'
  exact hloop cells _ (fun _ => 0) ⟨by simp, List.nodup_nil, by simp, by simp, by simp⟩
    ⟨by simp, by simp, by simp, by simp⟩

end Visit

end Hermitian
