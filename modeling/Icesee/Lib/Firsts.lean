import Mathlib.Data.Finset.Insert
import Mathlib.Data.List.Induction
import Mathlib.Data.List.Nodup
import Mathlib.Tactic.Common

/-!
Keeping the first element of every key.

`firsts excl key l` has the elements of `l` whose key is not excluded and has not been there
before, in order. A loop that remembers the keys it has seen computes it
(`foldl_seen_eq`). No two of them have one key (`nodup_firsts`), every key has one
(`exists_firsts`), and only what the keys tell apart matters (`firsts_congr`).
-/

namespace Firsts

variable {α K : Type} [DecidableEq K]

/-- The elements whose key is not in `excl` and not the key of an element before. -/
def firsts (excl : List K) (key : α → K) (l : List α) : List α :=
  (l.zipIdx.filter fun (a, i) => key a ∉ excl ∧ key a ∉ (l.take i).map key).map Prod.fst

variable {excl : List K} {key key' : α → K} {l : List α} {a b : α}

/-- One more element. -/
lemma firsts_concat (l : List α) (a : α) : firsts excl key (l ++ [a]) =
    firsts excl key l ++ if key a ∉ excl ∧ key a ∉ l.map key then [a] else [] := by
  have hbefore : (l.zipIdx.filter fun (b, i) =>
      key b ∉ excl ∧ key b ∉ ((l ++ [a]).take i).map key) =
      l.zipIdx.filter fun (b, i) => key b ∉ excl ∧ key b ∉ (l.take i).map key := by
    refine List.filter_congr fun p hp => ?_
    have hlt : p.2 < l.length := by
      simpa using List.snd_lt_add_of_mem_zipIdx hp
    dsimp only
    rw [List.take_append_of_le_length (Nat.le_of_lt hlt)]
  have hlast : ([(a, l.length)].filter fun (b, i) =>
      key b ∉ excl ∧ key b ∉ ((l ++ [a]).take i).map key).map Prod.fst =
      if key a ∉ excl ∧ key a ∉ l.map key then [a] else [] := by
    rw [List.filter_singleton]
    dsimp only
    rw [List.take_left' rfl]
    by_cases h : key a ∉ excl ∧ key a ∉ l.map key
    · rw [if_pos h, decide_eq_true h]
      rfl
    · rw [if_neg h, decide_eq_false h]
      rfl
  rw [firsts, List.zipIdx_append, List.filter_append, List.map_append, hbefore, firsts]
  congr 1
  simpa using hlast

/-- The elements of `firsts` are elements of the list, in order. -/
lemma firsts_sublist : (firsts excl key l).Sublist l := by
  have h : (firsts excl key l).Sublist (l.zipIdx.map Prod.fst) := List.filter_sublist.map _
  rwa [List.zipIdx_map_fst] at h

/-- No excluded key. -/
lemma key_notMem_excl (h : a ∈ firsts excl key l) : key a ∉ excl := by
  obtain ⟨p, hp, rfl⟩ := List.mem_map.mp h
  exact (of_decide_eq_true (List.mem_filter.mp hp).2).1

/-- **One element of a key at most.** -/
theorem nodup_firsts : ((firsts excl key l).map key).Nodup := by
  induction l using List.reverseRecOn with
  | nil => exact List.nodup_nil
  | append_singleton l a ih =>
      rw [firsts_concat]
      split_ifs with h
      · rw [List.map_append, List.map_singleton, ← List.concat_eq_append, List.nodup_concat]
        refine ⟨fun hmem => h.2 ?_, ih⟩
        exact (firsts_sublist.map key).subset hmem
      · rwa [List.append_nil]

/-- **Every key** that is not excluded has an element. -/
theorem mem_map_firsts {k : K} :
    k ∈ (firsts excl key l).map key ↔ k ∉ excl ∧ k ∈ l.map key := by
  induction l using List.reverseRecOn with
  | nil => simp [firsts]
  | append_singleton l a ih =>
      rw [firsts_concat, List.map_append, List.mem_append, ih, List.map_append, List.mem_append,
        List.map_singleton, List.mem_singleton]
      by_cases hk : k = key a
      · subst hk
        split_ifs with h
        · simp [h.1]
        · simp only [List.map_nil, List.not_mem_nil, or_false, or_true, and_true]
          refine ⟨And.left, fun hexcl => ⟨hexcl, ?_⟩⟩
          exact not_not.mp fun hnot => h ⟨hexcl, hnot⟩
      · split_ifs <;> simp [hk]

/-- Keys that exclude the same elements and tell the others apart alike. -/
theorem firsts_congr (hexcl : ∀ a ∈ l, key a ∈ excl ↔ key' a ∈ excl)
    (hkey : ∀ a ∈ l, ∀ b ∈ l, key a ∉ excl → (key b = key a ↔ key' b = key' a)) :
    firsts excl key l = firsts excl key' l := by
  rw [firsts, firsts]
  congr 1
  refine List.filter_congr fun p hp => decide_eq_decide.mpr ?_
  have hmem : p.1 ∈ l := List.fst_mem_of_mem_zipIdx hp
  rw [← hexcl _ hmem]
  refine and_congr_right fun hnot => not_congr ?_
  simp only [List.mem_map]
  refine exists_congr fun b => and_congr_right fun hb => ?_
  exact hkey _ hmem b (List.mem_of_mem_take hb) hnot

/-- **The loop**: the keys that have been seen are those of the elements so far. -/
theorem foldl_seen_eq (l : List α) :
    (l.foldl (fun (s : Finset K × List α) a =>
      if key a ∈ excl then s
      else if key a ∉ s.1 then (insert (key a) s.1, s.2 ++ [a]) else s) (∅, [])).2 =
      firsts excl key l := by
  -- with the keys seen so far in the statement, by induction at the end of the list
  suffices h : ∃ seen : Finset K, (∀ k, k ∈ seen ↔ k ∉ excl ∧ k ∈ l.map key) ∧
      l.foldl (fun (s : Finset K × List α) a =>
        if key a ∈ excl then s
        else if key a ∉ s.1 then (insert (key a) s.1, s.2 ++ [a]) else s) (∅, []) =
        (seen, firsts excl key l) by
    obtain ⟨seen, -, hfold⟩ := h
    rw [hfold]
  induction l using List.reverseRecOn with
  | nil => exact ⟨∅, by simp, rfl⟩
  | append_singleton l a ih =>
      obtain ⟨seen, hseen, hfold⟩ := ih
      rw [List.foldl_append, hfold, List.foldl_cons, List.foldl_nil, firsts_concat]
      -- an excluded key, a key that was seen, and a new one
      by_cases hexcl : key a ∈ excl
      · refine ⟨seen, fun k => ?_, by simp [hexcl]⟩
        rw [hseen]
        refine and_congr_right fun hk => ?_
        have hne : k ≠ key a := fun h => hk (h ▸ hexcl)
        simp [hne]
      · by_cases hl : key a ∈ l.map key
        · have hmem : key a ∈ seen := (hseen _).mpr ⟨hexcl, hl⟩
          refine ⟨seen, fun k => ?_, by simp [hexcl, hmem, hl]⟩
          rw [hseen, List.map_append, List.mem_append, List.map_singleton, List.mem_singleton]
          refine and_congr_right fun _ => (or_iff_left_of_imp ?_).symm
          rintro rfl
          exact hl
        · have hmem : key a ∉ seen := fun h => hl ((hseen _).mp h).2
          refine ⟨insert (key a) seen, fun k => ?_, by simp only [hexcl, hmem, hl]; rfl⟩
          rw [Finset.mem_insert, hseen, List.map_append, List.mem_append, List.map_singleton,
            List.mem_singleton, or_comm]
          constructor
          · rintro (h | rfl)
            · exact ⟨h.1, .inl h.2⟩
            · exact ⟨hexcl, .inr rfl⟩
          · exact fun h => h.2.imp_left fun hk => ⟨h.1, hk⟩

end Firsts
