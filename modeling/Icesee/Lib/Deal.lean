import Mathlib.Data.List.Nodup
import Mathlib.Data.Nat.ModEq
import Mathlib.Tactic.Common

/-!
Dealing `n` cards round robin to `p` players, and picking the hands up again.

In round `i` player `r` is dealt card `r + i·p`, while cards last. `hand n p m r` is
the hand after `m` rounds. Every card is dealt once (`flatMap_hand_perm`). Picking the
hands up player by player gives the deck back in order only when there is one player or
one round (`flatMap_hand_eq_range_iff`), and the hands are of one size only when `p`
divides `n` (`length_hand_eq_iff`).
-/

namespace Deal

/-- The hand of player `r` after `m` rounds of dealing `n` cards to `p` players. -/
def hand (n p m r : ℕ) : List ℕ := ((List.range m).map fun i => r + i * p).filter (· < n)

/-- The number of rounds until all cards are dealt. -/
def roundsFor (n p : ℕ) : ℕ := (n + p - 1) / p

variable {n p m r : ℕ}

lemma hand_succ : hand n p (m + 1) r =
    hand n p m r ++ if r + m * p < n then [r + m * p] else [] := by
  by_cases h : r + m * p < n <;> simp [hand, List.range_succ, h]

/-- A hand is full as long as its last card exists. -/
lemma hand_of_lt (h : ∀ i < m, r + i * p < n) :
    hand n p m r = (List.range m).map fun i => r + i * p := by
  refine List.filter_eq_self.mpr fun c hc => ?_
  obtain ⟨i, hi, rfl⟩ := List.mem_map.mp hc
  simpa using h i (List.mem_range.mp hi)

lemma length_hand_of_lt (h : ∀ i < m, r + i * p < n) : (hand n p m r).length = m := by
  simp [hand_of_lt h]

/-- The first card of a player is the one with his number. -/
lemma head?_hand (hr : r < n) (hm : 0 < m) : (hand n p m r).head? = some r := by
  obtain ⟨m, rfl⟩ := Nat.exists_eq_succ_of_ne_zero hm.ne'
  rw [hand, List.range_succ_eq_map, List.map_cons, List.filter_cons_of_pos (by simpa using hr),
    List.head?_cons, Nat.zero_mul, Nat.add_zero]

/-- In a full round but the last, every player gets a card. -/
lemma lt_of_round (hr : r < p) {i : ℕ} (hi : i < n / p) : r + i * p < n := by
  calc r + i * p < (i + 1) * p := by rw [Nat.succ_mul]; omega
    _ ≤ n / p * p := Nat.mul_le_mul_right p hi
    _ ≤ n := Nat.div_mul_le_self n p

lemma roundsFor_of_dvd (hp : 0 < p) (h : p ∣ n) : roundsFor n p = n / p := by
  obtain ⟨m, rfl⟩ := h
  calc roundsFor (p * m) p = ((p - 1) + p * m) / p := by rw [roundsFor]; congr 1; omega
    _ = (p - 1) / p + m := Nat.add_mul_div_left _ _ hp
    _ = m := by rw [Nat.div_eq_of_lt (by omega), Nat.zero_add]
    _ = p * m / p := (Nat.mul_div_cancel_left m hp).symm

lemma roundsFor_of_not_dvd (hp : 0 < p) (h : ¬ p ∣ n) : roundsFor n p = n / p + 1 := by
  have hmod : 0 < n % p := Nat.pos_of_ne_zero fun h0 => h (Nat.dvd_of_mod_eq_zero h0)
  have hn := Nat.div_add_mod n p
  have hlt := Nat.mod_lt n hp
  calc roundsFor n p = ((n % p - 1 + p) + p * (n / p)) / p := by rw [roundsFor]; congr 1; omega
    _ = (n % p - 1 + p) / p + n / p := Nat.add_mul_div_left _ _ hp
    _ = (n % p - 1) / p + 1 + n / p := by rw [Nat.add_div_right _ hp]
    _ = n / p + 1 := by rw [Nat.div_eq_of_lt (by omega)]; omega

/-- There are rounds for all cards, and none to spare. -/
lemma round_lt_roundsFor_iff (hp : 0 < p) {i : ℕ} : i < roundsFor n p ↔ i * p < n := by
  rw [roundsFor, Nat.lt_iff_add_one_le, Nat.le_div_iff_mul_le hp, Nat.succ_mul]
  omega

lemma mem_hand {c : ℕ} : c ∈ hand n p m r ↔ (∃ i < m, r + i * p = c) ∧ c < n := by
  simp only [hand, List.mem_filter, List.mem_map, List.mem_range, decide_eq_true_eq]

/-- A player holds the cards that are congruent to his number. -/
lemma mem_hand_iff (hr : r < p) {c : ℕ} :
    c ∈ hand n p (roundsFor n p) r ↔ c % p = r ∧ c < n := by
  have hp : 0 < p := Nat.zero_lt_of_lt hr
  rw [mem_hand]
  refine and_congr_left fun hc => ⟨?_, fun hmod => ⟨c / p, ?_, ?_⟩⟩
  · rintro ⟨i, -, rfl⟩
    rw [Nat.add_mul_mod_self_right, Nat.mod_eq_of_lt hr]
  · exact (round_lt_roundsFor_iff hp).mpr ((Nat.div_mul_le_self c p).trans_lt hc)
  · rw [← hmod]
    exact Nat.mod_add_div' c p

lemma nodup_hand (hp : 0 < p) : (hand n p m r).Nodup := by
  refine (List.Nodup.map ?_ List.nodup_range).filter _
  intro i j hij
  exact Nat.eq_of_mul_eq_mul_right hp (Nat.add_left_cancel hij)

/-- **A deal** gives every card to one player, once. -/
theorem flatMap_hand_perm (hp : 0 < p) :
    ((List.range p).flatMap (hand n p (roundsFor n p))).Perm (List.range n) := by
  refine (List.perm_ext_iff_of_nodup ?_ List.nodup_range).mpr fun c => ?_
  · refine List.nodup_flatMap.mpr ⟨fun r _ => nodup_hand hp, ?_⟩
    refine List.Pairwise.imp_of_mem (fun {r s} hr hs hlt => ?_) List.pairwise_lt_range
    intro c hcr hcs
    rw [mem_hand_iff (List.mem_range.mp hr)] at hcr
    rw [mem_hand_iff (List.mem_range.mp hs)] at hcs
    exact hlt.ne (hcr.1.symm.trans hcs.1)
  · rw [List.mem_flatMap, List.mem_range]
    constructor
    · rintro ⟨r, hr, hc⟩
      exact ((mem_hand_iff (List.mem_range.mp hr)).mp hc).2
    · intro hc
      have hmod : c % p < p := Nat.mod_lt c hp
      exact ⟨c % p, List.mem_range.mpr hmod, (mem_hand_iff hmod).mpr ⟨rfl, hc⟩⟩

/-- **Equal hands**: after the last round all players hold equally many cards exactly
if `p` divides `n`. -/
theorem length_hand_eq_iff (hp : 0 < p) :
    (∀ r < p, (hand n p (roundsFor n p) r).length = (hand n p (roundsFor n p) 0).length) ↔
      p ∣ n := by
  refine ⟨fun h => ?_, fun hd r hr => ?_⟩
  · by_contra hd
    have hmod : 0 < n % p := Nat.pos_of_ne_zero fun h0 => hd (Nat.dvd_of_mod_eq_zero h0)
    have hn := Nat.div_add_mod' n p
    have hlt := Nat.mod_lt n hp
    have hlast := h (p - 1) (by omega)
    -- the last round reaches the first player, but not the last one
    rw [roundsFor_of_not_dvd hp hd, hand_succ, hand_succ, if_neg (by omega), if_pos (by omega),
      List.length_append, List.length_append,
      length_hand_of_lt fun i hi => lt_of_round (by omega) hi,
      length_hand_of_lt fun i hi => lt_of_round hp hi] at hlast
    simp at hlast
  · rw [roundsFor_of_dvd hp hd, length_hand_of_lt fun i hi => lt_of_round hr hi,
      length_hand_of_lt fun i hi => lt_of_round hp hi]

/-- **Picking up hand by hand** gives the deck back in order exactly if there was one
player or one round. -/
theorem flatMap_hand_eq_range_iff (hp : 0 < p) (hn : p ≤ n) (hd : p ∣ n) :
    (List.range p).flatMap (hand n p (roundsFor n p)) = List.range n ↔ p = 1 ∨ p = n := by
  have hhand : ∀ r < p, hand n p (roundsFor n p) r =
      (List.range (n / p)).map fun i => r + i * p := by
    intro r hr
    rw [roundsFor_of_dvd hp hd]
    exact hand_of_lt fun i hi => lt_of_round hr hi
  have hflat : (List.range p).flatMap (hand n p (roundsFor n p)) =
      (List.range p).flatMap fun r => (List.range (n / p)).map fun i => r + i * p :=
    List.flatMap_congr fun r hr => hhand r (List.mem_range.mp hr)
  rw [hflat]
  constructor
  · intro h
    by_contra! hne
    -- with several rounds the second card of the first hand is card `p`, not card `1`
    have htwo : 2 ≤ n / p := by
      obtain ⟨m, rfl⟩ := hd
      rw [Nat.mul_div_cancel_left _ hp]
      rcases m with _ | _ | m
      · omega
      · exact absurd (Nat.mul_one p).symm hne.2
      · omega
    obtain ⟨m, hm⟩ : ∃ m, n / p = m + 2 := ⟨n / p - 2, by omega⟩
    obtain ⟨q, rfl⟩ : ∃ q, p = q + 1 := ⟨p - 1, by omega⟩
    have hsecond := congrArg (fun l => l[1]?) h
    rw [List.range_succ_eq_map, List.flatMap_cons, hm, List.range_succ_eq_map,
      List.range_succ_eq_map] at hsecond
    simp only [List.map_cons, List.cons_append, List.getElem?_cons_succ,
      List.getElem?_cons_zero] at hsecond
    rw [List.getElem?_range (by omega)] at hsecond
    simp at hsecond
    omega
  · rintro (rfl | rfl)
    · simp
    · simp [Nat.div_self hp]

end Deal
