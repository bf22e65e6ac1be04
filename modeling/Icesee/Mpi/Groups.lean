import Icesee.Mpi.Distribution
import Mathlib.Data.Int.CardIntervalMod

/-!
The distribution of the default run as a partition.

With at least as many members as ranks the ids over all ranks and rounds are a deal of the
members (`ensembleIds_perm`). With more ranks than members there is a group of ranks for
every member (`colorGroups`): `Split` orders the group by the key, so world rank `c` leads
group `c`, and the results that the leaders contribute to a gather come in member order.
-/

namespace Icesee

open Deal

/-! ### Split -/

variable {nens size : ℕ}

/-- `comm_world.Split(color, key)`: the ranks of a color, by key and then by world rank. -/
def split (color key : ℕ → ℕ) (size c : ℕ) : List ℕ :=
  ((List.range size).filter fun rank => color rank = c).mergeSort fun r s => key r ≤ key s

/-- With keys in the order of the world ranks there is nothing to sort. -/
lemma split_of_monotone (color : ℕ → ℕ) {key : ℕ → ℕ} (hkey : Monotone key) (size c : ℕ) :
    split color key size c = (List.range size).filter fun rank => color rank = c :=
  List.mergeSort_of_pairwise
    (List.Pairwise.filter _ (List.pairwise_lt_range.imp fun hlt => decide_eq_true (hkey hlt.le)))

/-- The group of a color in the default run. -/
def group (nens size c : ℕ) : List ℕ :=
  split (fun rank => (iceseeMpiEnsDistribution nens size rank).color)
    (fun rank => (iceseeMpiEnsDistribution nens size rank).key) size c

/-- `subcomm.Get_rank()`. -/
def subRank (nens size rank : ℕ) : ℕ :=
  (group nens size (iceseeMpiEnsDistribution nens size rank).color).idxOf rank

/-- The members that a rank works on, round by round. -/
def ensembleIds (nens size rank : ℕ) : List ℕ :=
  let d := iceseeMpiEnsDistribution nens size rank
  ((List.range d.rounds).map fun round => d.color + round * d.subcommSizeMin.getD 1).filter
    (· < nens)

/-- `comm_world.gather(stacked if sub_rank == 0 else None, root=0)` without the `None`, when
every group computes `f` of its color. -/
def gatherLeaders {α : Type} (nens size : ℕ) (f : ℕ → α) : List α :=
  (List.range size).filterMap fun rank =>
    if subRank nens size rank = 0 then some (f (iceseeMpiEnsDistribution nens size rank).color)
    else none

/-! ### More members than ranks -/

/-- **The ids over all ranks and rounds** are the members, each of them once. -/
theorem ensembleIds_perm (hs : 1 ≤ size) (hle : size ≤ nens) :
    ((List.range size).flatMap (ensembleIds nens size)).Perm (List.range nens) := by
  have hids : ∀ rank ∈ List.range size,
      ensembleIds nens size rank = hand nens size (roundsFor nens size) rank := by
    intro rank hr
    have hd := World.distribution_eq ⟨nens, size, hs, hle⟩ (List.mem_range.mp hr)
    rw [World.distribution] at hd
    rw [ensembleIds, hd]
    rfl
  rw [List.flatMap_congr hids]
  exact flatMap_hand_perm hs

/-! ### More ranks than members -/

/-- With more ranks than members the colors are residues. -/
lemma iceseeMpiEnsDistribution_of_lt (h : nens < size) (rank : ℕ) :
    iceseeMpiEnsDistribution nens size rank =
      { rounds := 1, color := rank % nens, key := rank / nens, subcommSizeMin := none } :=
  if_neg (not_le.mpr h)

/-- The keys of a group are in the order of the world ranks already. -/
lemma group_eq (h : nens < size) (c : ℕ) :
    group nens size c = (List.range size).filter fun rank => rank % nens = c := by
  rw [group]
  simp only [iceseeMpiEnsDistribution_of_lt h]
  exact split_of_monotone _ (fun _ _ hle => Nat.div_le_div_right hle) size c

lemma mem_group_iff (h : nens < size) {c rank : ℕ} :
    rank ∈ group nens size c ↔ rank < size ∧ rank % nens = c := by
  rw [group_eq h, List.mem_filter, List.mem_range, decide_eq_true_eq]

/-- The sizes of the groups: the first ones have one rank more. -/
lemma length_group (h : nens < size) {c : ℕ} (hc : c < nens) :
    (group nens size c).length = size / nens + if c < size % nens then 1 else 0 := by
  have hcount := Nat.count_modEq_card size (Nat.zero_lt_of_lt hc) c
  rw [Nat.count_eq_card_filter_range] at hcount
  simp only [Nat.ModEq, Nat.mod_eq_of_lt hc] at hcount
  rw [group_eq h, ← hcount]
  rfl

/-- **The leader** of group `c` is world rank `c`. -/
lemma head?_group (h : nens < size) {c : ℕ} (hc : c < nens) :
    (group nens size c).head? = some c := by
  rw [group_eq h, List.head?_filter, List.find?_range_eq_some]
  refine ⟨by simp [Nat.mod_eq_of_lt hc], List.mem_range.mpr (hc.trans h), fun r hr => ?_⟩
  rw [Nat.mod_eq_of_lt (hr.trans hc)]
  simpa using hr.ne

/-- The leaders are the first world ranks. -/
lemma subRank_eq_zero_iff (h : nens < size) (hn : 1 ≤ nens) (rank : ℕ) :
    subRank nens size rank = 0 ↔ rank < nens := by
  have hhead := head?_group h (Nat.mod_lt rank hn)
  obtain ⟨rest, hrest⟩ := List.head?_eq_some_iff.mp hhead
  rw [subRank, iceseeMpiEnsDistribution_of_lt h, hrest, List.idxOf_cons, cond_eq_ite]
  constructor
  · intro h0
    split at h0
    · next heq => exact eq_of_beq heq ▸ Nat.mod_lt rank hn
    · omega
  · intro hlt
    rw [if_pos (beq_iff_eq.mpr (Nat.mod_eq_of_lt hlt))]

/-- What the leaders contribute is in member order. -/
lemma gatherLeaders_eq {α : Type} (h : nens < size) (hn : 1 ≤ nens) (f : ℕ → α) :
    gatherLeaders nens size f = (List.range nens).map f := by
  obtain ⟨rest, rfl⟩ := Nat.exists_eq_add_of_lt h
  have hfirst : (List.range nens).filterMap (fun rank =>
      if subRank nens (nens + rest + 1) rank = 0 then some (f (rank % nens)) else none) =
        (List.range nens).map f := by
    rw [← List.filterMap_eq_map]
    refine List.filterMap_congr fun rank hr => ?_
    have hlt := List.mem_range.mp hr
    rw [if_pos ((subRank_eq_zero_iff h hn rank).mpr hlt), Nat.mod_eq_of_lt hlt]
    rfl
  have hrest : ((List.range (rest + 1)).map (nens + ·)).filterMap (fun rank =>
      if subRank nens (nens + rest + 1) rank = 0 then some (f (rank % nens)) else none) = [] := by
    refine List.filterMap_eq_nil_iff.mpr fun rank hr => ?_
    obtain ⟨i, -, rfl⟩ := List.mem_map.mp hr
    rw [if_neg]
    rw [subRank_eq_zero_iff h hn]
    omega
  rw [gatherLeaders]
  simp only [iceseeMpiEnsDistribution_of_lt h]
  rw [Nat.add_assoc, List.range_add, List.filterMap_append, ← Nat.add_assoc, hfirst, hrest,
    List.append_nil]

/-- What the groups of ranks should be when there are fewer members than ranks. -/
structure ColorGroups (nens size : ℕ) : Prop where
  /-- Every rank has the color of a member, and no group is empty. -/
  colors : ∀ rank < size, (iceseeMpiEnsDistribution nens size rank).color < nens
  nonempty : ∀ c < nens, group nens size c ≠ []
  mem : ∀ rank < size, ∀ c, rank ∈ group nens size c ↔
    (iceseeMpiEnsDistribution nens size rank).color = c
  balanced : ∀ c < nens, ∀ c' < nens,
    (group nens size c).length ≤ (group nens size c').length + 1
  leader : ∀ c < nens, ∀ rank < size,
    (iceseeMpiEnsDistribution nens size rank).color = c → (subRank nens size rank = 0 ↔ rank = c)
  gather : ∀ (α : Type) (f : ℕ → α), gatherLeaders nens size f = (List.range nens).map f

/-- There is one group for every member. -/
theorem colorGroups (hn : 1 ≤ nens) (h : nens < size) : ColorGroups nens size where
  colors rank _ := by
    rw [iceseeMpiEnsDistribution_of_lt h]
    exact Nat.mod_lt rank hn
  nonempty c hc hnil := by
    have hhead := head?_group h hc
    rw [hnil] at hhead
    cases hhead
  mem rank hr c := by
    rw [mem_group_iff h, iceseeMpiEnsDistribution_of_lt h]
    exact and_iff_right hr
  balanced c hc c' hc' := by
    rw [length_group h hc, length_group h hc']
    split <;> split <;> omega
  leader c hc rank _ hcolor := by
    rw [iceseeMpiEnsDistribution_of_lt h] at hcolor
    rw [subRank_eq_zero_iff h hn, ← show rank % nens = c from hcolor]
    exact ⟨fun hlt => (Nat.mod_eq_of_lt hlt).symm, fun heq => heq ▸ Nat.mod_lt rank hn⟩
  gather α f := gatherLeaders_eq h hn f

/-- **The work distribution** of the default run is a partition, in both regimes. -/
theorem distribution_partition (nens size : ℕ) (hn : 1 ≤ nens) (hs : 1 ≤ size) :
    (size ≤ nens →
      ((List.range size).flatMap (ensembleIds nens size)).Perm (List.range nens)) ∧
    (nens < size → ColorGroups nens size) :=
  ⟨ensembleIds_perm hs, colorGroups hn⟩

/-- Five members on three ranks, and three members on five ranks. -/
theorem distribution_partition_five_three :
    ((List.range 3).flatMap (ensembleIds 5 3)).Perm (List.range 5) ∧ ColorGroups 3 5 :=
  ⟨(distribution_partition 5 3 (by decide) (by decide)).1 (by decide),
    (distribution_partition 3 5 (by decide) (by decide)).2 (by decide)⟩

end Icesee
