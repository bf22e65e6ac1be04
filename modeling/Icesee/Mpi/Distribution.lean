import Icesee.Lib.Deal

/-!
Members, ranks and rounds in the default run, and what rank `0` assembles.

With at least as many members as ranks, `icesee_mpi_ens_distribution` gives every rank
a subcommunicator of its own (`subcomm_eq`) and deals the members round robin:
in round `i` rank `r` works on member `r + i·size`. Both the forecast and the
initialization of the partial-parallel run append the results to one list a rank,
gather these lists in every round, and flatten what the last gather returned rank by
rank. `roundLoop_eq` evaluates the loop, and `membersPreserved_iff` says when the
flattened list has member `j` in column `j`. `roundMembers` are the members of a round
over all ranks, which is what the full-parallel driver writes to its store.
-/

namespace Icesee

open Deal

/-! ### The distribution -/

/-- A default run with `1 ≤ size ≤ Nens`. -/
structure World where
  nens : ℕ
  size : ℕ
  size_pos : 0 < size
  size_le : size ≤ nens

/-- What `icesee_mpi_ens_distribution` returns on a rank, besides the communicators. -/
structure EnsDistribution where
  rounds : ℕ
  color : ℕ
  key : ℕ
  subcommSizeMin : Option ℕ
  deriving DecidableEq, Repr

/-- The default-run branch of `icesee_mpi_ens_distribution`. -/
def iceseeMpiEnsDistribution (nens sizeWorld rankWorld : ℕ) : EnsDistribution :=
  if sizeWorld ≤ nens then
    let subcommSizeMin := min sizeWorld nens
    { rounds := (nens + subcommSizeMin - 1) / subcommSizeMin
      color := rankWorld % subcommSizeMin
      key := rankWorld / subcommSizeMin
      subcommSizeMin := some subcommSizeMin }
  else
    { rounds := 1, color := rankWorld % nens, key := rankWorld / nens, subcommSizeMin := none }

namespace World

variable (w : World)

/-- The distribution on a rank of the world. -/
def distribution (rank : ℕ) : EnsDistribution := iceseeMpiEnsDistribution w.nens w.size rank

lemma distribution_eq {rank : ℕ} (hr : rank < w.size) : w.distribution rank =
    { rounds := roundsFor w.nens w.size, color := rank, key := 0
      subcommSizeMin := some w.size } := by
  rw [distribution, iceseeMpiEnsDistribution, if_pos w.size_le, Nat.min_eq_left w.size_le]
  simp [roundsFor, Nat.mod_eq_of_lt hr, Nat.div_eq_of_lt hr]

/-- The ranks that `Split` puts into the subcommunicator of a rank. -/
def subcomm (rank : ℕ) : List ℕ :=
  (List.range w.size).filter fun r => (w.distribution r).color = (w.distribution rank).color

/-- Every rank is alone in its subcommunicator, so a gather inside it is the identity. -/
lemma subcomm_eq {rank : ℕ} (hr : rank < w.size) : w.subcomm rank = [rank] := by
  have hcolor : w.subcomm rank = (List.range w.size).filter (· == rank) := by
    refine List.filter_congr fun r hr' => ?_
    rw [w.distribution_eq (List.mem_range.mp hr'), w.distribution_eq hr]
    simp [beq_eq_decide]
  rw [hcolor, List.filter_beq, List.nodup_range.count, if_pos (List.mem_range.mpr hr)]
  rfl

/-! ### The round loop -/

section Loop

variable {α : Type}

/-- `ens_list` on a rank after some rounds: a round appends the result for member
`color + round_id * subcomm_size_min` if there is such a member. -/
def ensList (f : ℕ → α) : ℕ → ℕ → List α
  | 0, _ => []
  | round + 1, rank =>
      let d := w.distribution rank
      let ensembleId := d.color + round * d.subcommSizeMin.getD 1
      if ensembleId < w.nens then ensList f round rank ++ [f ensembleId]
      else ensList f round rank

/-- `gather_data`: MPI concatenates the buffers of the ranks in rank order, provided
they have the size of the root's; otherwise the receive buffer is not defined. -/
def gatherData (data : ℕ → List α) : Option (List (List α)) :=
  if ∀ r < w.size, (data r).length = (data 0).length then some ((List.range w.size).map data)
  else none

/-- The loop over the rounds: every round ends with a gather, and the last one is kept. -/
def roundLoop (f : ℕ → α) : Option (List (List α)) :=
  (List.range (w.distribution 0).rounds).foldlM
    (fun _ round => w.gatherData (w.ensList f (round + 1))) []

/-- The columns that `parallel_forecast_step_default_run` stacks, capped to `Nens`. -/
def forecastColumns (f : ℕ → α) : Option (List α) :=
  (w.roundLoop f).map fun gathered => gathered.flatten.take w.nens

/-- The columns that `ensemble_initialization` stacks. -/
def initializationColumns (f : ℕ → α) : Option (List α) :=
  (w.roundLoop f).map List.flatten

/-! ### What the loop collects -/

/-- After some rounds a rank holds the results for the members it was dealt. -/
lemma ensList_eq (f : ℕ → α) {rank : ℕ} (hr : rank < w.size) (round : ℕ) :
    w.ensList f round rank = (hand w.nens w.size round rank).map f := by
  induction round with
  | zero => rfl
  | succ round ih =>
      rw [ensList, w.distribution_eq hr, hand_succ, ih]
      simp only [Option.getD_some]
      split <;> simp

lemma foldlM_last {σ : Type} {g : ℕ → Option σ} (a : σ) (m : ℕ)
    (h : ∀ i < m, (g i).isSome) : (List.range (m + 1)).foldlM (fun _ i => g i) a = g m := by
  have key : ∀ j ≤ m, ((List.range j).foldlM (fun _ i => g i) a).isSome := by
    intro j
    induction j with
    | zero => intro _; rfl
    | succ j ih =>
        intro hj
        obtain ⟨b, hb⟩ := Option.isSome_iff_exists.mp (ih (by omega))
        rw [List.range_succ, List.foldlM_append, hb]
        simpa using h j (by omega)
  obtain ⟨b, hb⟩ := Option.isSome_iff_exists.mp (key m le_rfl)
  rw [List.range_succ, List.foldlM_append, hb]
  simp

lemma gatherData_eq (f : ℕ → α) (round : ℕ) : w.gatherData (w.ensList f round) =
    if ∀ r < w.size, (hand w.nens w.size round r).length = (hand w.nens w.size round 0).length
    then some ((List.range w.size).map fun r => (hand w.nens w.size round r).map f)
    else none := by
  have hlen : ∀ r < w.size, (w.ensList f round r).length =
      (hand w.nens w.size round r).length := fun r hr => by
    rw [w.ensList_eq f hr, List.length_map]
  have hmap : (List.range w.size).map (w.ensList f round) =
      (List.range w.size).map fun r => (hand w.nens w.size round r).map f :=
    List.map_congr_left fun r hr => w.ensList_eq f (List.mem_range.mp hr) round
  rw [gatherData, hmap]
  refine if_congr (forall₂_congr fun r hr => ?_) rfl rfl
  rw [hlen r hr, hlen 0 w.size_pos]

/-- **The round loop**: the last gather is defined exactly if the ranks divide the
members, and then returns the hands in rank order. -/
lemma roundLoop_eq (f : ℕ → α) : w.roundLoop f =
    if w.size ∣ w.nens then some ((List.range w.size).map fun r =>
      (hand w.nens w.size (roundsFor w.nens w.size) r).map f)
    else none := by
  have hdiv : 0 < w.nens / w.size := Nat.div_pos w.size_le w.size_pos
  obtain ⟨m, hm⟩ : ∃ m, roundsFor w.nens w.size = m + 1 := by
    by_cases hd : w.size ∣ w.nens
    · exact ⟨w.nens / w.size - 1, by rw [roundsFor_of_dvd w.size_pos hd]; omega⟩
    · exact ⟨w.nens / w.size, roundsFor_of_not_dvd w.size_pos hd⟩
  have hle : m ≤ w.nens / w.size := by
    by_cases hd : w.size ∣ w.nens
    · rw [roundsFor_of_dvd w.size_pos hd] at hm; omega
    · rw [roundsFor_of_not_dvd w.size_pos hd] at hm; omega
  -- before the last round all ranks hold equally many results
  have hfull : ∀ i < m, (w.gatherData (w.ensList f (i + 1))).isSome := by
    intro i hi
    have hcard : ∀ r < w.size, (hand w.nens w.size (i + 1) r).length = i + 1 := fun r hr =>
      length_hand_of_lt fun j hj => lt_of_round hr (by omega)
    rw [gatherData_eq, if_pos fun r hr => by rw [hcard r hr, hcard 0 w.size_pos]]
    rfl
  rw [roundLoop, w.distribution_eq w.size_pos, hm, foldlM_last [] m hfull, gatherData_eq, ← hm]
  exact if_congr (length_hand_eq_iff w.size_pos) rfl rfl

end Loop

/-! ### Rounds -/

/-- `rounds`, the same on all ranks. -/
def rounds : ℕ := (w.distribution 0).rounds

/-- The members that the ranks work on in a round, rank by rank. -/
def roundMembers (round : ℕ) : List ℕ :=
  (List.range w.size).filterMap fun rank =>
    let d := w.distribution rank
    let ensembleId := d.color + round * d.subcommSizeMin.getD 1
    if ensembleId < w.nens then some ensembleId else none

lemma rounds_eq : w.rounds = roundsFor w.nens w.size := by
  rw [rounds, w.distribution_eq w.size_pos]

/-- A round takes the next `size` members, as long as there are any. -/
lemma mem_roundMembers {round j : ℕ} : j ∈ w.roundMembers round ↔
    (round * w.size ≤ j ∧ j < (round + 1) * w.size) ∧ j < w.nens := by
  simp only [roundMembers, List.mem_filterMap, List.mem_range, Nat.succ_mul]
  constructor
  · rintro ⟨rank, hr, hj⟩
    simp only [w.distribution_eq hr, Option.getD_some] at hj
    split at hj
    · obtain rfl := Option.some.inj hj
      omega
    · simp at hj
  · rintro ⟨⟨hle, hlt⟩, hn⟩
    have hr : j - round * w.size < w.size := by omega
    have hid : j - round * w.size + round * w.size = j := by omega
    refine ⟨j - round * w.size, hr, ?_⟩
    simp only [w.distribution_eq hr, Option.getD_some, hid, if_pos hn]

lemma roundMembers_ne_nil {round : ℕ} (h : round < w.rounds) : w.roundMembers round ≠ [] := by
  have hn : round * w.size < w.nens := by
    rwa [rounds_eq, round_lt_roundsFor_iff w.size_pos] at h
  have := w.size_pos
  refine List.ne_nil_of_mem (a := round * w.size) (w.mem_roundMembers.mpr ⟨⟨le_rfl, ?_⟩, hn⟩)
  rw [Nat.succ_mul]
  omega

/-- As many ranks as members need one round. -/
lemma rounds_eq_one (h : w.size = w.nens) : w.rounds = 1 := by
  have := w.size_pos
  have hd : w.nens / w.size = 1 := h ▸ Nat.div_self (h ▸ this)
  rw [rounds_eq, roundsFor_of_dvd w.size_pos (h ▸ dvd_rfl), hd]

/-- After all rounds every member has had its turn. -/
lemma lt_rounds_mul {j : ℕ} (hj : j < w.nens) : j < w.rounds * w.size := by
  by_contra hle
  have : w.rounds < w.rounds := by
    conv_rhs => rw [rounds_eq]
    rw [round_lt_roundsFor_iff w.size_pos]
    omega
  exact lt_irrefl _ this

/-! ### Member identity -/

section Identity

variable {α : Type}

/-- Column `j` of both assembled matrices is the result for member `j`, whatever the
members' results are. -/
structure MembersPreserved : Prop where
  forecast : ∀ (α : Type) (f : ℕ → α),
    w.forecastColumns f = some ((List.range w.nens).map f)
  initialization : ∀ (α : Type) (f : ℕ → α),
    w.initializationColumns f = some ((List.range w.nens).map f)

/-- The hands together have as many cards as were dealt. -/
lemma length_flatMap_hand (hd : w.size ∣ w.nens) :
    ((List.range w.size).flatMap (hand w.nens w.size (roundsFor w.nens w.size))).length =
      w.nens := by
  have hlen : ∀ r ∈ List.range w.size,
      (hand w.nens w.size (roundsFor w.nens w.size) r).length = w.nens / w.size := by
    intro r hr
    rw [roundsFor_of_dvd w.size_pos hd]
    exact length_hand_of_lt fun i hi => lt_of_round (List.mem_range.mp hr) hi
  calc ((List.range w.size).flatMap (hand w.nens w.size (roundsFor w.nens w.size))).length
      = ((List.range w.size).map fun _ => w.nens / w.size).sum := by
        rw [List.length_flatMap, List.map_congr_left hlen]
    _ = w.size * (w.nens / w.size) := by
        rw [List.map_const', List.length_range, List.sum_replicate_nat]
    _ = w.nens := Nat.mul_div_cancel' hd

/-- Both matrices are the hands of the ranks, one after the other; the cap of the
forecast removes nothing. -/
lemma columns_eq (f : ℕ → α) (hd : w.size ∣ w.nens) :
    w.forecastColumns f = some (((List.range w.size).flatMap
      (hand w.nens w.size (roundsFor w.nens w.size))).map f) ∧
    w.initializationColumns f = some (((List.range w.size).flatMap
      (hand w.nens w.size (roundsFor w.nens w.size))).map f) := by
  have hflat : ((List.range w.size).map fun r =>
      (hand w.nens w.size (roundsFor w.nens w.size) r).map f).flatten =
        ((List.range w.size).flatMap
          (hand w.nens w.size (roundsFor w.nens w.size))).map f := by
    rw [← List.flatMap_def, List.map_flatMap]
  constructor
  · rw [forecastColumns, roundLoop_eq, if_pos hd, Option.map_some, hflat,
      List.take_of_length_le (by rw [List.length_map, w.length_flatMap_hand hd])]
  · rw [initializationColumns, roundLoop_eq, if_pos hd, Option.map_some, hflat]

end Identity

/-- **Member identity, exactly**: the columns are in member order if and only if there
is one rank or one round. -/
theorem membersPreserved_iff (w : World) :
    w.MembersPreserved ↔ w.size = 1 ∨ w.size = w.nens := by
  refine ⟨fun h => ?_, fun h => ?_⟩
  · have hd : w.size ∣ w.nens := by
      by_contra hd
      have hf := h.initialization ℕ id
      rw [initializationColumns, roundLoop_eq, if_neg hd] at hf
      simp at hf
    have hcols := h.initialization ℕ id
    rw [(w.columns_eq id hd).2, List.map_id, List.map_id] at hcols
    exact (flatMap_hand_eq_range_iff w.size_pos w.size_le hd).mp (Option.some.inj hcols)
  · have hd : w.size ∣ w.nens := by
      rcases h with h | h
      · exact h ▸ one_dvd _
      · exact h ▸ dvd_rfl
    have hrange := (flatMap_hand_eq_range_iff w.size_pos w.size_le hd).mpr h
    exact ⟨fun α f => by rw [(w.columns_eq f hd).1, hrange],
      fun α f => by rw [(w.columns_eq f hd).2, hrange]⟩

/-- Four members on two ranks: rank `0` holds members `0` and `2`, so column `1` of the
assembled matrix is the result for member `2`. -/
theorem not_membersPreserved_four_two :
    (⟨4, 2, by decide, by decide⟩ : World).forecastColumns id = some [0, 2, 1, 3] ∧
    ¬ (⟨4, 2, by decide, by decide⟩ : World).MembersPreserved := by
  have hcols : (⟨4, 2, by decide, by decide⟩ : World).forecastColumns id = some [0, 2, 1, 3] := by
    decide
  refine ⟨hcols, fun h => ?_⟩
  have hid := h.forecast ℕ id
  rw [hcols] at hid
  exact absurd hid (by decide)

end World

end Icesee
