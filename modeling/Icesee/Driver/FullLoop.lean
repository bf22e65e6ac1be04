import Icesee.Obs.Counter
import Icesee.Driver.Events

/-!
The time loop of the full-parallel driver, as far as the observation counter goes.

The loop runs over `range(k_start, nt)`. An iteration is skipped when
`step_already_done` says so, and then moves the counter by `k+1 == tobserve[km]`; an
executed iteration enters the analysis by `k == obs_index[km]`; and the counter
starts at `compute_km_from_tobserve`, which counts up to `k_start`. These are three
different conventions. `counterLaw_iff` says exactly when they agree with the one
that the analysis needs, `km = #{i : obs_index[i] < k}`.
-/

namespace Icesee

open Counting

variable (filter : FilterType) (obs : ObsIndex)

/-! ### The loop -/

/-- What the analysis branch logs: only the EnKF has an update to call, the counter
moves on for every filter. -/
def fullAnalysis (k km : ℕ) : List Event :=
  [.analysis k km] ++ (if filter = .EnKF then [.update k km] else []) ++ [.advance k km]

/-- One iteration; `done k` is the answer of `step_already_done` (`false` throughout
under `force_fresh_start`). -/
def fullIteration (done : ℕ → Bool) (s : LoopState) (k : ℕ) : LoopState :=
  if done k then
    if obs.due s.km (k + 1) then { km := s.km + 1, log := s.log ++ [.advance k s.km] } else s
  else if obs.due s.km k then
    { km := s.km + 1, log := s.log ++ fullAnalysis filter k s.km }
  else s

/-- The state after the iterations `k_start, …, n - 1`. -/
def fullRun (done : ℕ → Bool) (kStart n : ℕ) : LoopState :=
  (List.range' kStart (n - kStart)).foldl (fullIteration filter obs done)
    { km := computeKmFromTobserve obs.times kStart (some obs.mObs), log := [] }

variable {filter obs} {done : ℕ → Bool} {kStart : ℕ}

lemma fullRun_start : fullRun filter obs done kStart kStart =
    { km := below obs.times (kStart + 1), log := [] } := by
  simp [fullRun, computeKm_eq]

lemma fullRun_succ {k : ℕ} (hk : kStart ≤ k) : fullRun filter obs done kStart (k + 1) =
    fullIteration filter obs done (fullRun filter obs done kStart k) k := by
  have hlen : k + 1 - kStart = k - kStart + 1 := by omega
  have hlast : kStart + (k - kStart) = k := by omega
  rw [fullRun, hlen, List.range'_1_concat, List.foldl_append, hlast]
  rfl

/-! ### The law of the counter -/

/-- The law under restart: at the start of every iteration the counter is at the
position of the iteration, and from `k_start` on the same columns are assimilated as
in the uninterrupted run. -/
structure CounterLaw (filter : FilterType) (obs : ObsIndex) (done : ℕ → Bool)
    (kStart nt : ℕ) : Prop where
  counts : ∀ k, kStart ≤ k → k < nt →
    (fullRun filter obs done kStart k).km = below obs.times k
  columns : (analyses (fullRun filter obs done kStart nt).log).map Prod.snd =
    ((analyses (fullRun filter obs (fun _ => false) 0 nt).log).filter
      fun a => kStart ≤ a.1).map Prod.snd

/-- The condition under which the conventions agree: the run does not start at an
observation, and no skipped iteration is at an observation or right before one. -/
structure NoObsSkipped (obs : ObsIndex) (done : ℕ → Bool) (kStart nt : ℕ) : Prop where
  start : kStart < nt → (kStart : ℤ) ∉ obs.times
  skipped : ∀ k, kStart ≤ k → k < nt → done k →
    (k : ℤ) ∉ obs.times ∧ (k + 1 < nt → ((k + 1 : ℕ) : ℤ) ∉ obs.times)

/-- A skipped iteration keeps the position if it is not right before an observation. -/
lemma fullIteration_skipped {s : LoopState} {k : ℕ} (hd : done k)
    (hs : ¬ obs.due s.km (k + 1)) : fullIteration filter obs done s k = s := by
  rw [fullIteration, if_pos hd, if_neg hs]

/-- An executed iteration at the position of `k` moves to the position of `k + 1`. -/
lemma fullIteration_executed {s : LoopState} {k : ℕ} (hd : ¬ done k)
    (hkm : s.km = below obs.times k) :
    (fullIteration filter obs done s k).km = below obs.times (k + 1) := by
  have hdue := obs.due_below (k := k)
  rw [fullIteration, if_neg hd, hkm]
  by_cases hk : (k : ℤ) ∈ obs.times
  · rw [if_pos (hdue.mpr hk), below_succ_of_mem obs.sorted hk]
  · rw [if_neg (hdue.not.mpr hk), below_succ_of_notMem obs.sorted hk, hkm]

/-! ### What a run assimilates -/

lemma analyses_fullAnalysis (k km : ℕ) : analyses (fullAnalysis filter k km) = [(k, km)] := by
  cases filter <;> rfl

/-- The step of the log: an iteration enters the analysis if it is executed and due. -/
lemma analyses_fullIteration (s : LoopState) (k : ℕ) :
    analyses (fullIteration filter obs done s k).log =
      analyses s.log ++ if !done k && obs.due s.km k then [(k, s.km)] else [] := by
  cases hd : done k
  · by_cases hs : obs.due s.km k
    · simp [fullIteration, hd, hs, analyses_fullAnalysis]
    · simp [fullIteration, hd, hs]
  · by_cases hs : obs.due s.km (k + 1)
    · simp [fullIteration, hd, hs, analyses]
    · simp [fullIteration, hd, hs]

/-- The log of a run whose counter is at `c k` at the start of iteration `k`. -/
lemma analyses_fullRun {c : ℕ → ℕ} (n : ℕ)
    (hc : ∀ k, kStart ≤ k → k < n → (fullRun filter obs done kStart k).km = c k) :
    analyses (fullRun filter obs done kStart n).log =
      ((List.range' kStart (n - kStart)).filter fun k => !done k && obs.due (c k) k).map
        fun k => (k, c k) := by
  by_cases hn : kStart ≤ n
  · induction n, hn using Nat.le_induction with
    | base => simp [fullRun_start, analyses]
    | succ n hn ih =>
        have hlen : n + 1 - kStart = n - kStart + 1 := by omega
        have hlast : kStart + (n - kStart) = n := by omega
        rw [fullRun_succ hn, analyses_fullIteration, ih fun k h h' => hc k h (by omega),
          hc n hn (by omega), hlen, List.range'_1_concat, hlast, List.filter_append,
          List.map_append]
        congr 1
        by_cases hp : !done n && obs.due (c n) n
        · simp [hp]
        · simp [hp]
  · have hlen : n - kStart = 0 := by omega
    simp [fullRun, hlen, analyses]

/-- Once an observation at step `0` is counted, step `0` is not due. -/
lemma not_due_zero : ¬ obs.due (below obs.times 1) 0 := by
  rw [ObsIndex.due_iff]
  intro h0
  have := (lt_below_iff obs.sorted (k := 1) h0).mpr (by omega)
  omega

/-- The uninterrupted run is at the position of every step but the first, where the
start value has already counted an observation at step `0`. -/
lemma fullRun_uninterrupted_km (k : ℕ) :
    (fullRun filter obs (fun _ => false) 0 k).km = below obs.times (max k 1) := by
  induction k with
  | zero => rw [fullRun_start]; rfl
  | succ k ih =>
      rw [fullRun_succ (Nat.zero_le k)]
      cases k with
      | zero =>
          have hkm : (fullRun filter obs (fun _ => false) 0 0).km = below obs.times 1 := by
            rw [fullRun_start]; rfl
          rw [fullIteration, if_neg (by simp), hkm]
          simp [not_due_zero, hkm]
      | succ k =>
          have hmax : max ((k + 1 : ℕ) : ℤ) 1 = (k + 1 : ℕ) := by omega
          have hmax' : max ((k + 1 + 1 : ℕ) : ℤ) 1 = (k + 1 : ℕ) + 1 := by omega
          rw [hmax] at ih
          rw [hmax', fullIteration_executed (by simp) ih]

/-- The uninterrupted run enters the analysis at every observation but one at step `0`. -/
lemma analyses_uninterrupted (nt : ℕ) :
    analyses (fullRun filter obs (fun _ => false) 0 nt).log =
      ((List.range nt).filter fun k : ℕ => decide (0 < k ∧ (k : ℤ) ∈ obs.times)).map
        fun k : ℕ => (k, below obs.times k) := by
  rw [analyses_fullRun nt fun k _ _ => fullRun_uninterrupted_km k, List.range_eq_range',
    Nat.sub_zero]
  have hfilter : ∀ k : ℕ, (!false && obs.due (below obs.times (max k 1)) k) =
      decide (0 < k ∧ (k : ℤ) ∈ obs.times) := by
    intro k
    cases k with
    | zero => simpa using not_due_zero
    | succ k =>
        have hmax : max ((k + 1 : ℕ) : ℤ) 1 = (k + 1 : ℕ) := by omega
        rw [hmax, Bool.not_false, Bool.true_and, Bool.eq_iff_iff, obs.due_below]
        simp
  simp only [hfilter]
  refine List.map_congr_left fun k hk => ?_
  have hpos : 0 < k := (of_decide_eq_true (List.mem_filter.mp hk).2).1
  have hmax : max (k : ℤ) 1 = k := by omega
  rw [hmax]

/-! ### The law, exactly -/

/-- Without a skipped observation the counter is at its position throughout. -/
lemma km_of_noObsSkipped {nt : ℕ} (h : NoObsSkipped obs done kStart nt) {k : ℕ}
    (hk : kStart ≤ k) (hnt : k < nt) :
    (fullRun filter obs done kStart k).km = below obs.times k := by
  induction k, hk using Nat.le_induction with
  | base =>
      rw [fullRun_start, below_succ_of_notMem obs.sorted (h.start hnt)]
  | succ k hk ih =>
      have hkm := ih (by omega)
      rw [fullRun_succ hk]
      by_cases hd : done k
      · obtain ⟨hnk, hnk'⟩ := h.skipped k hk (by omega) hd
        have hpos : below obs.times ((k + 1 : ℕ) : ℤ) = below obs.times k := by
          rw [Nat.cast_succ, below_succ_of_notMem obs.sorted hnk]
        have hnd : ¬ obs.due (below obs.times k) (k + 1) := by
          rw [← hpos]
          exact_mod_cast obs.due_below.not.mpr (hnk' hnt)
        rw [fullIteration_skipped hd (by rwa [hkm]), hkm, hpos]
      · exact_mod_cast fullIteration_executed hd hkm

/-- Under the law the log lists the executed observations with their positions. -/
lemma analyses_of_counts {nt : ℕ}
    (hc : ∀ k, kStart ≤ k → k < nt → (fullRun filter obs done kStart k).km = below obs.times k) :
    analyses (fullRun filter obs done kStart nt).log =
      ((List.range' kStart (nt - kStart)).filter
        fun k : ℕ => !done k && decide ((k : ℤ) ∈ obs.times)).map
          fun k : ℕ => (k, below obs.times k) := by
  rw [analyses_fullRun nt hc]
  congr 2
  funext k
  rw [Bool.eq_iff_iff, Bool.and_eq_true, Bool.and_eq_true, obs.due_below, decide_eq_true_iff]

/-- Under the law the run does not start at an observation: the start value would count
it already. -/
lemma CounterLaw.start_notMem {nt : ℕ} (law : CounterLaw filter obs done kStart nt)
    (hnt : kStart < nt) : (kStart : ℤ) ∉ obs.times := by
  intro hk
  have hkm := law.counts kStart le_rfl hnt
  rw [fullRun_start, below_succ_of_mem obs.sorted hk] at hkm
  simp at hkm

/-- Under the law a skipped iteration is not at an observation: the uninterrupted run
assimilates its column, the resumed run does not. -/
lemma CounterLaw.notMem_of_done {nt k : ℕ} (law : CounterLaw filter obs done kStart nt)
    (hk : kStart ≤ k) (hnt : k < nt) (hd : done k) : (k : ℤ) ∉ obs.times := by
  intro hmem
  have hpos : 0 < k := by
    by_contra h0
    obtain rfl : k = 0 := by omega
    obtain rfl : kStart = 0 := by omega
    exact law.start_notMem hnt hmem
  have hcol : below obs.times k ∈
      (analyses (fullRun filter obs done kStart nt).log).map Prod.snd := by
    rw [law.columns, analyses_uninterrupted]
    simp only [List.mem_map, List.mem_filter, List.mem_range, decide_eq_true_eq]
    exact ⟨(k, _), ⟨⟨k, ⟨hnt, hpos, hmem⟩, rfl⟩, hk⟩, rfl⟩
  rw [analyses_of_counts law.counts] at hcol
  simp only [List.mem_map, List.mem_filter, Bool.and_eq_true, decide_eq_true_eq] at hcol
  obtain ⟨_, ⟨j, ⟨-, hjd, hj⟩, rfl⟩, hjk⟩ := hcol
  obtain rfl : j = k := by exact_mod_cast (below_inj obs.sorted hj hmem).mp hjk
  simp [hd] at hjd

/-- Under the law a skipped iteration is not right before an observation either: the
branch of the skip would count it one iteration early. -/
lemma CounterLaw.succ_notMem_of_done {nt k : ℕ} (law : CounterLaw filter obs done kStart nt)
    (hk : kStart ≤ k) (hnt : k + 1 < nt) (hd : done k) :
    ((k + 1 : ℕ) : ℤ) ∉ obs.times := by
  intro hmem
  have hnk : (k : ℤ) ∉ obs.times := law.notMem_of_done hk (by omega) hd
  have hkm := law.counts k hk (by omega)
  have hpos : below obs.times ((k + 1 : ℕ) : ℤ) = below obs.times k := by
    rw [Nat.cast_succ, below_succ_of_notMem obs.sorted hnk]
  have hdue : obs.due (below obs.times k) (k + 1) := by
    rw [← hpos]
    exact_mod_cast obs.due_below.mpr hmem
  have hkm' := law.counts (k + 1) (by omega) hnt
  rw [fullRun_succ hk, fullIteration, if_pos hd, hkm, if_pos hdue, hpos] at hkm'
  simp at hkm'

/-- With no observation skipped, the steps that the resumed run analyses are those of the
uninterrupted run from `k_start` on. -/
lemma NoObsSkipped.steps_eq {nt : ℕ} (h : NoObsSkipped obs done kStart nt) :
    (List.range' kStart (nt - kStart)).filter
        (fun k : ℕ => !done k && decide ((k : ℤ) ∈ obs.times)) =
      ((List.range nt).filter fun k : ℕ => decide (0 < k ∧ (k : ℤ) ∈ obs.times)).filter
        fun k : ℕ => decide (kStart ≤ k) := by
  -- two increasing lists of steps with the same members
  refine List.SortedLT.eq_of_mem_iff ?_ ?_ fun k => ?_
  · exact ((List.pairwise_lt_range' ).filter _).sortedLT
  · exact ((List.pairwise_lt_range.filter _).filter _).sortedLT
  · simp only [List.mem_filter, List.mem_range'_1, List.mem_range, Bool.and_eq_true,
      Bool.not_eq_true', decide_eq_true_eq]
    constructor
    · rintro ⟨⟨hk, hnt⟩, -, hmem⟩
      refine ⟨⟨by omega, ?_, hmem⟩, hk⟩
      by_contra h0
      obtain rfl : k = 0 := by omega
      obtain rfl : kStart = 0 := by omega
      exact h.start (by omega) hmem
    · rintro ⟨⟨hnt, -, hmem⟩, hk⟩
      refine ⟨⟨hk, by omega⟩, ?_, hmem⟩
      by_contra hd
      exact (h.skipped k hk hnt (by simpa using hd)).1 hmem

/-- **The law of the counter under restart, exactly**: it holds if and only if the run
does not start at an observation and skips no iteration at an observation or right
before one. -/
theorem counterLaw_iff (filter : FilterType) (obs : ObsIndex) (done : ℕ → Bool)
    (kStart nt : ℕ) :
    CounterLaw filter obs done kStart nt ↔ NoObsSkipped obs done kStart nt := by
  refine ⟨fun law => ⟨law.start_notMem, fun k hk hnt hd => ?_⟩, fun h => ?_⟩
  · exact ⟨law.notMem_of_done hk hnt hd, fun hnt' => law.succ_notMem_of_done hk hnt' hd⟩
  · have hcounts : ∀ k, kStart ≤ k → k < nt →
        (fullRun filter obs done kStart k).km = below obs.times k :=
      fun _ hk hnt => km_of_noObsSkipped h hk hnt
    refine ⟨hcounts, ?_⟩
    rw [analyses_of_counts hcounts, analyses_uninterrupted, List.filter_map, List.map_map,
      List.map_map, h.steps_eq]
    rfl

/-- A run that is resumed right at the only observation never assimilates it: the start
value has counted it already. -/
theorem not_counterLaw_at_observation :
    (fullRun .EnKF ⟨[2], by decide⟩ (fun _ => false) 2 4).log = [] ∧
    ¬ CounterLaw .EnKF ⟨[2], by decide⟩ (fun _ => false) 2 4 := by
  refine ⟨by decide, fun law => ?_⟩
  exact absurd (law.counts 2 le_rfl (by decide)) (by decide)

end Icesee
