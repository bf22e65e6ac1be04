import Icesee.Analysis.X5

/-!
The loop over the eigenvalues, index by index.

`EnKF_X5`, `DEnKF_X5` and `compute_X5_modified` run the same loop over `range(nrmin)`. It
changes `sig` while it sums it, and divides twice in a round; `truncationLoop` performs
these rounds on the list with divisions that fail at zero. `truncationLoop_eq` relates it
to `invertLoop`, and `truncations_eq` says what it leaves for eigenvalues that do not
increase: the inverses of the shortest prefix that reaches 99.9 percent of the sum
(`IsShortestPrefix`), and zeros behind it.
-/

namespace Icesee

variable {K : Type} [Field K] [LinearOrder K]

/-! ### The rounds -/

/-- A division that fails at zero. -/
def divide (a b : K) : Option K := if b = 0 then none else some (a / b)

lemma divide_of_ne {a b : K} (hb : b ≠ 0) : divide a b = some (a / b) := if_neg hb

/-- `sigsum1`, `nrsigma` and `sig`. -/
structure Truncation (K : Type) where
  sigsum1 : K
  nrsigma : ℕ
  sig : List K

/-- The rounds for the indices that are left; `nrmin` is the length of `sig`. -/
def truncationLoop (sigsum : K) : List ℕ → Truncation K → Option (Truncation K)
  | [], s => some s
  | i :: rest, s => do
    if (← divide s.sigsum1 sigsum) < (999 : ℕ) / (1000 : ℕ) then
      let sigsum1 := s.sigsum1 + s.sig.getD i 0
      let inverse ← divide 1 (s.sig.getD i 0)
      truncationLoop sigsum rest
        { sigsum1 := sigsum1, nrsigma := s.nrsigma + 1, sig := s.sig.set i inverse }
    else
      -- `sig[i:nrmin] = 0.0` and `break`
      return { s with sig := s.sig.take i ++ (s.sig.drop i).map fun _ => 0 }

/-- The truncation of `EnKF_X5`. -/
def enkfTruncation (sig : List K) : Option (Truncation K) :=
  truncationLoop sig.sum (List.range sig.length) ⟨0, 0, sig⟩

/-- The truncation of `DEnKF_X5`. -/
def denkfTruncation (sig : List K) : Option (Truncation K) := enkfTruncation sig

/-- The truncation of `compute_X5_modified`, with its guard. -/
def modifiedTruncation (sig : List K) : Option (Truncation K) :=
  if sig.sum = 0 then some ⟨0, 0, sig.map fun _ => 0⟩ else enkfTruncation sig

/-! ### One pass over the list -/

omit [LinearOrder K] in
/-- The loop over the list inverts a prefix and writes zeros behind it. -/
lemma invertLoop_snd (keep : K → Bool) (a : K) (l : List K) : (invertLoop keep a l).2 =
    (l.take (invertLoop keep a l).1).map (1 / ·) ++
      (l.drop (invertLoop keep a l).1).map fun _ => 0 := by
  induction l generalizing a with
  | nil => rfl
  | cons s rest ih =>
      rw [invertLoop]
      split
      · rw [List.take_succ_cons, List.drop_succ_cons, List.map_cons, List.cons_append, ← ih]
      · rfl

omit [LinearOrder K] in
lemma invertLoop_fst_le (keep : K → Bool) (a : K) (l : List K) :
    (invertLoop keep a l).1 ≤ l.length := by
  induction l generalizing a with
  | nil => exact le_rfl
  | cons s rest ih =>
      rw [invertLoop]
      split
      · exact Nat.succ_le_succ (ih (a + s))
      · exact Nat.zero_le _

/-- **The rounds** are the pass over the list, as long as no inverted entry is zero: the
entries before the index are done, and the ones from the index on are still those of the
list. -/
lemma truncationLoop_eq {sigsum : K} (hsum : sigsum ≠ 0) (rest done : List K) (a : K) (n : ℕ)
    (hne : ∀ i < (invertLoop (quotientBelow sigsum) a rest).1, rest.getD i 0 ≠ 0) :
    truncationLoop sigsum (List.range' done.length rest.length) ⟨a, n, done ++ rest⟩ =
      some ⟨a + (rest.take (invertLoop (quotientBelow sigsum) a rest).1).sum,
        n + (invertLoop (quotientBelow sigsum) a rest).1,
        done ++ (invertLoop (quotientBelow sigsum) a rest).2⟩ := by
  -- along the list; `done` is what the rounds have written so far
  induction rest generalizing done a n with
  | nil => simp [truncationLoop, invertLoop]
  | cons s rest ih =>
      have hget : (done ++ s :: rest).getD done.length 0 = s := by simp
      rw [List.length_cons, List.range'_succ, truncationLoop, divide_of_ne hsum, Nat.cast_ofNat,
        Nat.cast_ofNat]
      by_cases hkeep : a / sigsum < 999 / 1000
      · have hloop : invertLoop (quotientBelow sigsum) a (s :: rest) =
            ((invertLoop (quotientBelow sigsum) (a + s) rest).1 + 1,
              1 / s :: (invertLoop (quotientBelow sigsum) (a + s) rest).2) := by
          rw [invertLoop, if_pos]
          exact decide_eq_true ⟨hsum, hkeep⟩
        rw [hloop] at hne ⊢
        have hs : s ≠ 0 := hne 0 (Nat.succ_pos _)
        have hset : (done ++ s :: rest).set done.length (1 / s) = done ++ 1 / s :: rest := by simp
        have hnext := ih (done ++ [1 / s]) (a + s) (n + 1)
          fun i hi => hne (i + 1) (Nat.succ_lt_succ hi)
        rw [List.length_append, List.length_singleton, List.append_assoc, List.append_assoc,
          List.singleton_append, List.singleton_append, add_assoc, add_assoc n,
          Nat.add_comm 1] at hnext
        simpa only [Option.bind_eq_bind, Option.bind_some, if_pos hkeep, hget, divide_of_ne hs,
          hset, List.take_succ_cons, List.sum_cons] using hnext
      · have hloop : invertLoop (quotientBelow sigsum) a (s :: rest) =
            (0, (s :: rest).map fun _ => 0) := by
          rw [invertLoop, if_neg]
          simp [quotientBelow, hkeep]
        simp [hloop, hkeep]

/-! ### The shortest prefix -/

/-- The first `n` entries reach 99.9 percent of the sum, and no shorter prefix does. -/
structure IsShortestPrefix (sig : List K) (n : ℕ) : Prop where
  le_length : n ≤ sig.length
  reaches : 999 / 1000 * sig.sum ≤ (sig.take n).sum
  shortest : ∀ k < n, (sig.take k).sum < 999 / 1000 * sig.sum

variable [IsStrictOrderedRing K]

/-- The pass goes on exactly as long as the entries that it has summed are too few. -/
lemma lt_invertLoop_iff {sigsum a : K} (hsum : 0 < sigsum) {l : List K}
    (hnonneg : ∀ s ∈ l, 0 ≤ s) {k : ℕ} (hk : k < l.length) :
    k < (invertLoop (quotientBelow sigsum) a l).1 ↔ a + (l.take k).sum < 999 / 1000 * sigsum := by
  induction l generalizing a k with
  | nil => exact absurd hk (Nat.not_lt_zero k)
  | cons s rest ih =>
      have hkeep : quotientBelow sigsum a ↔ a < 999 / 1000 * sigsum := by
        simp [quotientBelow, hsum.ne', div_lt_iff₀ hsum]
      have hrest : ∀ x ∈ rest, 0 ≤ x := fun x hx => hnonneg x (List.mem_cons_of_mem s hx)
      have hs : 0 ≤ s := hnonneg s List.mem_cons_self
      rw [invertLoop]
      split
      · next h =>
        cases k with
        | zero => simpa using hkeep.mp h
        | succ k =>
            rw [Nat.succ_lt_succ_iff, ih hrest (Nat.lt_of_succ_lt_succ hk), List.take_succ_cons,
              List.sum_cons, add_assoc]
      · next h =>
        -- the sum only grows, so a later prefix is not too short either
        have htake : 0 ≤ ((s :: rest).take k).sum :=
          List.sum_nonneg fun x hx => hnonneg x (List.mem_of_mem_take hx)
        have hge := not_lt.mp (hkeep.not.mp h)
        exact iff_of_false (Nat.not_lt_zero k)
          (not_lt.mpr (hge.trans (le_add_of_nonneg_right htake)))

/-- The pass stops behind the shortest prefix. -/
lemma isShortestPrefix_invertLoop {sig : List K} (hnonneg : ∀ s ∈ sig, 0 ≤ s)
    (hsum : 0 < sig.sum) :
    IsShortestPrefix sig (invertLoop (quotientBelow sig.sum) 0 sig).1 := by
  have hle := invertLoop_fst_le (quotientBelow sig.sum) 0 sig
  refine ⟨hle, ?_, fun k hk => ?_⟩
  · rcases hle.lt_or_eq with hlt | heq
    · have hstop := (lt_invertLoop_iff (a := 0) hsum hnonneg hlt).not.mp (lt_irrefl _)
      rwa [zero_add, not_lt] at hstop
    · rw [heq, List.take_length]
      linarith
  · have hgo := (lt_invertLoop_iff (a := 0) hsum hnonneg (hk.trans_le hle)).mp hk
    rwa [zero_add] at hgo

/-- The loop does not divide by zero, and leaves what the pass over the list leaves. -/
lemma enkfTruncation_eq {sig : List K} (hsorted : sig.Pairwise (· ≥ ·))
    (hnonneg : ∀ s ∈ sig, 0 ≤ s) (hsum : 0 < sig.sum) :
    enkfTruncation sig = some ⟨(sig.take (invertLoop (quotientBelow sig.sum) 0 sig).1).sum,
      (invertLoop (quotientBelow sig.sum) 0 sig).1, enkfSig sig⟩ := by
  have hloop := truncationLoop_eq hsum.ne' sig [] 0 0 fun i hi =>
    (invertLoop_pos (zero_add _) hsorted hnonneg hi).ne'
  simpa [enkfTruncation, List.range_eq_range', enkfSig] using hloop

/-- **Eigenvalue truncation**: the three loops divide by no zero, invert the shortest prefix
that reaches 99.9 percent of the sum, set the rest to zero, and count the prefix. -/
theorem truncations_eq {sig : List K} (hsorted : sig.Pairwise (· ≥ ·))
    (hnonneg : ∀ s ∈ sig, 0 ≤ s) (hsum : 0 < sig.sum) :
    ∃ n, IsShortestPrefix sig n ∧
      ∀ truncation ∈ [enkfTruncation, denkfTruncation, modifiedTruncation], truncation sig =
        some ⟨(sig.take n).sum, n,
          (sig.take n).map (1 / ·) ++ (sig.drop n).map fun _ => 0⟩ := by
  refine ⟨_, isShortestPrefix_invertLoop hnonneg hsum, ?_⟩
  have henkf := enkfTruncation_eq hsorted hnonneg hsum
  rw [enkfSig, invertLoop_snd] at henkf
  simp only [List.forall_mem_cons, List.not_mem_nil, false_imp_iff, implies_true, and_true]
  refine ⟨henkf, henkf, ?_⟩
  rw [modifiedTruncation, if_neg hsum.ne', henkf]

/-- A tie, a small eigenvalue and a zero: the first two are inverted. -/
theorem truncations_four : ∃ n, IsShortestPrefix [(5000 : ℚ), 5000, 1, 0] n ∧
    ∀ truncation ∈ [enkfTruncation, denkfTruncation, modifiedTruncation],
      truncation [(5000 : ℚ), 5000, 1, 0] =
        some ⟨([(5000 : ℚ), 5000, 1, 0].take n).sum, n,
          ([(5000 : ℚ), 5000, 1, 0].take n).map (1 / ·) ++
            ([(5000 : ℚ), 5000, 1, 0].drop n).map fun _ => 0⟩ :=
  truncations_eq (by simp) (by simp) (by norm_num)

end Icesee
