import Icesee.Mpi.Distribution
import Mathlib.Analysis.Real.Sqrt

/-!
The model error noise of the three drivers.

Every member is given noise that mixes fresh draws with the noise found in the keyword
arguments, and leaves the mixture there. The drivers put the initial noise of the rank
back before every step, so what a step does depends on no other step (`driverLoop_log`).
`restartedNoise` says what this means for the noise of a member, and
`not_isAR1_two_steps` that it is no autoregressive process over the steps. The noise
consists of one block for every entry of `sig_Q` that is mixed; blocks of the initial noise that no
member reads are left out.
-/

namespace Icesee

open Deal

/-- The three drivers. -/
inductive Mode
  | serial
  | partialParallel
  | fullParallel
  deriving DecidableEq

/-- A run of a driver: the members and ranks, the time steps, and the blocks of noise. The
entries of a block are `hdim` in the parallel drivers and those of a variable in the serial one. -/
structure NoiseRun where
  mode : Mode
  world : World
  nt : ℕ
  dt : ℝ
  sigQ : List ℝ
  numStateVars : ℕ
  vecInputs : List String
  dim : ℕ → ℕ

namespace NoiseRun

variable (c : NoiseRun)

/-- The blocks that are mixed: `ii <= num_state_vars`, and in the serial driver those
that have a variable. -/
def blocks : ℕ :=
  match c.mode with
  | .serial => min (min c.sigQ.length (c.numStateVars + 1)) c.vecInputs.length
  | _ => min c.sigQ.length (c.numStateVars + 1)

/-- Noise, block by block. -/
abbrev Noise : Type := (ii : Fin c.blocks) → Fin (c.dim ii) → ℝ

/-- `alpha`, from the decorrelation length `tau`. -/
noncomputable def alpha : ℝ :=
  let tau := max 500 (max 200 c.dt)
  let alpha := 1 - c.dt / tau
  if alpha ≤ 0 ∨ 1 < alpha then 0.5 else alpha

variable {c}

/-- `alpha*noise + np.sqrt(1 - alpha**2)*W`, in every block. -/
noncomputable def mix (noise W : c.Noise) : c.Noise := fun ii i =>
  c.alpha * noise ii i + √(1 - c.alpha ^ 2) * W ii i

/-- The loop over the members of a rank: what is added to each of them, and the noise that
is left in the keyword arguments. -/
noncomputable def memberLoop (W : ℕ → c.Noise) : c.Noise → List ℕ → List (ℕ × c.Noise) × c.Noise
  | noise, [] => ([], noise)
  | noise, ens :: rest =>
    let q0 := mix noise (W ens)
    let r := memberLoop W q0 rest
    ((ens, q0) :: r.1, r.2)

variable (c)

/-- The ranks that forecast. -/
def ranks : ℕ :=
  match c.mode with
  | .serial => 1
  | _ => c.world.size

/-- The members of a rank, in the order of the forecast: all of them in the serial driver,
one in every round in the others. -/
def members (rank : ℕ) : List ℕ :=
  match c.mode with
  | .serial => List.range c.world.nens
  | _ => c.world.ensList id (c.world.distribution rank).rounds rank

/-- What a rank keeps from step to step: the noise in the keyword arguments, and what was
added in the steps so far. -/
structure State where
  noise : c.Noise
  added : List (List (ℕ × c.Noise))

/-- The loop over the steps before `n`. The serial driver passes a copy of the keyword
arguments, the others take over what is returned. -/
noncomputable def driverLoop (initial : ℕ → c.Noise) (W : ℕ → ℕ → c.Noise) (rank : ℕ) :
    ℕ → c.State
  | 0 => { noise := initial rank, added := [] }
  | k + 1 =>
    let s := driverLoop initial W rank k
    let s := { s with noise := initial rank }
    let r := memberLoop (fun ens => W ens k) s.noise (c.members rank)
    { noise := if c.mode = .serial then s.noise else r.2
      added := s.added ++ [r.1] }

/-- What a rank adds to its members at step `k`. -/
noncomputable def added (initial : ℕ → c.Noise) (W : ℕ → ℕ → c.Noise) (rank k : ℕ) :
    List (ℕ × c.Noise) :=
  ((c.driverLoop initial W rank c.nt).added[k]?).getD []

variable {c} {initial : ℕ → c.Noise} {W W' : ℕ → ℕ → c.Noise}

/-! ### The loop over the members -/

section Members

variable {V V' : ℕ → c.Noise} {q : c.Noise} {l : List ℕ}

/-- Every member is given noise once. -/
lemma memberLoop_map_fst : (memberLoop V q l).1.map Prod.fst = l := by
  induction l generalizing q with
  | nil => rfl
  | cons ens rest ih => exact congrArg (ens :: ·) ih

/-- The first member mixes its draw with the noise that is found. -/
lemma memberLoop_head? :
    (memberLoop V q l).1.head? = l.head?.map fun ens => (ens, mix q (V ens)) := by
  cases l <;> rfl

/-- Only the draws of the members of the list are used. -/
lemma memberLoop_congr (h : ∀ ens ∈ l, V ens = V' ens) : memberLoop V q l = memberLoop V' q l := by
  induction l generalizing q with
  | nil => rfl
  | cons ens rest ih =>
      rw [memberLoop, memberLoop, h ens List.mem_cons_self,
        ih fun ens' hens => h ens' (List.mem_cons_of_mem ens hens)]

end Members

/-! ### The loop over the steps -/

/-- The steps before `n` have been logged. -/
lemma driverLoop_length (rank n : ℕ) : (c.driverLoop initial W rank n).added.length = n := by
  induction n with
  | zero => rfl
  | succ n ih => rw [driverLoop, List.length_append, ih, List.length_singleton]

/-- Every step starts from the initial noise of the rank. -/
lemma driverLoop_added (rank : ℕ) {k n : ℕ} (hk : k < n) :
    (c.driverLoop initial W rank n).added[k]? =
      some (memberLoop (fun ens => W ens k) (initial rank) (c.members rank)).1 := by
  induction n with
  | zero => exact absurd hk (Nat.not_lt_zero k)
  | succ n ih =>
      rw [driverLoop, List.getElem?_append, driverLoop_length]
      split
      · next hlt => exact ih hlt
      · next hge =>
        obtain rfl : k = n := by omega
        rw [Nat.sub_self]
        rfl

lemma added_eq (rank : ℕ) {k : ℕ} (hk : k < c.nt) : c.added initial W rank k =
    (memberLoop (fun ens => W ens k) (initial rank) (c.members rank)).1 := by
  rw [added, driverLoop_added rank hk, Option.getD_some]

/-! ### The first member of a rank -/

/-- The member that a rank works on first. -/
def firstMember (c : NoiseRun) (rank : ℕ) : ℕ :=
  match c.mode with
  | .serial => 0
  | _ => rank

/-- The rounds of a parallel driver deal the members round robin. -/
lemma members_eq_hand (hmode : c.mode ≠ .serial) {rank : ℕ} (hr : rank < c.world.size) :
    c.members rank = hand c.world.nens c.world.size (roundsFor c.world.nens c.world.size) rank := by
  rw [members]
  split
  · next hserial => exact absurd hserial hmode
  · rw [c.world.ensList_eq id hr, c.world.distribution_eq hr, List.map_id]

lemma head?_members {rank : ℕ} (hr : rank < c.ranks) :
    (c.members rank).head? = some (c.firstMember rank) := by
  have hpos := c.world.size_pos
  have hle := c.world.size_le
  cases hmode : c.mode with
  | serial =>
      obtain ⟨n, hn⟩ := Nat.exists_eq_succ_of_ne_zero (hpos.trans_le hle).ne'
      simp only [members, firstMember, hmode, hn, List.range_succ_eq_map, List.head?_cons]
  | _ =>
      have hsize : rank < c.world.size := by simpa only [ranks, hmode] using hr
      have hrounds : 0 < roundsFor c.world.nens c.world.size := by
        rw [round_lt_roundsFor_iff hpos]
        omega
      rw [members_eq_hand (by simp [hmode]) hsize, head?_hand (by omega) hrounds, firstMember,
        hmode]

/-- With one member on every rank it is the only one. -/
lemma members_eq_singleton (hmode : c.mode ≠ .serial) (hone : c.world.size = c.world.nens)
    {rank : ℕ} (hr : rank < c.world.size) : c.members rank = [rank] := by
  have hrounds := c.world.rounds_eq_one hone
  rw [World.rounds_eq] at hrounds
  have hcard : ∀ i < 1, rank + i * c.world.size < c.world.nens := by
    intro i hi
    obtain rfl : i = 0 := by omega
    omega
  rw [members_eq_hand hmode hr, hrounds, hand_of_lt hcard]
  simp

/-! ### The law of the noise -/

/-- The law of an autoregressive process over the steps, from the initial noise on. -/
def IsAR1 (c : NoiseRun) (initial : ℕ → c.Noise) (W : ℕ → ℕ → c.Noise) : Prop :=
  ∀ rank < c.ranks, ∀ ens,
    (∀ q, (ens, q) ∈ c.added initial W rank 0 → q = mix (initial rank) (W ens 0)) ∧
    ∀ k, k + 1 < c.nt → ∀ q q', (ens, q) ∈ c.added initial W rank k →
      (ens, q') ∈ c.added initial W rank (k + 1) → q' = mix q (W ens (k + 1))

/-- What the drivers make of the noise: every member is given noise once in a step, the
first member of a rank mixes its draw with the initial noise, and so does every member
where it is the only one of its rank; and the noise of a step depends on no draws but
those for the members of the rank at this step. -/
structure Restarted (c : NoiseRun) (initial : ℕ → c.Noise) (W : ℕ → ℕ → c.Noise) : Prop where
  once : ∀ rank, ∀ k < c.nt, (c.added initial W rank k).map Prod.fst = c.members rank
  first : ∀ rank < c.ranks, ∀ k < c.nt, (c.added initial W rank k).head? =
    some (c.firstMember rank, mix (initial rank) (W (c.firstMember rank) k))
  only : c.mode ≠ .serial → c.world.size = c.world.nens → ∀ ens < c.world.nens, ∀ k < c.nt,
    c.added initial W ens k = [(ens, mix (initial ens) (W ens k))]
  depends : ∀ rank, ∀ k < c.nt, ∀ W' : ℕ → ℕ → c.Noise,
    (∀ ens ∈ c.members rank, W' ens k = W ens k) →
      c.added initial W' rank k = c.added initial W rank k

/-- **The noise restarts** at every step, in all three drivers. -/
theorem restarted (c : NoiseRun) (initial : ℕ → c.Noise) (W : ℕ → ℕ → c.Noise) :
    c.Restarted initial W where
  once rank k hk := by rw [added_eq rank hk, memberLoop_map_fst]
  first rank hr k hk := by
    rw [added_eq rank hk, memberLoop_head?, head?_members hr, Option.map_some]
  only hmode hone ens hens k hk := by
    rw [added_eq ens hk, members_eq_singleton hmode hone (hone ▸ hens)]
    rfl
  depends rank k hk W' h := by rw [added_eq rank hk, added_eq rank hk, memberLoop_congr h]

/-- Two steps of one member on one rank. -/
def twoSteps : NoiseRun where
  mode := .partialParallel
  world := ⟨1, 1, Nat.one_pos, le_rfl⟩
  nt := 2
  dt := 1
  sigQ := [1]
  numStateVars := 1
  vecInputs := ["h"]
  dim _ := 1

/-- Without draws an autoregressive process decays, and the noise of the drivers does not. -/
theorem not_isAR1_two_steps : ¬ twoSteps.IsAR1 (fun _ _ _ => 1) fun _ _ _ _ => 0 := by
  intro h
  have hadded : ∀ k < 2, twoSteps.added (fun _ _ _ => 1) (fun _ _ _ _ => 0) 0 k =
      [(0, mix (fun _ _ => 1) fun _ _ => 0)] := fun k hk => added_eq 0 hk
  have hstep := (h 0 Nat.one_pos 0).2 0 Nat.one_lt_two (mix (fun _ _ => 1) fun _ _ => 0)
    (mix (fun _ _ => 1) fun _ _ => 0)
  rw [hadded 0 Nat.two_pos, hadded 1 Nat.one_lt_two] at hstep
  have hblock := congrFun (congrFun (hstep (by simp) (by simp)) (0 : Fin 1)) (0 : Fin 1)
  have halpha : twoSteps.alpha = 499 / 500 := by
    norm_num [alpha, twoSteps]
  simp only [mix, halpha] at hblock
  norm_num at hblock

end NoiseRun

end Icesee
