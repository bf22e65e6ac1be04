import Icesee.Lib.Keyed
import Icesee.Obs.Synthetic

/-!
Which artifacts of an earlier run the full-parallel driver takes over.

A data directory holds the true and nurged states and the synthetic observations, each
with what it is an array of (`StateDataset`, `ObsFile`). `prepareStates` and
`prepareObs` are the decisions `need_true` and `syn_ok` of the driver and the generation
that follows. The states are guarded by their shape and by a fingerprint of the model
name, `nd`, `nt`, `Nens` and the seed, and a state whose generation is switched off stays
whatever the guard says; the observations are guarded by nothing but that the file is
there. `reuseSound_iff` says for which pairs of configurations the second run then works
on artifacts that describe it.
-/

namespace Icesee

/-! ### Configurations and artifacts -/

/-- The entries of `icesee_fingerprint`. -/
structure FingerprintParams where
  modelName : String
  nd : ℕ
  nt : ℕ
  nens : ℕ
  baseSeed : ℤ
  deriving DecidableEq, Repr

/-- What the driver and the two generators read: besides the fingerprinted entries the
variables `vec_inputs` with their sizes `var_nd`, the time grid `t`, the window of the
observations, and the switches. `observedRows km` are the rows of `true_state` that column
`km` of the observations is drawn from. -/
structure RunConfig extends FingerprintParams where
  vecInputs : List String
  varNd : Option (List ℕ)
  t : List ℚ
  length_t : t.length = nt + 1
  window : ObsWindow
  observedRows : ℕ → List ℕ
  restartEnabled : Bool
  forceFreshStart : Bool
  allowReuseWithoutFingerprint : Bool
  generateTrueState : Bool
  generateNurgedState : Bool
  generateSyntheticObs : Bool

/-- A dataset of states: its shape, the variables with the numbers of their rows, and the
times its columns belong to. -/
structure StateDataset where
  shape : ℕ × ℕ
  vecInputs : List String
  sizes : List ℕ
  t : List ℚ

/-- `true_nurged_states.h5`, with its attribute `icesee_fingerprint`. -/
structure TrueNurgedFile (D : Type) where
  trueState : Option StateDataset
  nurgedState : Option StateDataset
  fingerprint : Option D

/-- `synthetic_obs.h5`: the shape of `hu_obs`, the variables with the numbers of their rows,
the step that every column belongs to, and the states that are observed. -/
structure ObsFile where
  shape : ℕ × ℕ
  vecInputs : List String
  sizes : List ℕ
  steps : List ℕ
  truth : StateDataset

/-- The data directory. -/
structure DataDir (D : Type) where
  trueNurged : Option (TrueNurgedFile D)
  syntheticObs : Option ObsFile

/-- What a run raises before its first step. -/
inductive PrepareError where
  | fileNotFoundError
  | keyError
  | obs (e : ObsError)
  deriving DecidableEq, Repr

namespace RunConfig

variable (c : RunConfig)

/-- `tobserve`, the observed steps. -/
def tobserve : List ℕ := (generateObservationSchedule c.window c.t).2.1

/-- `m_obs`. -/
def mObs : ℕ := (generateObservationSchedule c.window c.t).2.2

/-- The rows of the variables, in the order of the state: `var_nd`, or equal parts. -/
def sizes : List ℕ :=
  match c.varNd with
  | some sizes => sizes
  | none => List.replicate c.vecInputs.length (c.nd / c.vecInputs.length)

/-- The states that the model generates. -/
def states : StateDataset where
  shape := (c.nd, c.nt + 1)
  vecInputs := c.vecInputs
  sizes := c.sizes
  t := c.t

/-- The file that `_create_synthetic_observations` writes, from these states. -/
def obsFile (truth : StateDataset) : ObsFile where
  shape := (c.nd, c.mObs)
  vecInputs := c.vecInputs
  sizes := c.sizes
  steps := c.tobserve
  truth := truth

/-- The columns of the steps in `range(nt)` can be drawn from these states: where rows are
read, the column of the step and the rows are there. -/
def Drawable (truth : StateDataset) : Prop :=
  ∀ p ∈ c.tobserve.zipIdx, p.1 < c.nt → ∀ i ∈ c.observedRows p.2,
    p.1 < truth.shape.2 ∧ i < truth.shape.1

instance (truth : StateDataset) : Decidable (c.Drawable truth) := by
  unfold Drawable
  infer_instance

/-- `reuse_allowed`. -/
def reuseAllowed : Bool := c.restartEnabled && !c.forceFreshStart

end RunConfig

/-! ### The decisions of the driver -/

section Driver

variable {D : Type} [DecidableEq D] (digest : FingerprintParams → D) (c : RunConfig)

/-- `h5_has_dataset_with_shape`. -/
def hasDatasetWithShape (d : Option StateDataset) (shape : ℕ × ℕ) : Bool :=
  d.any fun d => d.shape = shape

/-- `need_true`. -/
def needTrue (dir : DataDir D) : Bool :=
  match dir.trueNurged with
  | none => true
  | some f =>
      !(c.reuseAllowed && hasDatasetWithShape f.trueState (c.nd, c.nt + 1) &&
        hasDatasetWithShape f.nurgedState (c.nd, c.nt + 1) &&
        (f.fingerprint = some (digest c.toFingerprintParams) || c.allowReuseWithoutFingerprint))

/-- `generate_true_wrong_state`: each state is generated if it is asked for, in the file that
is there or in a new one. -/
def generateTrueWrongState (file : Option (TrueNurgedFile D)) :
    Except PrepareError (Option (TrueNurgedFile D)) :=
  if !c.generateTrueState && file.isNone then .error .fileNotFoundError
  else if !(c.generateTrueState || c.generateNurgedState) then .ok file
  else
    let f := file.getD ⟨none, none, none⟩
    .ok (some { f with
      trueState := if c.generateTrueState then some c.states else f.trueState
      nurgedState := if c.generateNurgedState then some c.states else f.nurgedState })

/-- `mark_h5_with_fingerprint`. -/
def markWithFingerprint (f : TrueNurgedFile D) : TrueNurgedFile D :=
  { f with fingerprint := some (digest c.toFingerprintParams) }

/-- The states: kept, or generated and marked with the fingerprint. -/
def prepareStates (dir : DataDir D) : Except PrepareError (DataDir D) :=
  if needTrue digest c dir then do
    let file ← generateTrueWrongState c dir.trueNurged
    return { dir with trueNurged := file.map (markWithFingerprint digest c) }
  else return dir

/-- `syn_ok`: the file is there. -/
def synOk (dir : DataDir D) : Bool := c.reuseAllowed && dir.syntheticObs.isSome

/-- `_create_synthetic_observations`, as far as it raises and in what it describes. -/
def createSyntheticObservations (file : Option (TrueNurgedFile D)) :
    Except PrepareError ObsFile := do
  let some f := file | throw .fileNotFoundError
  let some truth := f.trueState | throw .keyError
  (ObsSetup.createHuObs c.mObs).mapError .obs
  if ¬ c.Drawable truth then throw (.obs .indexError)
  return c.obsFile truth

/-- The observations: kept, or generated. -/
def prepareObs (dir : DataDir D) : Except PrepareError (DataDir D) :=
  if c.generateSyntheticObs && !synOk c dir then do
    let o ← createSyntheticObservations c dir.trueNurged
    return { dir with syntheticObs := some o }
  else return dir

/-- A run of the driver, as far as the artifacts go. -/
def prepare (dir : DataDir D) : Except PrepareError (DataDir D) := do
  prepareObs c (← prepareStates digest c dir)

/-- A new data directory. -/
def emptyDir : DataDir D := { trueNurged := none, syntheticObs := none }

/-! ### Soundness -/

/-- The states that are there are those that the configuration would generate. -/
def DescribesStates (dir : DataDir D) : Prop :=
  ∀ f ∈ dir.trueNurged, (∀ d ∈ f.trueState, d = c.states) ∧ ∀ d ∈ f.nurgedState, d = c.states

/-- So are the observations: their columns are those of the observed steps. -/
def DescribesObs (dir : DataDir D) : Prop :=
  ∀ o ∈ dir.syntheticObs, o = c.obsFile c.states ∧ o.shape.1 = c.nd ∧ c.mObs ≤ o.shape.2 ∧
    ∀ km < c.mObs, o.steps[km]? = c.tobserve[km]?

/-- What the second of two runs takes over from the first is what it would generate. -/
def ReuseSound (c₁ c₂ : RunConfig) : Prop :=
  ∀ dir₁, prepare digest c₁ emptyDir = .ok dir₁ →
    (∀ dir, prepareStates digest c₂ dir₁ = .ok dir → DescribesStates c₂ dir) ∧
    ∀ dir₂, prepare digest c₂ dir₁ = .ok dir₂ → DescribesObs c₂ dir₂

/-- The first run, in a new directory, comes to its first step. -/
structure RunConfig.Starts (c : RunConfig) : Prop where
  generateTrueState : c.generateTrueState
  observations : c.generateSyntheticObs → c.mObs ≠ 0 ∧ c.Drawable c.states

/-- The guard of the states lets the states of the first run pass. -/
structure PassesGuard (c₁ c₂ : RunConfig) : Prop where
  nurged : c₁.generateNurgedState
  nd : c₁.nd = c₂.nd
  nt : c₁.nt = c₂.nt
  fingerprint : digest c₁.toFingerprintParams = digest c₂.toFingerprintParams ∨
    c₂.allowReuseWithoutFingerprint

/-- The second run works on a state of the first: both pass the guard, or the second run does
not generate one that is there. -/
def TakesOver (c₁ c₂ : RunConfig) : Prop :=
  PassesGuard digest c₁ c₂ ∨ ¬ c₂.generateTrueState ∨
    (c₁.generateNurgedState ∧ ¬ c₂.generateNurgedState)

/-- The states of the two runs have the same rows and the same columns. -/
structure SameStates (c₁ c₂ : RunConfig) : Prop where
  nd : c₁.nd = c₂.nd
  vecInputs : c₁.vecInputs = c₂.vecInputs
  sizes : c₁.sizes = c₂.sizes
  t : c₁.t = c₂.t

/-- The observations of the first run are those of the second. -/
structure SameObservations (c₁ c₂ : RunConfig) : Prop extends SameStates c₁ c₂ where
  tobserve : c₁.tobserve = c₂.tobserve

variable {c} {c₁ c₂ : RunConfig}

lemma states_eq_iff : c₁.states = c₂.states ↔ SameStates c₁ c₂ := by
  constructor
  · intro h
    exact ⟨congrArg (fun d => d.shape.1) h, congrArg StateDataset.vecInputs h,
      congrArg StateDataset.sizes h, congrArg StateDataset.t h⟩
  · intro h
    have hnt : c₁.nt = c₂.nt :=
      Nat.succ_injective (c₁.length_t.symm.trans ((congrArg _ h.t).trans c₂.length_t))
    rw [RunConfig.states, RunConfig.states, h.nd, hnt, h.vecInputs, h.sizes, h.t]

/-- Two configurations generate the same observations file. -/
lemma obsFile_eq_iff : c₁.obsFile c₁.states = c₂.obsFile c₂.states ↔ SameObservations c₁ c₂ := by
  constructor
  · intro h
    exact ⟨states_eq_iff.mp (congrArg ObsFile.truth h), congrArg ObsFile.steps h⟩
  · intro h
    have hm : c₁.mObs = c₂.mObs := by
      rw [RunConfig.mObs, RunConfig.mObs, generateObservationSchedule_length,
        generateObservationSchedule_length]
      exact congrArg List.length h.tobserve
    rw [states_eq_iff.mpr h.toSameStates, RunConfig.obsFile, RunConfig.obsFile, h.nd, h.vecInputs,
      h.sizes, hm, h.tobserve]

omit [DecidableEq D] in
lemma describesObs_iff {dir : DataDir D} {o : ObsFile} (h : dir.syntheticObs = some o) :
    DescribesObs c dir ↔ o = c.obsFile c.states := by
  refine ⟨fun hd => (hd o h).1, fun heq o' ho' => ?_⟩
  obtain rfl : o = o' := Option.some.inj (h.symm.trans ho')
  rw [heq]
  exact ⟨rfl, rfl, le_rfl, fun _ _ => rfl⟩

omit [DecidableEq D] in
lemma describesObs_of_none {dir : DataDir D} (h : dir.syntheticObs = none) :
    DescribesObs c dir := by
  intro o ho
  rw [h] at ho
  exact absurd ho (by simp)

/-! ### The first run -/

/-- `true_nurged_states.h5` after a first run. -/
def firstStates (c : RunConfig) : TrueNurgedFile D where
  trueState := some c.states
  nurgedState := if c.generateNurgedState then some c.states else none
  fingerprint := some (digest c.toFingerprintParams)

omit [DecidableEq D] in
/-- What the generation of observations goes through with. -/
lemma createSyntheticObservations_eq_ok {f : TrueNurgedFile D} {truth : StateDataset}
    (htruth : f.trueState = some truth) {o : ObsFile} :
    createSyntheticObservations c (some f) = .ok o ↔
      (c.mObs ≠ 0 ∧ c.Drawable truth) ∧ o = c.obsFile truth := by
  have hcall : createSyntheticObservations c (some f) = do
      (ObsSetup.createHuObs c.mObs).mapError .obs
      if ¬ c.Drawable truth then throw (.obs .indexError)
      return c.obsFile truth := by
    rw [createSyntheticObservations]
    simp only [htruth]
  rw [hcall, ObsSetup.createHuObs]
  by_cases hm : c.mObs = 0
  · rw [if_pos hm]
    exact iff_of_false (fun h => by cases h) fun h => h.1.1 hm
  · rw [if_neg hm]
    by_cases hd : c.Drawable truth
    · rw [if_neg (not_not.mpr hd)]
      exact ⟨fun h => ⟨⟨hm, hd⟩, (Except.ok.inj h).symm⟩, fun h => congrArg _ h.2.symm⟩
    · rw [if_pos hd]
      exact iff_of_false (fun h => by cases h) fun h => hd h.1.2

/-- The directory after a first run: its own states, and its own observations unless they
are switched off. -/
lemma prepare_emptyDir {dir : DataDir D} : prepare digest c emptyDir = .ok dir ↔
    c.Starts ∧ dir = { trueNurged := some (firstStates digest c)
                       syntheticObs := if c.generateSyntheticObs then some (c.obsFile c.states)
                         else none } := by
  cases htrue : c.generateTrueState
  · -- there is no file, and none may be made
    have hraise : prepare digest c (emptyDir : DataDir D) = .error .fileNotFoundError := by
      simp [prepare, prepareStates, needTrue, emptyDir, generateTrueWrongState, htrue, bind,
        Except.bind]
    rw [hraise]
    exact iff_of_false nofun fun h => by simpa [htrue] using h.1.generateTrueState
  have hstates : prepareStates digest c (emptyDir : DataDir D) =
      .ok { trueNurged := some (firstStates digest c), syntheticObs := none } := by
    simp [prepareStates, needTrue, emptyDir, generateTrueWrongState, htrue, markWithFingerprint,
      firstStates, bind, Except.bind, pure, Except.pure]
  rw [prepare, hstates]
  show prepareObs c _ = _ ↔ _
  rw [prepareObs]
  cases hgen : c.generateSyntheticObs
  · exact ⟨fun h => ⟨⟨htrue, by simp [hgen]⟩, (Except.ok.inj h).symm⟩,
      fun h => congrArg Except.ok h.2.symm⟩
  · have hcreate := fun o => createSyntheticObservations_eq_ok (c := c) (o := o)
      (f := firstStates digest c) rfl
    have hsynOk : synOk c ⟨some (firstStates digest c), none⟩ = false := Bool.and_false _
    rw [hsynOk, Bool.not_false, Bool.and_true, if_pos rfl, Keyed.bind_eq_ok]
    constructor
    · rintro ⟨o, ho, hdir⟩
      obtain ⟨hok, rfl⟩ := (hcreate o).mp ho
      exact ⟨⟨htrue, fun _ => hok⟩, (Except.ok.inj hdir).symm⟩
    · rintro ⟨hstarts, rfl⟩
      exact ⟨_, (hcreate _).mpr ⟨hstarts.observations hgen, rfl⟩, rfl⟩

/-! ### The second run -/

/-- The second run keeps the states exactly if they pass the guard. -/
lemma needTrue_iff (hr : c₂.reuseAllowed = true) {o : Option ObsFile} :
    needTrue digest c₂ ⟨some (firstStates digest c₁), o⟩ = false ↔ PassesGuard digest c₁ c₂ := by
  have hshape : c₁.states.shape = (c₂.nd, c₂.nt + 1) ↔ c₁.nd = c₂.nd ∧ c₁.nt = c₂.nt := by
    simp [RunConfig.states]
  cases hn : c₁.generateNurgedState
  · refine iff_of_false ?_ fun h => by simpa [hn] using h.nurged
    simp [needTrue, hr, firstStates, hn, hasDatasetWithShape]
  · simp only [needTrue, hr, firstStates, hn, if_true, hasDatasetWithShape, Option.any_some,
      Bool.true_and, Bool.not_eq_eq_eq_not, Bool.not_false, Bool.and_eq_true, decide_eq_true_eq,
      Bool.or_eq_true, Option.some.injEq, hshape]
    exact ⟨fun h => ⟨hn, h.1.1.1, h.1.1.2, h.2⟩, fun h => ⟨⟨⟨h.nd, h.nt⟩, h.nd, h.nt⟩,
      h.fingerprint⟩⟩

/-- The states of the second run: those of the first where they are taken over. -/
noncomputable def secondStates (c₁ c₂ : RunConfig) : TrueNurgedFile D :=
  open Classical in
  if PassesGuard digest c₁ c₂ then firstStates digest c₁
  else
    { trueState := some (if c₂.generateTrueState then c₂.states else c₁.states)
      nurgedState := if c₂.generateNurgedState then some c₂.states
        else (firstStates digest c₁).nurgedState
      fingerprint := some (digest c₂.toFingerprintParams) }

lemma prepareStates_eq (hr : c₂.reuseAllowed = true) {o : Option ObsFile} :
    prepareStates digest c₂ ⟨some (firstStates digest c₁), o⟩ =
      .ok ⟨some (secondStates digest c₁ c₂), o⟩ := by
  rw [prepareStates, secondStates]
  by_cases hg : PassesGuard digest c₁ c₂
  · rw [(needTrue_iff digest hr).mpr hg, if_neg Bool.false_ne_true, if_pos hg]
    rfl
  · have hneed := eq_true_of_ne_false ((needTrue_iff digest hr (o := o)).not.mpr hg)
    rw [if_pos hneed, if_neg hg, generateTrueWrongState]
    cases htrue : c₂.generateTrueState <;> cases hnurged : c₂.generateNurgedState <;>
      simp [bind, Except.bind, pure, Except.pure, markWithFingerprint, firstStates]

omit [DecidableEq D] in
/-- The true state of the second run. -/
lemma trueState_secondStates : (secondStates digest c₁ c₂).trueState = some c₁.states ∨
    (secondStates digest c₁ c₂).trueState = some c₂.states := by
  rw [secondStates]
  by_cases hg : PassesGuard digest c₁ c₂
  · rw [if_pos hg]
    exact .inl rfl
  · rw [if_neg hg]
    cases htrue : c₂.generateTrueState
    exacts [.inl rfl, .inr rfl]

omit [DecidableEq D] in
/-- The states of the second run describe it if those that are taken over do. -/
lemma describesStates_iff {o : Option ObsFile} :
    DescribesStates c₂ ⟨some (secondStates digest c₁ c₂), o⟩ ↔
      (TakesOver digest c₁ c₂ → SameStates c₁ c₂) := by
  have hfile : DescribesStates c₂ ⟨some (secondStates digest c₁ c₂), o⟩ ↔
      (∀ d ∈ (secondStates digest c₁ c₂).trueState, d = c₂.states) ∧
        ∀ d ∈ (secondStates digest c₁ c₂).nurgedState, d = c₂.states := by
    simp [DescribesStates]
  rw [hfile, ← states_eq_iff, TakesOver, secondStates]
  by_cases hg : PassesGuard digest c₁ c₂
  · simp only [hg, if_true, true_or, true_imp_iff, firstStates, Option.mem_def, Option.some.injEq,
      forall_eq']
    refine and_iff_left_of_imp fun h d hd => ?_
    split at hd
    · rw [← Option.some.inj hd, h]
    · cases hd
  · cases htrue : c₂.generateTrueState <;> cases hnurged : c₂.generateNurgedState <;>
      cases hnurged₁ : c₁.generateNurgedState <;> simp [hg, firstStates, hnurged₁]

/-- The observations after the second run's decision: those of the first run stay whenever
there are any, and new ones are drawn from the true state that is there. -/
lemma describesObs_prepare_iff (hr : c₂.reuseAllowed = true)
    (hstates : TakesOver digest c₁ c₂ → SameStates c₁ c₂) :
    (∀ dir₂, prepare digest c₂ ⟨some (firstStates digest c₁),
        if c₁.generateSyntheticObs then some (c₁.obsFile c₁.states) else none⟩ = .ok dir₂ →
      DescribesObs c₂ dir₂) ↔
    (c₁.generateSyntheticObs → SameObservations c₁ c₂) := by
  rw [prepare, prepareStates_eq digest hr]
  show (∀ dir₂, prepareObs c₂ _ = _ → _) ↔ _
  cases hgen : c₁.generateSyntheticObs
  · -- nothing to take over
    refine iff_of_true (fun dir₂ h => ?_) (by simp)
    rw [if_neg Bool.false_ne_true, prepareObs] at h
    split at h
    · obtain ⟨o, ho, hdir⟩ := Keyed.bind_eq_ok.mp h
      obtain rfl := Except.ok.inj hdir
      have htruth : (secondStates digest c₁ c₂).trueState = some c₂.states := by
        have hfile := (describesStates_iff digest (o := none)).mpr hstates
        obtain ⟨truth, htruth⟩ : ∃ truth, (secondStates digest c₁ c₂).trueState = some truth := by
          rcases trueState_secondStates digest with h | h <;> exact ⟨_, h⟩
        rw [htruth, (hfile _ rfl).1 truth htruth]
      exact (describesObs_iff rfl).mpr ((createSyntheticObservations_eq_ok htruth).mp ho).2
    · obtain rfl := Except.ok.inj h
      exact describesObs_of_none rfl
  · have hok : synOk c₂ ⟨some (secondStates digest c₁ c₂), some (c₁.obsFile c₁.states)⟩ = true := by
      rw [synOk, hr]
      rfl
    have hiff : DescribesObs c₂ ⟨some (secondStates digest c₁ c₂),
        some (c₁.obsFile c₁.states)⟩ ↔ SameObservations c₁ c₂ :=
      (describesObs_iff rfl).trans obsFile_eq_iff
    rw [if_pos rfl, prepareObs, hok, Bool.not_true, Bool.and_false, if_neg Bool.false_ne_true]
    refine ⟨fun h _ => hiff.mp (h _ rfl), fun h dir₂ hdir => ?_⟩
    rw [← Except.ok.inj hdir]
    exact hiff.mpr (h rfl)

end Driver

/-- One variable at one time, with an observation at it. -/
def oneTimeConfig (key : String) : RunConfig where
  modelName := "flowline"
  nd := 1
  nt := 0
  nens := 1
  baseSeed := 0
  vecInputs := [key]
  varNd := none
  t := [0]
  length_t := rfl
  window := ⟨1, 0, 0⟩
  observedRows _ := [0]
  restartEnabled := true
  forceFreshStart := false
  allowReuseWithoutFingerprint := false
  generateTrueState := true
  generateNurgedState := true
  generateSyntheticObs := true

lemma mObs_oneTimeConfig (key : String) : (oneTimeConfig key).mObs ≠ 0 := by
  have hmatch : matchIndex [0] 1 0 = some 0 := by
    norm_num [matchIndex, argmin]
  have hpos : ¬ (1 : ℚ) ≤ 0 := by norm_num
  simp [RunConfig.mObs, generateObservationSchedule, oneTimeConfig, hmatch, hpos]

lemma starts_oneTimeConfig (key : String) : (oneTimeConfig key).Starts where
  generateTrueState := rfl
  observations _ := ⟨mObs_oneTimeConfig key, fun p _ hp => absurd hp (Nat.not_lt_zero p.1)⟩

end Icesee
