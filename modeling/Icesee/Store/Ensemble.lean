import Icesee.Store.Columns

/-!
The handler, an ensemble at a time.

`readMembers` and `writeMembers` are the loops over members around the column
operations, `computeForecastMean` adds the column of the means, and
`computeAnalysisUpdate` replaces the ensemble of a time. `Holds cfg h t ens` says that
the step file of `t` holds the columns `ens`, entry by entry; the operations are
specified by what holds after them and by which entries stay.
-/

namespace Icesee.Handler

variable {β : Type} (cfg : IOConfig)

/-- A column of `nd` rows; the rows past the end are `0`. -/
def trim [Zero β] (col : ℕ → β) : ℕ → β := fun i => if i < cfg.nd then col i else 0

/-- The step file of time `t` holds the columns of `ens`. -/
def Holds (h : Handler β) (t : ℕ) (ens : ℕ → ℕ → β) : Prop :=
  ∀ i < cfg.nd, ∀ j < cfg.nens, cell cfg h t i j = some (ens j i)

/-! ### Loops over members -/

/-- Read the columns of some members. -/
def readMembers [Zero β] (rows : Rows) (t : ℕ) (ids : List ℕ) (h : Handler β) :
    Option (Handler β × List (ℕ → β)) :=
  ids.foldlM (fun s j => do
    let (h, col) ← readColumn cfg rows t j s.1
    return (h, s.2 ++ [col])) (h, [])

/-- Write the columns of some members. -/
def writeMembers (rows : Rows) (t : ℕ) (cols : List (ℕ × (ℕ → β))) (h : Handler β) :
    Option (Handler β) :=
  cols.foldlM (fun h p => writeColumn cfg rows t p.2 p.1 h) h

variable {cfg} {b t : ℕ} {h : Handler β}

/-- Reading members of the open batch changes nothing. -/
lemma readMembers_spec [Zero β] (rows : Rows) (ho : IsOpen cfg (cfg.batchStart t) h)
    (ht : t < cfg.nt) {ids : List ℕ} (hids : ∀ j ∈ ids, j < cfg.nens) (acc : List (ℕ → β)) :
    ids.foldlM (fun s j => do
      let (h, col) ← readColumn cfg rows t j s.1
      return (h, s.2 ++ [col])) (h, acc) =
    some (h, acc ++ ids.map fun j => trim cfg fun i => (cell cfg h t i j).getD 0) := by
  induction ids generalizing acc with
  | nil => simp
  | cons j ids ih =>
      rw [List.foldlM_cons, readColumn_spec rows ho ht (hids j (by simp)),
        ensureBatch_of_eq ho rfl]
      rw [List.map_cons, List.append_cons]
      exact ih (fun j hj => hids j (by simp [hj])) _

/-- Where the ensemble is known, so are the columns that are read. -/
lemma readMembers_holds [Zero β] (rows : Rows) (ho : IsOpen cfg (cfg.batchStart t) h)
    (ht : t < cfg.nt) {ids : List ℕ} (hids : ∀ j ∈ ids, j < cfg.nens) {ens : ℕ → ℕ → β}
    (hens : ∀ i < cfg.nd, ∀ j ∈ ids, cell cfg h t i j = some (ens j i)) :
    readMembers cfg rows t ids h = some (h, ids.map fun j => trim cfg (ens j)) := by
  rw [readMembers, readMembers_spec rows ho ht hids, List.nil_append]
  congr 2
  refine List.map_congr_left fun j hj => ?_
  funext i
  by_cases hi : i < cfg.nd
  · simp [trim, hi, hens i hi j hj]
  · simp [trim, hi]

/-- A column after other columns. -/
lemma ite_mem_cons {t' i j a : ℕ} {ids : List ℕ} {ens : ℕ → ℕ → β} {x : Option β} :
    (if t' = t ∧ i < cfg.nd ∧ j ∈ ids then some (ens j i)
      else if t' = t ∧ i < cfg.nd ∧ j = a then some (ens a i) else x) =
    if t' = t ∧ i < cfg.nd ∧ j ∈ a :: ids then some (ens j i) else x := by
  by_cases hti : t' = t ∧ i < cfg.nd
  · obtain ⟨rfl, hi⟩ := hti
    by_cases hj : j = a
    · subst hj; simp [hi]
    · simp [hi, hj]
  · have hno : ∀ p : Prop, ¬ (t' = t ∧ i < cfg.nd ∧ p) := fun p h => hti ⟨h.1, h.2.1⟩
    rw [if_neg (hno _), if_neg (hno _), if_neg (hno _)]

/-- Writing members of the open batch, one column each. -/
lemma writeMembers_open (rows : Rows) (ho : IsOpen cfg (cfg.batchStart t) h) (ht : t < cfg.nt)
    {ids : List ℕ} (hids : ∀ j ∈ ids, j < cfg.nens) (ens : ℕ → ℕ → β) :
    ∃ h', writeMembers cfg rows t (ids.map fun j => (j, ens j)) h = some h' ∧
      IsOpen cfg (cfg.batchStart t) h' ∧
      (∀ t' i j, cell cfg h' t' i j =
        if t' = t ∧ i < cfg.nd ∧ j ∈ ids then some (ens j i) else cell cfg h t' i j) ∧
      ∀ n, (∀ s, cfg.stepFile s ≠ n) → h'.dir.lookup n = h.dir.lookup n := by
  induction ids generalizing h with
  | nil => exact ⟨h, rfl, ho, by simp, fun _ _ => rfl⟩
  | cons a ids ih =>
      obtain ⟨h₁, hwrite, ho₁, hcell₁, hframe₁⟩ := writeColumn_spec rows ho ht
        (hids a (by simp)) (ens a)
      obtain ⟨h₂, hrest, ho₂, hcell₂, hframe₂⟩ := ih ho₁ fun j hj => hids j (by simp [hj])
      refine ⟨h₂, ?_, ho₂, fun t' i j => ?_, fun n hn => by rw [hframe₂ n hn, hframe₁ n hn]⟩
      · rw [List.map_cons, writeMembers, List.foldlM_cons, hwrite]
        exact hrest
      · rw [hcell₂, hcell₁, ensureBatch_of_eq ho rfl, ite_mem_cons]

/-- **Writing members**: the columns of the members are replaced, and apart from the
switch to the batch of `t` nothing else changes. -/
theorem writeMembers_spec (rows : Rows) (ho : IsOpen cfg b h) (ht : t < cfg.nt) {ids : List ℕ}
    (hids : ∀ j ∈ ids, j < cfg.nens) (hne : ids ≠ []) (ens : ℕ → ℕ → β) :
    ∃ h', writeMembers cfg rows t (ids.map fun j => (j, ens j)) h = some h' ∧
      IsOpen cfg (cfg.batchStart t) h' ∧
      (∀ t' i j, cell cfg h' t' i j =
        if t' = t ∧ i < cfg.nd ∧ j ∈ ids then some (ens j i)
        else cell cfg (ensureBatch cfg t h) t' i j) ∧
      ∀ n, (∀ s, cfg.stepFile s ≠ n) → h'.dir.lookup n = h.dir.lookup n := by
  cases ids with
  | nil => exact absurd rfl hne
  | cons a ids =>
      obtain ⟨h₁, hwrite, ho₁, hcell₁, hframe₁⟩ := writeColumn_spec rows ho ht
        (hids a (by simp)) (ens a)
      have hids' : ∀ j ∈ ids, j < cfg.nens := fun j hj => hids j (by simp [hj])
      obtain ⟨h₂, hrest, ho₂, hcell₂, hframe₂⟩ := writeMembers_open rows ho₁ ht hids' ens
      refine ⟨h₂, ?_, ho₂, fun t' i j => ?_, fun n hn => by rw [hframe₂ n hn, hframe₁ n hn]⟩
      · rw [List.map_cons, writeMembers, List.foldlM_cons, hwrite]
        exact hrest
      · rw [hcell₂, hcell₁, ite_mem_cons]

/-! ### The column of the means -/

variable (cfg)

/-- All rows of all members of `self.datasets[t - self.current_batch_start]`; there is no
`_ensure_batch` here. -/
def openColumns [Zero β] (t : ℕ) (h : Handler β) : Option (List (ℕ → β)) := do
  let name ← h.dataset (t - h.currentBatchStart)
  let f ← h.dir.lookup name
  return (List.range cfg.nens).map fun j => trim cfg fun i => f.entry i j

/-- `compute_forecast_mean_chunked_v2`: column `t` of `{prefix}_mean.h5`, which is created
if it is not there. -/
def computeForecastMean [Zero β] (mean : List (ℕ → β) → ℕ → β) (t : ℕ) (h : Handler β) :
    Option (Handler β) := do
  let cols ← openColumns cfg t h
  let f := (h.dir.lookup (meanName cfg.filePrefix)).getD (.blank .mean cfg.nd cfg.nt)
  return { h with
    dir := h.dir.insert (meanName cfg.filePrefix) (f.setRows 0 cfg.nd t (mean cols)) }

/-- `f['mean'][:, t] = col`, in a file that is created if it is not there. -/
def writeMean (t : ℕ) (col : ℕ → β) (h : Handler β) : Handler β :=
  let f := (h.dir.lookup (meanName cfg.filePrefix)).getD (.blank .mean cfg.nd cfg.nt)
  { h with dir := h.dir.insert (meanName cfg.filePrefix) (f.setRows 0 cfg.nd t col) }

/-- `f['mean'][:, t]`. -/
def readMean [Zero β] (t : ℕ) (h : Handler β) : Option (ℕ → β) := do
  let f ← h.dir.lookup (meanName cfg.filePrefix)
  return trim cfg fun i => f.entry i t

/-- `compute_analysis_update`, with the mean column of the analysis off: the ensemble of
the target slice is replaced by what `update` computes from it and from the means. -/
def computeAnalysisUpdate [Zero β] (update : (ℕ → β) → List (ℕ → β) → ℕ → ℕ → β) (k : ℕ)
    (h : Handler β) : Option (Handler β) := do
  let t := cfg.targetSlice k
  let h := ensureBatch cfg t h
  let means ← readMean cfg t h
  let (h, states) ← readMembers cfg .world t (List.range cfg.nens) h
  writeMembers cfg .world t ((List.range cfg.nens).map fun j => (j, update means states j)) h

/-- `compute_analysis_update` with the mean column of the analysis on: `mean` is computed from
the states that were read, and goes into the same slice. -/
def computeAnalysisUpdateMean [Zero β] (update : (ℕ → β) → List (ℕ → β) → ℕ → ℕ → β)
    (mean : (ℕ → β) → List (ℕ → β) → ℕ → β) (k : ℕ) (h : Handler β) : Option (Handler β) := do
  let t := cfg.targetSlice k
  let h := ensureBatch cfg t h
  let means ← readMean cfg t h
  let (h, states) ← readMembers cfg .world t (List.range cfg.nens) h
  let h ← writeMembers cfg .world t
    ((List.range cfg.nens).map fun j => (j, update means states j)) h
  return writeMean cfg t (mean means states) h

variable {cfg}

/-- A column of means is what is read back, and the step files stay. -/
lemma writeMean_spec [Zero β] (ho : IsOpen cfg b h) (col : ℕ → β) :
    IsOpen cfg b (writeMean cfg t col h) ∧
      (∀ t' i j, cell cfg (writeMean cfg t col h) t' i j = cell cfg h t' i j) ∧
      readMean cfg t (writeMean cfg t col h) = some (trim cfg col) := by
  have hne : ∀ s, cfg.stepFile s ≠ meanName cfg.filePrefix := fun _ => stepName_ne_meanName _ _ _
  refine ⟨⟨ho.start, ho.datasets, fun s hs hs' => ?_⟩, fun t' i j => ?_, ?_⟩
  · simpa [writeMean, AList.lookup_insert_ne (hne s)] using ho.present s hs hs'
  · simp [writeMean, cell, AList.lookup_insert_ne (hne t')]
  · simp only [writeMean, readMean, AList.lookup_insert, Option.bind_eq_bind, Option.bind_some,
      Option.pure_def, Option.some.injEq]
    funext i
    by_cases hi : i < cfg.nd
    · simp [trim, hi, H5File.entry]
    · simp [trim, hi]

/-- The mean of an ensemble that is held, and nothing else in the step files. -/
theorem computeForecastMean_spec [Zero β] (mean : List (ℕ → β) → ℕ → β)
    (ho : IsOpen cfg (cfg.batchStart t) h) (ht : t < cfg.nt) {ens : ℕ → ℕ → β}
    (hens : Holds cfg h t ens) :
    ∃ h', computeForecastMean cfg mean t h = some h' ∧ IsOpen cfg (cfg.batchStart t) h' ∧
      (∀ t' i j, cell cfg h' t' i j = cell cfg h t' i j) ∧
      readMean cfg t h' =
        some (trim cfg (mean ((List.range cfg.nens).map fun j => trim cfg (ens j)))) := by
  obtain ⟨hle, hlt⟩ := (mem_batch_iff ht).mpr rfl
  obtain ⟨f, hf, -⟩ := ho.present t hle hlt
  have hcols : openColumns cfg t h =
      some ((List.range cfg.nens).map fun j => trim cfg (ens j)) := by
    simp only [openColumns, dataset_eq ho ht, hf, Option.bind_eq_bind, Option.bind_some,
      Option.pure_def, Option.some.injEq]
    refine List.map_congr_left fun j hj => ?_
    funext i
    by_cases hi : i < cfg.nd
    · have hcell := hens i hi j (List.mem_range.mp hj)
      rw [cell, hf, Option.bind_some] at hcell
      simp [trim, hi, H5File.entry, hcell]
    · simp [trim, hi]
  obtain ⟨ho', hcell, hread⟩ := writeMean_spec (t := t) ho
    (mean ((List.range cfg.nens).map fun j => trim cfg (ens j)))
  exact ⟨_, by rw [computeForecastMean, hcols]; rfl, ho', hcell, hread⟩

/-- **The analysis update** replaces the ensemble of the target slice, and nothing else. -/
theorem computeAnalysisUpdate_spec [Zero β] (update : (ℕ → β) → List (ℕ → β) → ℕ → ℕ → β)
    {k : ℕ} (ho : IsOpen cfg (cfg.batchStart (cfg.targetSlice k)) h)
    (ht : cfg.targetSlice k < cfg.nt) {ens : ℕ → ℕ → β}
    (hens : Holds cfg h (cfg.targetSlice k) ens) {means : ℕ → β}
    (hmeans : readMean cfg (cfg.targetSlice k) h = some means) :
    ∃ h', computeAnalysisUpdate cfg update k h = some h' ∧
      IsOpen cfg (cfg.batchStart (cfg.targetSlice k)) h' ∧
      ∀ t' i j, cell cfg h' t' i j =
        if t' = cfg.targetSlice k ∧ i < cfg.nd ∧ j ∈ List.range cfg.nens then
          some (update means ((List.range cfg.nens).map fun j => trim cfg (ens j)) j i)
        else cell cfg h t' i j := by
  have hids : ∀ j ∈ List.range cfg.nens, j < cfg.nens := fun j hj => List.mem_range.mp hj
  have hread := readMembers_holds .world ho ht hids
    fun i hi j hj => hens i hi j (List.mem_range.mp hj)
  obtain ⟨h', hwrite, ho', hcell, -⟩ := writeMembers_open .world ho ht hids
    (update means ((List.range cfg.nens).map fun j => trim cfg (ens j)))
  refine ⟨h', ?_, ho', hcell⟩
  simp only [computeAnalysisUpdate, ensureBatch_of_eq ho rfl, hmeans, hread, hwrite,
    Option.bind_eq_bind, Option.bind_some]

/-- With the mean column on, the update also leaves the mean in the target slice. -/
theorem computeAnalysisUpdateMean_spec [Zero β]
    (update : (ℕ → β) → List (ℕ → β) → ℕ → ℕ → β) (mean : (ℕ → β) → List (ℕ → β) → ℕ → β) {k : ℕ}
    (ho : IsOpen cfg (cfg.batchStart (cfg.targetSlice k)) h)
    (ht : cfg.targetSlice k < cfg.nt) {ens : ℕ → ℕ → β}
    (hens : Holds cfg h (cfg.targetSlice k) ens) {means : ℕ → β}
    (hmeans : readMean cfg (cfg.targetSlice k) h = some means) :
    ∃ h', computeAnalysisUpdateMean cfg update mean k h = some h' ∧
      Holds cfg h' (cfg.targetSlice k)
        (update means ((List.range cfg.nens).map fun j => trim cfg (ens j))) ∧
      readMean cfg (cfg.targetSlice k) h' =
        some (trim cfg (mean means ((List.range cfg.nens).map fun j => trim cfg (ens j)))) := by
  have hids : ∀ j ∈ List.range cfg.nens, j < cfg.nens := fun j hj => List.mem_range.mp hj
  have hread := readMembers_holds .world ho ht hids
    fun i hi j hj => hens i hi j (List.mem_range.mp hj)
  obtain ⟨h₁, hwrite, ho₁, hcell₁, -⟩ := writeMembers_open .world ho ht hids
    (update means ((List.range cfg.nens).map fun j => trim cfg (ens j)))
  obtain ⟨-, hcell₂, hmean₂⟩ := writeMean_spec (t := cfg.targetSlice k) ho₁
    (mean means ((List.range cfg.nens).map fun j => trim cfg (ens j)))
  refine ⟨_, ?_, fun i hi j hj => ?_, hmean₂⟩
  · simp only [computeAnalysisUpdateMean, ensureBatch_of_eq ho rfl, hmeans, hread, hwrite,
      Option.bind_eq_bind, Option.bind_some]
    rfl
  · rw [hcell₂, hcell₁, if_pos ⟨rfl, hi, List.mem_range.mpr hj⟩]

end Icesee.Handler
