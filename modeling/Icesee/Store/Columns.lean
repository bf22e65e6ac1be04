import Icesee.Lib.Machine
import Icesee.Store.Handler

/-!
What the calls of the handler do to the entries of the store.

`cell cfg h t i j` is what entry `(i, j)` of the step file of time `t` holds, and
`IsOpen cfg b h` says that the batch that starts at `b` is open: its files exist
with the right shape and are the datasets of the handler. Then

* `init_isOpen`, `ensureBatch_isOpen`: the handler always has an open batch;
* `cell_ensureBatch`: switching to another batch blanks that batch, and only it;
* `writeColumn_spec`, `readColumn_spec`: the windows of all ranks together are the
  whole column, whichever of the two row partitions is used.
-/

namespace Icesee.Handler

variable {β : Type} (cfg : IOConfig)

/-- What entry `(i, j)` of the step file of time `t` holds. -/
def cell (h : Handler β) (t i j : ℕ) : Option β :=
  (h.dir.lookup (cfg.stepFile t)).bind fun f => f.written i j

/-- The batch that starts at `b` is open. -/
structure IsOpen (b : ℕ) (h : Handler β) : Prop where
  start : h.currentBatchStart = b
  datasets : h.datasets =
    (List.range' b (min cfg.batchSize (cfg.nt - b))).map cfg.stepFile
  present : ∀ t, b ≤ t → t < b + min cfg.batchSize (cfg.nt - b) →
    ∃ f, h.dir.lookup (cfg.stepFile t) = some f ∧ f.shape = (cfg.nd, cfg.nens)

variable {cfg}

/-! ### The constructor -/

/-- A step file is among the files that the constructor removes. -/
lemma globMatch_stepFile (t : ℕ) :
    Decimal.globMatch (cfg.filePrefix ++ "_".toList) ".h5".toList (cfg.stepFile t) := by
  rw [IOConfig.stepFile, stepName]
  split
  · have h := Decimal.globMatch_append (cfg.filePrefix ++ "_".toList)
      ("ens_".toList ++ Decimal.padded 4 t) ".h5".toList
    simpa [serialName, List.append_assoc] using h
  · exact Decimal.globMatch_append _ _ _

/-- The constructor removes every step file. -/
lemma cell_removeOld (dir : Directory β) (t i j : ℕ) :
    cell cfg (removeOld cfg dir) t i j = none := by
  rw [cell, removeOld, Directory.lookup_removeGlob, if_pos (globMatch_stepFile t)]
  rfl

/-! ### Creating a batch -/

/-- Both creation loops, under the names of the mode. -/
lemma createBatch_eq (tStart : ℕ) (h : Handler β) :
    createBatch cfg tStart h =
      createFiles cfg cfg.stepFile tStart (min cfg.batchSize (cfg.nt - tStart)) h := by
  have hname : ∀ b, cfg.serialFileCreation = b → cfg.stepFile = stepName b cfg.filePrefix := by
    rintro b rfl
    rfl
  cases hs : cfg.serialFileCreation
  · simp only [createBatch, hs, hname _ hs, createBatchParallel]
    rfl
  · simp only [createBatch, hs, hname _ hs, createBatchSerial, if_true]
    split
    · next h0 => simp [createFiles, h0]
    · rfl

lemma lookup_foldl_insert (name : ℕ → FileName) (f : H5File β) (ts : List ℕ)
    (dir : Directory β) (n : FileName) :
    (ts.foldl (fun d t => d.insert (name t) f) dir).lookup n =
      if n ∈ ts.map name then some f else dir.lookup n := by
  induction ts generalizing dir with
  | nil => simp
  | cons t ts ih =>
      rw [List.foldl_cons, ih]
      by_cases hn : n = name t
      · subst hn; simp [AList.lookup_insert]
      · simp [AList.lookup_insert_ne hn, hn]

/-- The directory after a batch is created: its files are blank. -/
lemma lookup_createBatch (b : ℕ) (h : Handler β) (n : FileName) :
    (createBatch cfg b h).dir.lookup n =
      if n ∈ (List.range' b (min cfg.batchSize (cfg.nt - b))).map cfg.stepFile then
        some (.blank .states cfg.nd cfg.nens)
      else h.dir.lookup n := by
  rw [createBatch_eq, createFiles, lookup_foldl_insert]

lemma stepFile_mem_map {b n t : ℕ} :
    cfg.stepFile t ∈ (List.range' b n).map cfg.stepFile ↔ b ≤ t ∧ t < b + n := by
  simp [List.mem_range'_1]

lemma createBatch_isOpen (b : ℕ) (h : Handler β) : IsOpen cfg b (createBatch cfg b h) where
  start := by rw [createBatch_eq]; rfl
  datasets := by rw [createBatch_eq]; rfl
  present t ht ht' := by
    rw [lookup_createBatch, if_pos (stepFile_mem_map.mpr ⟨ht, ht'⟩)]
    exact ⟨_, rfl, rfl⟩

/-- The handler that the constructor leaves has batch `0` open. -/
lemma init_isOpen (dir : Directory β) : IsOpen cfg 0 (init cfg dir) := createBatch_isOpen 0 _

lemma cell_createBatch (b : ℕ) (h : Handler β) (t i j : ℕ) :
    cell cfg (createBatch cfg b h) t i j =
      if b ≤ t ∧ t < b + min cfg.batchSize (cfg.nt - b) then none else cell cfg h t i j := by
  rw [cell, lookup_createBatch]
  simp only [stepFile_mem_map]
  split <;> rfl

/-- The times of a batch are those with the same batch start. -/
lemma mem_batch_iff {s t : ℕ} (ht : t < cfg.nt) :
    (cfg.batchStart s ≤ t ∧
        t < cfg.batchStart s + min cfg.batchSize (cfg.nt - cfg.batchStart s)) ↔
      cfg.batchStart t = cfg.batchStart s := by
  have hle := cfg.batchStart_le t
  have hlt := cfg.lt_batchStart_add t
  constructor
  · rintro ⟨h1, h2⟩
    have hdiv : t / cfg.batchSize = s / cfg.batchSize := by
      refine Nat.div_eq_of_lt_le h1 ?_
      rw [Nat.succ_mul]
      exact lt_of_lt_of_le h2 (Nat.add_le_add_left (Nat.min_le_left _ _) _)
    exact cfg.batchStart_eq_iff.mpr hdiv
  · intro h
    rw [← h]
    omega

/-! ### Switching -/

section Switch

variable {b : ℕ} {h : Handler β}

lemma ensureBatch_of_eq {t : ℕ} (ho : IsOpen cfg b h) (ht : cfg.batchStart t = b) :
    ensureBatch cfg t h = h := by
  rw [ensureBatch, if_neg]
  simp [ho.start, ht]

lemma ensureBatch_of_ne {t : ℕ} (ho : IsOpen cfg b h) (ht : cfg.batchStart t ≠ b) :
    ensureBatch cfg t h = createBatch cfg (cfg.batchStart t) h := by
  rw [ensureBatch, if_pos]
  rw [ho.start]
  exact_mod_cast ht

/-- After `_ensure_batch(t)` the batch of `t` is open. -/
lemma ensureBatch_isOpen (ho : IsOpen cfg b h) (t : ℕ) :
    IsOpen cfg (cfg.batchStart t) (ensureBatch cfg t h) := by
  by_cases ht : cfg.batchStart t = b
  · rw [ensureBatch_of_eq ho ht, ht]
    exact ho
  · rw [ensureBatch_of_ne ho ht]
    exact createBatch_isOpen _ _

/-- **What a switch does**: the batch that is opened is blanked, nothing else. -/
lemma cell_ensureBatch (ho : IsOpen cfg b h) (s : ℕ) {t : ℕ} (ht : t < cfg.nt) (i j : ℕ) :
    cell cfg (ensureBatch cfg s h) t i j =
      if cfg.batchStart s ≠ b ∧ cfg.batchStart t = cfg.batchStart s then none
      else cell cfg h t i j := by
  by_cases hs : cfg.batchStart s = b
  · rw [ensureBatch_of_eq ho hs, if_neg (by simp [hs])]
  · rw [ensureBatch_of_ne ho hs, cell_createBatch]
    simp only [mem_batch_iff ht, ne_eq, hs, not_false_eq_true, true_and]

/-- A file that is no step file is not touched by a switch. -/
lemma lookup_ensureBatch {n : FileName} (hn : ∀ t, cfg.stepFile t ≠ n) (s : ℕ)
    (h : Handler β) : (ensureBatch cfg s h).dir.lookup n = h.dir.lookup n := by
  rw [ensureBatch]
  split
  · rw [lookup_createBatch, if_neg]
    intro hmem
    obtain ⟨t, _, ht⟩ := List.mem_map.mp hmem
    exact hn t ht
  · rfl

/-- In the open batch, `self.datasets[t - self.current_batch_start]` is the file of `t`. -/
lemma dataset_eq {t : ℕ} (ho : IsOpen cfg (cfg.batchStart t) h) (ht : t < cfg.nt) :
    h.dataset (t - h.currentBatchStart) = some (cfg.stepFile t) := by
  obtain ⟨hle, hlt⟩ := (mem_batch_iff ht).mpr rfl
  have hnat : ((t : ℤ) - (cfg.batchStart t : ℕ)).toNat = t - cfg.batchStart t := by omega
  have hadd : cfg.batchStart t + (t - cfg.batchStart t) = t := by omega
  rw [dataset, ho.start, if_pos (by omega), ho.datasets, hnat, List.getElem?_map,
    List.getElem?_range' (by omega), Option.map_some, Nat.one_mul, hadd]

/-! ### One rank's window -/

/-- A window access finds its file, with room for every member. -/
lemma access_file {t : ℕ} (ho : IsOpen cfg b h) (ht : t < cfg.nt) :
    ∃ f, (ensureBatch cfg t h).dataset (t - (ensureBatch cfg t h).currentBatchStart) =
        some (cfg.stepFile t) ∧
      (ensureBatch cfg t h).dir.lookup (cfg.stepFile t) = some f ∧
      f.shape = (cfg.nd, cfg.nens) := by
  have ho' := ensureBatch_isOpen ho t
  obtain ⟨hle, hlt⟩ := (mem_batch_iff ht).mpr rfl
  obtain ⟨f, hf, hshape⟩ := ho'.present t hle hlt
  exact ⟨f, dataset_eq ho' ht, hf, hshape⟩

/-- One rank reads its window of the column and leaves the store as the switch left it. -/
lemma readRows_spec [Zero β] {t j : ℕ} (ho : IsOpen cfg b h) (ht : t < cfg.nt)
    (hj : j < cfg.nens) (lo : ℕ) :
    readRows cfg lo t j h = some (ensureBatch cfg t h,
      fun i => (cell cfg (ensureBatch cfg t h) t (lo + i) j).getD 0) := by
  obtain ⟨f, hname, hf, hshape⟩ := access_file ho ht
  simp [readRows, hname, hf, hshape, hj, cell, H5File.entry]

/-- One rank writes its window of the column, and nothing else. -/
lemma writeRows_spec {t j : ℕ} (ho : IsOpen cfg b h) (ht : t < cfg.nt)
    (hj : j < cfg.nens) (lo hi : ℕ) (data : ℕ → β) :
    ∃ h', writeRows cfg lo hi t data j h = some h' ∧
      IsOpen cfg (cfg.batchStart t) h' ∧
      (∀ t' i j', cell cfg h' t' i j' =
        if t' = t ∧ (lo ≤ i ∧ i < hi) ∧ j' = j then some (data (i - lo))
        else cell cfg (ensureBatch cfg t h) t' i j') ∧
      ∀ n, (∀ s, cfg.stepFile s ≠ n) → h'.dir.lookup n = h.dir.lookup n := by
  obtain ⟨f, hname, hf, hshape⟩ := access_file ho ht
  have ho' := ensureBatch_isOpen ho t
  -- the write replaces the one file of the time
  refine ⟨{ ensureBatch cfg t h with
      dir := (ensureBatch cfg t h).dir.insert (cfg.stepFile t) (f.setRows lo hi j data) },
    by simp [writeRows, hname, hf, hshape, hj], ⟨ho'.start, ho'.datasets, ?_⟩, ?_, ?_⟩
  · intro s hs hs'
    by_cases hst : cfg.stepFile s = cfg.stepFile t
    · exact ⟨f.setRows lo hi j data, by rw [hst, AList.lookup_insert], hshape⟩
    · simpa [AList.lookup_insert_ne hst] using ho'.present s hs hs'
  · intro t' i j'
    by_cases hst : t' = t
    · subst hst
      simp only [cell, AList.lookup_insert, Option.bind_some, H5File.setRows_written, hf,
        true_and]
    · have hne : cfg.stepFile t' ≠ cfg.stepFile t := fun he => hst (cfg.stepFile_inj.mp he)
      simp [cell, AList.lookup_insert_ne hne, hst]
  · intro n hn
    rw [AList.lookup_insert_ne (hn t).symm, lookup_ensureBatch hn]

/-! ### Whole columns -/

/-- A second `_ensure_batch` of the same time does nothing. -/
lemma ensureBatch_idem (ho : IsOpen cfg b h) (t : ℕ) :
    ensureBatch cfg t (ensureBatch cfg t h) = ensureBatch cfg t h :=
  ensureBatch_of_eq (ensureBatch_isOpen ho t) rfl

/-- The first `r` ranks have written the rows below the cut of rank `r`; only the
first of them may have switched the batch. -/
structure WrittenBelow (cfg : IOConfig) (rows : Rows) (t j : ℕ) (col : ℕ → β) (h : Handler β)
    (r : ℕ) (h' : Handler β) : Prop where
  isOpen : ∃ b, IsOpen cfg b h' ∧ (0 < r → b = cfg.batchStart t)
  cells : ∀ t' i j', cell cfg (ensureBatch cfg t h') t' i j' =
    if (t' = t ∧ j' = j) ∧ i < (cfg.cuts rows).cut r then some (col i)
    else cell cfg (ensureBatch cfg t h) t' i j'
  frame : ∀ n, (∀ s, cfg.stepFile s ≠ n) → h'.dir.lookup n = h.dir.lookup n

/-- Rank `r` writes after the ranks before it. -/
lemma WrittenBelow.next {rows : Rows} {t j r : ℕ} {col : ℕ → β} {h₁ : Handler β}
    (hw : WrittenBelow cfg rows t j col h r h₁) (hr : r < cfg.ranks rows) (ht : t < cfg.nt)
    (hj : j < cfg.nens) :
    ∃ h₂, writeRows cfg (partition1d cfg.nd (cfg.ranks rows) r).1
        (partition1d cfg.nd (cfg.ranks rows) r).2 t
        (fun i => col ((partition1d cfg.nd (cfg.ranks rows) r).1 + i)) j h₁ = some h₂ ∧
      WrittenBelow cfg rows t j col h (r + 1) h₂ := by
  obtain ⟨b₁, ho₁, -⟩ := hw.isOpen
  obtain ⟨h₂, hwrite, ho₂, hcell₂, hframe₂⟩ := writeRows_spec ho₁ ht hj
    (partition1d cfg.nd (cfg.ranks rows) r).1 (partition1d cfg.nd (cfg.ranks rows) r).2
    (fun i => col ((partition1d cfg.nd (cfg.ranks rows) r).1 + i))
  refine ⟨h₂, hwrite, ⟨⟨_, ho₂, fun _ => rfl⟩, fun t' i j' => ?_, fun n hn => ?_⟩⟩
  · rw [ensureBatch_of_eq ho₂ rfl, hcell₂, hw.cells, partition1d_snd,
      ← (cfg.cuts rows).ite_block hr]
    by_cases hin : (t' = t ∧ j' = j) ∧ (cfg.cuts rows).cut r ≤ i ∧ i < (cfg.cuts rows).cut (r + 1)
    · have hi : (partition1d cfg.nd (cfg.ranks rows) r).1 +
          (i - (partition1d cfg.nd (cfg.ranks rows) r).1) = i := Nat.add_sub_cancel' hin.2.1
      rw [if_pos hin, if_pos ⟨hin.1.1, hin.2, hin.1.2⟩, hi]
    · rw [if_neg hin, if_neg fun hc => hin ⟨⟨hc.1, hc.2.2⟩, hc.2.1⟩]
  · rw [hframe₂ n hn, hw.frame n hn]

/-- **A column write**: the column of the given member is replaced as a whole, whatever
the row partition; apart from the switch, nothing else changes. -/
theorem writeColumn_spec (rows : Rows) {t j : ℕ} (ho : IsOpen cfg b h) (ht : t < cfg.nt)
    (hj : j < cfg.nens) (col : ℕ → β) :
    ∃ h', writeColumn cfg rows t col j h = some h' ∧ IsOpen cfg (cfg.batchStart t) h' ∧
      (∀ t' i j', cell cfg h' t' i j' =
        if t' = t ∧ i < cfg.nd ∧ j' = j then some (col i)
        else cell cfg (ensureBatch cfg t h) t' i j') ∧
      ∀ n, (∀ s, cfg.stepFile s ≠ n) → h'.dir.lookup n = h.dir.lookup n := by
  obtain ⟨h', hrun, hw⟩ := Machine.foldlM_range (WrittenBelow cfg rows t j col h)
    (fun r hr h₁ hw => hw.next hr ht hj)
    ⟨⟨b, ho, by simp⟩, by simp [(cfg.cuts rows).cut_zero], fun _ _ => rfl⟩
  obtain ⟨b', ho', hb'⟩ := hw.isOpen
  obtain rfl := hb' (cfg.ranks_pos rows)
  refine ⟨h', hrun, ho', fun t' i j' => ?_, hw.frame⟩
  have hcell := hw.cells t' i j'
  rw [ensureBatch_of_eq ho' rfl, (cfg.cuts rows).cut_last] at hcell
  rw [hcell]
  exact if_congr (by tauto) rfl rfl

/-- What has been read after `r` ranks: the rows below the cut of rank `r`. -/
def readBelow [Zero β] (cfg : IOConfig) (rows : Rows) (t j : ℕ) (h : Handler β) (r : ℕ) :
    Handler β × (ℕ → β) :=
  (if r = 0 then h else ensureBatch cfg t h, fun i =>
    if i < (cfg.cuts rows).cut r then (cell cfg (ensureBatch cfg t h) t i j).getD 0 else 0)

/-- Rank `r` reads after the ranks before it. -/
lemma readRows_readBelow [Zero β] (rows : Rows) {t j r : ℕ} (ho : IsOpen cfg b h)
    (hr : r < cfg.ranks rows) (ht : t < cfg.nt) (hj : j < cfg.nens) :
    (do
      let lo := (partition1d cfg.nd (cfg.ranks rows) r).1
      let hi := (partition1d cfg.nd (cfg.ranks rows) r).2
      let (h', part) ← readRows cfg lo t j (readBelow cfg rows t j h r).1
      return (h', fun i => if lo ≤ i ∧ i < hi then part (i - lo)
        else (readBelow cfg rows t j h r).2 i)) = some (readBelow cfg rows t j h (r + 1)) := by
  -- the first rank may switch the batch, the others find it open
  have hread : readRows cfg (partition1d cfg.nd (cfg.ranks rows) r).1 t j
      (readBelow cfg rows t j h r).1 = some (ensureBatch cfg t h, fun i =>
        (cell cfg (ensureBatch cfg t h) t
          ((partition1d cfg.nd (cfg.ranks rows) r).1 + i) j).getD 0) := by
    rw [readBelow]
    split
    · exact readRows_spec ho ht hj _
    · rw [readRows_spec (ensureBatch_isOpen ho t) ht hj, ensureBatch_idem ho]
  simp only [hread, Option.bind_eq_bind, Option.bind_some, Option.pure_def, partition1d_snd]
  simp only [readBelow, Nat.succ_ne_zero, if_false]
  congr 2
  funext i
  have hblock := (cfg.cuts rows).ite_block (i := i) hr True
    ((cell cfg (ensureBatch cfg t h) t i j).getD 0) 0
  simp only [true_and] at hblock
  rw [← hblock]
  change (if (cfg.cuts rows).cut r ≤ i ∧ i < (cfg.cuts rows).cut (r + 1) then
    (cell cfg _ t ((cfg.cuts rows).cut r + (i - (cfg.cuts rows).cut r)) j).getD 0 else _) = _
  by_cases hin : (cfg.cuts rows).cut r ≤ i ∧ i < (cfg.cuts rows).cut (r + 1)
  · rw [if_pos hin, if_pos hin, Nat.add_sub_cancel' hin.1]
  · rw [if_neg hin, if_neg hin]

/-- **A column read**: the whole column, whatever the row partition. -/
theorem readColumn_spec [Zero β] (rows : Rows) {t j : ℕ} (ho : IsOpen cfg b h)
    (ht : t < cfg.nt) (hj : j < cfg.nens) :
    readColumn cfg rows t j h = some (ensureBatch cfg t h, fun i =>
      if i < cfg.nd then (cell cfg (ensureBatch cfg t h) t i j).getD 0 else 0) := by
  obtain ⟨_, hrun, rfl⟩ : ∃ s, readColumn cfg rows t j h = some s ∧
      s = readBelow cfg rows t j h (cfg.ranks rows) := by
    refine Machine.foldlM_range (fun r s => s = readBelow cfg rows t j h r) (fun r hr s hs => ?_)
      (by simp [readBelow, (cfg.cuts rows).cut_zero])
    rw [hs]
    exact ⟨_, readRows_readBelow rows ho hr ht hj, rfl⟩
  rw [hrun, readBelow, if_neg (cfg.ranks_pos rows).ne', (cfg.cuts rows).cut_last]

end Switch

end Icesee.Handler
