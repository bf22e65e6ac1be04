import Icesee.Lib.Paged
import Icesee.Store.Columns
import Mathlib.Algebra.Ring.Int.Defs

/-!
Read after write in the batched store.

A sequence of calls of the four column operations runs on the handler that the
constructor leaves (`runCalls`). The store is a paged memory: the pages are the
batches, and `_ensure_batch` opens a page by creating its files anew. `Refines` is
the simulation relation, `perform_refines` its step and `runCalls_refines` its run.

`readAfterWrite_iff` then says exactly which call sequences read back what they
wrote: those that never come back to a batch which was written and then left. The
default forecast step does come back, once per round at the end of a batch.
-/

namespace Icesee

open Handler

variable {β : Type} {cfg : IOConfig}

/-! ### Call sequences -/

/-- One call of the handler, for a time below `nt` and a member below `nens`. -/
inductive Call (cfg : IOConfig) (β : Type) where
  | readForecast (t : Fin cfg.nt) (j : Fin cfg.nens)
  | writeForecast (t : Fin cfg.nt) (col : ℕ → β) (j : Fin cfg.nens)
  | readAnalysis (t : Fin cfg.nt) (j : Fin cfg.nens)
  | writeAnalysis (t : Fin cfg.nt) (col : ℕ → β) (j : Fin cfg.nens)

namespace Call

def time : Call cfg β → Fin cfg.nt
  | .readForecast t _ | .writeForecast t _ _ | .readAnalysis t _ | .writeAnalysis t _ _ => t

def member : Call cfg β → Fin cfg.nens
  | .readForecast _ j | .writeForecast _ _ j | .readAnalysis _ j | .writeAnalysis _ _ j => j

/-- The column a call writes. -/
def written : Call cfg β → Option (ℕ → β)
  | .readForecast _ _ | .readAnalysis _ _ => none
  | .writeForecast _ col _ | .writeAnalysis _ col _ => some col

/-- The batch a call accesses. -/
def batch (c : Call cfg β) : ℕ := cfg.batchStart c.time

/-- The call on the handler; a read returns the column it found. -/
def perform [Zero β] : Call cfg β → Handler β → Option (Handler β × Option (ℕ → β))
  | .readForecast t j, h => (Handler.readForecast cfg t j h).map fun r => (r.1, some r.2)
  | .writeForecast t col j, h => (Handler.writeForecast cfg t col j h).map fun h' => (h', none)
  | .readAnalysis t j, h => (Handler.readAnalysis cfg t j h).map fun r => (r.1, some r.2)
  | .writeAnalysis t col j, h => (Handler.writeAnalysis cfg t col j h).map fun h' => (h', none)

end Call

/-- The handler after a sequence of calls. -/
def runCalls [Zero β] (cs : List (Call cfg β)) (h : Handler β) : Option (Handler β) :=
  cs.foldlM (fun h c => (c.perform h).map Prod.fst) h

/-- The column most recently written for member `j` at time `t`. -/
def lastWritten (cs : List (Call cfg β)) (t : Fin cfg.nt) (j : Fin cfg.nens) :
    Option (ℕ → β) :=
  cs.foldl (fun w c => if c.time = t ∧ c.member = j then c.written.or w else w) none

/-- The batch that is open after a sequence of calls: that of the last call, batch `0`
before the first. -/
def lastBatch (cs : List (Call cfg β)) : ℕ := (cs.getLast?.map Call.batch).getD 0

/-- Read after write: every read returns the column most recently written, and no
`_ensure_batch` discards a column that was written before it. -/
structure ReadAfterWrite [Zero β] (dir : Directory β) (cs : List (Call cfg β)) : Prop where
  reads : ∀ pre c post, cs = pre ++ c :: post → c.written = none →
    ∀ col, lastWritten pre c.time c.member = some col →
      ∃ h h' out, runCalls pre (init cfg dir) = some h ∧ c.perform h = some (h', some out) ∧
        ∀ i < cfg.nd, out i = col i
  keeps : ∀ pre c post, cs = pre ++ c :: post →
    ∀ t j col, lastWritten pre t j = some col →
      ∃ h, runCalls pre (init cfg dir) = some h ∧
        ∀ i < cfg.nd, cell cfg (ensureBatch cfg c.time h) t i j = some (col i)

/-- No call comes back to a batch that was written and then left. -/
def NoReturn (cs : List (Call cfg β)) : Prop :=
  ∀ pre c post, cs = pre ++ c :: post →
    c.batch = lastBatch pre ∨ ∀ w ∈ pre, w.batch = c.batch → w.written = none

/-! ### The store as a paged memory -/

/-- The entries of the store. -/
abbrev Cell (cfg : IOConfig) := Fin cfg.nt × Fin cfg.nd × Fin cfg.nens

/-- The page of an entry is the batch of its time. -/
def page (c : Cell cfg) : ℕ := cfg.batchStart c.1

/-- A call, as an access to the paged memory. -/
def Call.access (c : Call cfg β) : Paged.Access (page : Cell cfg → ℕ) β where
  visits := c.batch
  put a := if a.1 = c.time ∧ a.2.2 = c.member then c.written.map fun col => col a.2.1 else none
  inside a ha := by
    rw [if_neg]
    rintro ⟨ht, -⟩
    exact ha (by rw [page, ht, Call.batch])

/-- The handler holds what the paged memory holds. -/
structure Refines (h : Handler β) (m : Paged.Memory (Cell cfg) ℕ β) : Prop where
  isOpen : IsOpen cfg m.openPage h
  mem : ∀ a, cell cfg h a.1 a.2.1 a.2.2 = m.mem a

/-- `_ensure_batch` opens a page. -/
lemma ensureBatch_refines {h : Handler β} {m : Paged.Memory (Cell cfg) ℕ β}
    (hr : Refines h m) (t : Fin cfg.nt) :
    Refines (ensureBatch cfg t h) (m.visit page (cfg.batchStart t)) := by
  have ho := ensureBatch_isOpen hr.isOpen t
  refine ⟨by rwa [Paged.Memory.visit_openPage], fun a => ?_⟩
  rw [cell_ensureBatch hr.isOpen t a.1.isLt, hr.mem]
  by_cases ht : cfg.batchStart t = m.openPage
  · rw [Paged.Memory.visit_of_eq ht, if_neg (by simp [ht])]
  · rw [Paged.Memory.visit_mem_of_ne ht]
    exact if_congr (by simp [page, ht]) rfl rfl

/-- A write of either kind, in terms of the store before it. -/
lemma write_refines {h : Handler β} {m : Paged.Memory (Cell cfg) ℕ β} (hr : Refines h m)
    (rows : Rows) (t : Fin cfg.nt) (col : ℕ → β) (j : Fin cfg.nens) (c : Call cfg β)
    (hc : c.time = t ∧ c.member = j ∧ c.written = some col) :
    ∃ h', writeColumn cfg rows t col j h = some h' ∧ Refines h' (m.step c.access) := by
  obtain ⟨rfl, rfl, hcol⟩ := hc
  obtain ⟨h', hwrite, ho, hcell, -⟩ :=
    writeColumn_spec rows hr.isOpen c.time.isLt c.member.isLt col
  refine ⟨h', hwrite, ho, fun a => ?_⟩
  rw [hcell, (ensureBatch_refines hr c.time).mem, Paged.Memory.step_mem]
  simp only [Call.access, Fin.val_inj, a.2.1.isLt, true_and, hcol]
  split <;> rfl

/-- A read of either kind writes nothing. -/
lemma read_refines [Zero β] {h : Handler β} {m : Paged.Memory (Cell cfg) ℕ β}
    (hr : Refines h m) (rows : Rows) (c : Call cfg β) (hc : c.written = none) :
    readColumn cfg rows c.time c.member h = some (ensureBatch cfg c.time h, fun i =>
        if i < cfg.nd then
          (cell cfg (ensureBatch cfg c.time h) c.time i c.member).getD 0 else 0) ∧
      Refines (ensureBatch cfg c.time h) (m.step c.access) := by
  refine ⟨readColumn_spec rows hr.isOpen c.time.isLt c.member.isLt, ?_⟩
  have hv := ensureBatch_refines hr c.time
  refine ⟨ensureBatch_isOpen hr.isOpen _, fun a => ?_⟩
  rw [hv.mem, Paged.Memory.step_mem]
  simp only [Call.access, hc, Option.map_none, ite_self, Option.none_or]
  rfl

/-- **The step of the refinement**: a call succeeds, and follows the paged memory. -/
lemma perform_refines [Zero β] {h : Handler β} {m : Paged.Memory (Cell cfg) ℕ β}
    (hr : Refines h m) (c : Call cfg β) :
    ∃ h' out, c.perform h = some (h', out) ∧ Refines h' (m.step c.access) ∧
      (c.written = none → out = some fun i => if i < cfg.nd then
        (cell cfg (ensureBatch cfg c.time h) c.time i c.member).getD 0 else 0) := by
  cases c with
  | readForecast t j =>
      obtain ⟨hread, hr'⟩ := read_refines hr .comm (.readForecast t j) rfl
      exact ⟨_, _, congrArg (Option.map _) hread, hr', fun _ => rfl⟩
  | writeForecast t col j =>
      obtain ⟨h', hwrite, hr'⟩ :=
        write_refines hr .comm t col j (.writeForecast t col j) ⟨rfl, rfl, rfl⟩
      exact ⟨h', none, congrArg (Option.map _) hwrite, hr', by simp [Call.written]⟩
  | readAnalysis t j =>
      obtain ⟨hread, hr'⟩ := read_refines hr .world (.readAnalysis t j) rfl
      exact ⟨_, _, congrArg (Option.map _) hread, hr', fun _ => rfl⟩
  | writeAnalysis t col j =>
      obtain ⟨h', hwrite, hr'⟩ :=
        write_refines hr .world t col j (.writeAnalysis t col j) ⟨rfl, rfl, rfl⟩
      exact ⟨h', none, congrArg (Option.map _) hwrite, hr', by simp [Call.written]⟩

/-- The constructor leaves a blank store, whatever the directory held. -/
lemma cell_init (dir : Directory β) (t i j : ℕ) : cell cfg (init cfg dir) t i j = none := by
  rw [init, cell_createBatch]
  split
  · rfl
  · rw [cell_removeOld]

/-- **The run of the refinement**: no sequence of calls fails, and the store follows
the paged memory whose page `0` is open at the start. -/
theorem runCalls_refines [Zero β] (dir : Directory β) (cs : List (Call cfg β)) :
    ∃ h, runCalls cs (init cfg dir) = some h ∧
      Refines h (Paged.run 0 (cs.map Call.access)) := by
  induction cs using List.reverseRecOn with
  | nil =>
      exact ⟨_, rfl, init_isOpen dir, fun a => cell_init dir _ _ _⟩
  | append_singleton cs c ih =>
      obtain ⟨h, hrun, hr⟩ := ih
      obtain ⟨h', out, hperf, hr', -⟩ := perform_refines hr c
      refine ⟨h', ?_, by simpa using hr'⟩
      rw [runCalls] at hrun ⊢
      simp [List.foldlM_append, hrun, hperf]

/-! ### The criterion -/

/-- What the memory without pages holds is what was written last. -/
lemma ideal_access (cs : List (Call cfg β)) (a : Cell cfg) :
    Paged.ideal (cs.map Call.access) a = (lastWritten cs a.1 a.2.2).map fun col => col a.2.1 := by
  induction cs using List.reverseRecOn with
  | nil => rfl
  | append_singleton cs c ih =>
      rw [List.map_append, List.map_singleton, Paged.ideal_append_singleton, ih]
      simp only [lastWritten, List.foldl_append, List.foldl_cons, List.foldl_nil, Call.access]
      by_cases ha : a.1 = c.time ∧ a.2.2 = c.member
      · rw [if_pos ha, if_pos ⟨ha.1.symm, ha.2.symm⟩]
        cases c.written <;> rfl
      · rw [if_neg ha, if_neg fun h => ha ⟨h.1.symm, h.2.symm⟩, Option.none_or]

/-- A call writes nothing exactly when its access does. -/
lemma put_eq_none_iff (c : Call cfg β) : (∀ a, c.access.put a = none) ↔ c.written = none := by
  refine ⟨fun h => ?_, fun h a => ?_⟩
  · have h0 := h (c.time, ⟨0, cfg.nd_pos⟩, c.member)
    simpa [Call.access] using h0
  · simp [Call.access, h]

lemma lastVisited_access (cs : List (Call cfg β)) :
    Paged.lastVisited 0 (cs.map Call.access) = lastBatch cs := by
  rw [Paged.lastVisited, lastBatch, List.getLast?_map, Option.map_map]
  rfl

/-- The criterion of the paged memory, read on the calls. -/
lemma noReturn_access (cs : List (Call cfg β)) :
    Paged.NoReturn 0 (cs.map Call.access) ↔ NoReturn cs := by
  refine ⟨fun h pre c post hsplit => ?_, fun h pre x post hsplit => ?_⟩
  · have hc := h (pre.map Call.access) c.access (post.map Call.access) (by simp [hsplit])
    rw [lastVisited_access] at hc
    refine hc.imp id fun hw w hmem hb => ?_
    exact (put_eq_none_iff w).mp (hw _ (List.mem_map_of_mem hmem) hb)
  · obtain ⟨pre, rest, rfl, rfl, hrest⟩ := List.map_eq_append_iff.mp hsplit
    obtain ⟨c, post, rfl, rfl, rfl⟩ := List.map_eq_cons_iff.mp hrest
    rw [lastVisited_access]
    refine (h pre c post rfl).imp id fun hw y hy hb => ?_
    obtain ⟨w, hmem, rfl⟩ := List.mem_map.mp hy
    exact (put_eq_none_iff w).mpr (hw w hmem hb)

/-- The store keeps what the paged memory keeps. -/
lemma keeps_access [Zero β] (dir : Directory β) (cs : List (Call cfg β)) :
    Paged.Keeps 0 (cs.map Call.access) ↔ ∀ pre c post, cs = pre ++ c :: post →
      ∀ t j col, lastWritten pre t j = some col →
        ∃ h, runCalls pre (init cfg dir) = some h ∧
          ∀ i < cfg.nd, cell cfg (ensureBatch cfg c.time h) t i j = some (col i) := by
  refine ⟨fun hk pre c post hsplit t j col hcol => ?_, fun hk pre x post hsplit => ?_⟩
  · obtain ⟨h, hrun, hr⟩ := runCalls_refines dir pre
    refine ⟨h, hrun, fun i hi => ?_⟩
    have hmem := hk (pre.map Call.access) c.access (post.map Call.access) (by simp [hsplit])
    have hcell := (ensureBatch_refines hr c.time).mem (t, ⟨i, hi⟩, j)
    rw [hcell]
    refine (congrFun hmem _).trans ?_
    rw [ideal_access, hcol]
    rfl
  · obtain ⟨pre, rest, rfl, rfl, hrest⟩ := List.map_eq_append_iff.mp hsplit
    obtain ⟨c, post, rfl, rfl, rfl⟩ := List.map_eq_cons_iff.mp hrest
    obtain ⟨h, hrun, hr⟩ := runCalls_refines dir pre
    have hv := ensureBatch_refines hr c.time
    funext a
    rw [ideal_access]
    cases hcol : lastWritten pre a.1 a.2.2 with
    | none =>
        -- a blank entry stays blank: the switch erases, it does not write
        have hblank : Paged.ideal (pre.map Call.access) a = none := by rw [ideal_access, hcol]; rfl
        exact Paged.Memory.visit_mem_eq_none (Paged.run_mem_eq_none hblank)
    | some col =>
        obtain ⟨h₁, hrun₁, hcell⟩ := hk pre c post rfl a.1 a.2.2 col hcol
        obtain rfl : h₁ = h := Option.some.inj (hrun₁.symm.trans hrun)
        exact (hv.mem a).symm.trans (hcell a.2.1 a.2.1.isLt)

/-- **Read after write, exactly**: a sequence of calls reads back what it wrote, and
loses no column on the way, if and only if no call comes back to a batch that was
written and then left. -/
theorem readAfterWrite_iff [Zero β] (dir : Directory β) (cs : List (Call cfg β)) :
    ReadAfterWrite dir cs ↔ NoReturn cs := by
  rw [← noReturn_access, ← Paged.keeps_iff_noReturn]
  refine ⟨fun h => ?_, fun hk => ?_⟩
  · exact (keeps_access dir cs).mpr h.keeps
  · have hkeeps := (keeps_access dir cs).mp hk
    refine ⟨fun pre c post hsplit hread col hcol => ?_, hkeeps⟩
    obtain ⟨h, hrun, hr⟩ := runCalls_refines dir pre
    obtain ⟨h₁, hrun₁, hcell⟩ := hkeeps pre c post hsplit _ _ col hcol
    obtain rfl : h₁ = h := Option.some.inj (hrun₁.symm.trans hrun)
    obtain ⟨h', out, hperf, -, hout⟩ := perform_refines hr c
    refine ⟨h₁, h', _, hrun, hout hread ▸ hperf, fun i hi => ?_⟩
    rw [if_pos hi, hcell i hi]
    rfl

/-- Two times, each in a batch of its own. -/
abbrev twoBatches : IOConfig := .single 2 Nat.two_pos

/-- Write time `0`, write time `1`, read time `0`: the read comes back to batch `0`. -/
def writeOnAndReadBack : List (Call twoBatches ℤ) :=
  [.writeForecast ⟨0, Nat.two_pos⟩ (fun _ => 7) ⟨0, Nat.one_pos⟩,
    .writeForecast ⟨1, Nat.one_lt_two⟩ (fun _ => 5) ⟨0, Nat.one_pos⟩,
    .readForecast ⟨0, Nat.two_pos⟩ ⟨0, Nat.one_pos⟩]

/-- The read of time `0` returns the fill value instead of the column written there. -/
theorem not_readAfterWrite_twoBatches :
    ((runCalls (writeOnAndReadBack.take 2) (init twoBatches ∅)).bind fun h =>
      (Handler.readForecast twoBatches 0 0 h).map fun r => r.2 0) = some 0 ∧
    ¬ ReadAfterWrite ∅ writeOnAndReadBack := by
  have hread : ((runCalls (writeOnAndReadBack.take 2) (init twoBatches ∅)).bind fun h =>
      (Handler.readForecast twoBatches 0 0 h).map fun r => r.2 0) = some 0 := rfl
  refine ⟨hread, fun hraw => ?_⟩
  obtain ⟨h, h', out, hrun, hperf, hout⟩ := hraw.reads (writeOnAndReadBack.take 2)
    (.readForecast ⟨0, Nat.two_pos⟩ ⟨0, Nat.one_pos⟩) [] rfl rfl (fun _ => 7) rfl
  obtain ⟨r, hr, hr'⟩ := Option.map_eq_some_iff.mp hperf
  simp only [Prod.mk.injEq, Option.some.injEq] at hr'
  have h7 : r.2 0 = 7 := by rw [hr'.2]; exact hout 0 Nat.one_pos
  rw [hrun, Option.bind_some] at hread
  change (Option.map _ (Handler.readForecast twoBatches 0 0 h)) = some 0 at hread
  have hr0 : Handler.readForecast twoBatches 0 0 h = some r := hr
  rw [hr0, Option.map_some, h7] at hread
  exact absurd (Option.some.inj hread) (by omega)

end Icesee
