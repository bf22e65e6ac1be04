import Mathlib.Algebra.Field.Rat
import Icesee.Driver.Partial
import Icesee.Lib.BlockCopy

/-!
Dropping the friction before the analysis of the partial-parallel driver, and putting the
analysis back into the full state.

`Inversion.reduce` is the loop of the driver: it takes the block of every variable but the
friction and puts it at the variable's own number. `Inversion.inject` is the loop of
`parallel_write_ensemble_scattered`: it numbers the retained variables anew. Both are
copies of blocks (`reduce_eq_copyBlocks`, `inject_eq_copyBlocks`), to places that agree
exactly when the friction is the last variable (`roundTrip_iff`).
-/

namespace Icesee

open BlockCopy

/-- The layout of the state: variables `vec_inputs` of `hdim` entries each, and the number
of the friction among them. -/
structure Inversion where
  vecInputs : List String
  hdim : ℕ
  frictionIdx : ℕ
  nodup : vecInputs.Nodup
  hdim_pos : 0 < hdim
  friction_lt : frictionIdx < vecInputs.length

namespace Inversion

variable (inv : Inversion) {α β : Type}

/-- `total_state_param_vars`. -/
def numVars : ℕ := inv.vecInputs.length

/-- The rows of the full state. -/
def nd : ℕ := inv.numVars * inv.hdim

/-- The rows of the state without the friction. -/
def ndNew : ℕ := inv.hdim * (inv.numVars - 1)

/-- `icesee_get_index`, equal sizes: `var_start` grows by `hdim` from variable to
variable, and `indx_map[key]` is the run of `hdim` rows from here on. -/
def indexStart (key : String) : Except RunError ℕ :=
  if key ∈ inv.vecInputs then .ok (inv.vecInputs.idxOf key * inv.hdim) else .error (.keyError key)

/-- `excluded_indices`. -/
def excludedIndices : List ℕ := [inv.frictionIdx]

/-- The reduction of the driver, of the ensemble and of `hu_obs` alike. -/
def reduce [Zero α] (F : BlockCopy.Rows α) : Except RunError (BlockCopy.Rows α) :=
  inv.vecInputs.zipIdx.foldlM (fun R (key, ii) =>
    if ii ∉ inv.excludedIndices then do
      let start ← inv.indexStart key
      R.setRows .valueError (ii * inv.hdim) (ii * inv.hdim + inv.hdim) (F.take start inv.hdim)
    else return R) { n := inv.ndNew, row := fun _ => 0 }

/-- `vec_inputs_new`. -/
def vecInputsNew : List String :=
  (inv.vecInputs.zipIdx.filter fun (_, ii) => ii ∉ inv.excludedIndices).map Prod.fst

/-- The injection of the analysis `G` into the state `F` before it. -/
def inject (F G : BlockCopy.Rows α) : Except RunError (BlockCopy.Rows α) :=
  inv.vecInputsNew.zipIdx.foldlM (fun A (key, ii) => do
    let start ← inv.indexStart key
    A.setRows .valueError start (start + inv.hdim)
      (G.slice (ii * inv.hdim) (ii * inv.hdim + inv.hdim))) F

/-! ### Places -/

/-- The number of the retained variable `c` in the full state. -/
def original (c : ℕ) : ℕ := if c < inv.frictionIdx then c else c + 1

/-- Every retained variable has its block of the full matrix at its new number. -/
def Retained (small full : BlockCopy.Rows α) : Prop :=
  ∀ c < inv.numVars - 1, ∀ r < inv.hdim,
    small.row (c * inv.hdim + r) = full.row (inv.original c * inv.hdim + r)

/-- What reducing and injecting are for: the reduction goes through, ensemble and
`hu_obs` have the retained blocks in the same places, an injected analysis has its blocks
in the full matrix next to the old friction, and reducing and injecting changes
nothing. -/
def RoundTrip (α β : Type) [Zero α] [Zero β] : Prop :=
  ∀ (F : BlockCopy.Rows α) (H : BlockCopy.Rows β), F.n = inv.nd → H.n = inv.nd → ∃ R O,
    inv.reduce F = .ok R ∧ inv.reduce H = .ok O ∧
    R.n = inv.ndNew ∧ inv.Retained R F ∧ O.n = inv.ndNew ∧ inv.Retained O H ∧
    (∀ G : BlockCopy.Rows α, G.n = inv.ndNew → ∃ A, inv.inject F G = .ok A ∧ A.n = inv.nd ∧
      inv.Retained G A ∧ ∀ r < inv.hdim,
        A.row (inv.frictionIdx * inv.hdim + r) = F.row (inv.frictionIdx * inv.hdim + r)) ∧
    ∃ A, inv.inject F R = .ok A ∧ A.n = inv.nd ∧ ∀ i < inv.nd, A.row i = F.row i

variable {inv}

lemma original_ne (c : ℕ) : inv.original c ≠ inv.frictionIdx := by
  rw [original]
  split_ifs <;> omega

lemma original_inj {c c' : ℕ} : inv.original c = inv.original c' ↔ c = c' := by
  rw [original, original]
  split_ifs <;> omega

lemma original_lt {c : ℕ} (hc : c < inv.numVars - 1) : inv.original c < inv.numVars := by
  have hlt : inv.frictionIdx < inv.numVars := inv.friction_lt
  rw [original]
  split_ifs <;> omega

/-- Every variable but the friction is retained. -/
lemma exists_original {m : ℕ} (hm : m < inv.numVars) (hne : m ≠ inv.frictionIdx) :
    ∃ c < inv.numVars - 1, inv.original c = m := by
  have hlt : inv.frictionIdx < inv.numVars := inv.friction_lt
  rcases Nat.lt_or_gt_of_ne hne with h | h
  · exact ⟨m, by omega, if_pos h⟩
  · exact ⟨m - 1, by omega, by rw [original, if_neg (by omega)]; omega⟩

lemma numVars_pos : 0 < inv.numVars := Nat.zero_lt_of_lt inv.friction_lt

/-- The index of a variable is where its number puts it. -/
lemma indexStart_eq {m : ℕ} {key : String} (h : inv.vecInputs[m]? = some key) :
    inv.indexStart key = .ok (m * inv.hdim) := by
  obtain ⟨hm, rfl⟩ := List.getElem?_eq_some_iff.mp h
  rw [indexStart, if_pos (List.getElem_mem hm), inv.nodup.idxOf_getElem m hm]

/-- Dropping the excluded numbers is erasing the friction. -/
lemma filter_zipIdx (l : List String) (k f : ℕ) :
    ((l.zipIdx k).filter fun (_, ii) => ii ∉ [k + f]).map Prod.fst = l.eraseIdx f := by
  induction l generalizing k f with
  | nil => rfl
  | cons key l ih =>
      rw [List.zipIdx_cons]
      cases f with
      | zero =>
          rw [List.filter_cons_of_neg (by simp), List.eraseIdx_cons_zero, List.filter_eq_self.mpr]
          · exact List.zipIdx_map_fst _ _
          · intro p hp
            have := List.le_snd_of_mem_zipIdx hp
            simp
            omega
      | succ f =>
          rw [List.filter_cons_of_pos (by simp), List.map_cons, List.eraseIdx_cons_succ]
          have h := ih (k + 1) f
          rw [Nat.add_right_comm] at h
          rw [← h]
          rfl

lemma vecInputsNew_eq : inv.vecInputsNew = inv.vecInputs.eraseIdx inv.frictionIdx := by
  have h := filter_zipIdx inv.vecInputs 0 inv.frictionIdx
  rwa [Nat.zero_add] at h

lemma length_vecInputsNew : inv.vecInputsNew.length = inv.numVars - 1 := by
  rw [vecInputsNew_eq, List.length_eraseIdx_of_lt inv.friction_lt]
  rfl

/-- The retained variable `c` under its name. -/
lemma vecInputsNew_getElem? (c : ℕ) :
    inv.vecInputsNew[c]? = inv.vecInputs[inv.original c]? := by
  rw [vecInputsNew_eq, List.getElem?_eraseIdx, original]
  split_ifs <;> rfl

/-! ### The loops are copies of blocks -/

/-- The blocks that the reduction copies, each to its own number. -/
def reduced (inv : Inversion) : List (ℕ × ℕ) :=
  ((List.range inv.numVars).filter (· ∉ inv.excludedIndices)).map fun ii => (ii, ii)

/-- The blocks that the injection copies, each to its number in the full state. -/
def injected (inv : Inversion) : List (ℕ × ℕ) :=
  (List.range (inv.numVars - 1)).map fun c => (inv.original c, c)

/-- **The reduction** copies every block but the friction's to its own number. -/
theorem reduce_eq_copyBlocks [Zero α] (F : BlockCopy.Rows α) : inv.reduce F =
    copyBlocks .valueError inv.hdim F inv.reduced { n := inv.ndNew, row := fun _ => 0 } := by
  rw [copyBlocks, reduced, List.foldlM_map, List.foldlM_filter]
  refine Keyed.foldlM_zipIdx (fun ii key hkey R => ?_) _
  simp only [decide_eq_true_eq]
  refine if_congr Iff.rfl ?_ rfl
  rw [indexStart_eq hkey]
  rfl

/-- **The injection** copies every block of the analysis to its number in the state. -/
theorem inject_eq_copyBlocks (F : BlockCopy.Rows α) {G : BlockCopy.Rows α} (hG : G.n = inv.ndNew) :
    inv.inject F G = copyBlocks .valueError inv.hdim G inv.injected F := by
  rw [copyBlocks, injected, List.foldlM_map, ← length_vecInputsNew]
  refine Keyed.foldlM_zipIdx (fun ii key hkey A => ?_) _
  have hii : ii < inv.numVars - 1 := by
    rw [← length_vecInputsNew]
    exact (List.getElem?_eq_some_iff.mp hkey).1
  -- the slice of the analysis is a whole block
  have hcut : ii * inv.hdim + inv.hdim ≤ G.n := by
    rw [hG, ndNew, ← Nat.succ_mul, Nat.mul_comm inv.hdim]
    exact Nat.mul_le_mul_right _ hii
  rw [vecInputsNew_getElem?] at hkey
  change (do
    let start ← inv.indexStart key
    A.setRows .valueError start (start + inv.hdim)
      (G.slice (ii * inv.hdim) (ii * inv.hdim + inv.hdim)) : Except RunError (BlockCopy.Rows α)) = _
  rw [indexStart_eq hkey, Rows.slice_eq_take hcut]
  rfl

/-! ### What the reduction leaves -/

lemma mem_reduced {p : ℕ × ℕ} :
    p ∈ inv.reduced ↔ p.1 < inv.numVars ∧ p.1 ≠ inv.frictionIdx ∧ p.2 = p.1 := by
  obtain ⟨d, s⟩ := p
  simp only [reduced, excludedIndices, List.mem_map, List.mem_filter, List.mem_range,
    List.mem_singleton, decide_eq_true_eq, Prod.mk.injEq]
  refine ⟨?_, fun ⟨hd, hne, hs⟩ => ⟨d, ⟨hd, hne⟩, rfl, hs.symm⟩⟩
  rintro ⟨ii, ⟨hlt, hne⟩, rfl, rfl⟩
  exact ⟨hlt, hne, rfl⟩

lemma nodup_reduced : (inv.reduced.map Prod.fst).Nodup := by
  rw [reduced, List.map_map]
  have hid : (Prod.fst ∘ fun ii : ℕ => (ii, ii)) = id := rfl
  rw [hid, List.map_id]
  exact List.nodup_range.filter _

/-- A block of a retained number fits into the reduced matrix unless it is the last one
and has more than one row. -/
lemma fits_ndNew {d : ℕ} :
    Fits inv.hdim inv.ndNew d ↔ d + 1 < inv.numVars ∨ inv.hdim = 1 := by
  have hpos := inv.hdim_pos
  have hv : 0 < inv.numVars := numVars_pos
  rw [Fits, ndNew, Nat.mul_comm inv.hdim, Nat.mul_le_mul_right_iff hpos]
  refine or_congr_left ?_
  omega

/-- **The reduction goes through** exactly if the friction is the last variable, or if
there is one entry a variable. -/
theorem reduce_ok_iff [Zero α] (F : BlockCopy.Rows α) : (∃ R, inv.reduce F = .ok R) ↔
    inv.frictionIdx + 1 = inv.numVars ∨ inv.hdim = 1 := by
  have hlt : inv.frictionIdx < inv.numVars := inv.friction_lt
  rw [reduce_eq_copyBlocks, copyBlocks_ok_iff inv.hdim_pos]
  refine ⟨fun h => ?_, fun h p hp => ?_⟩
  · -- the last variable, unless it is the friction, has to fit
    rcases Nat.lt_or_ge (inv.frictionIdx + 1) inv.numVars with hlast | hlast
    · have hfit := h (inv.numVars - 1, inv.numVars - 1)
        (mem_reduced.mpr ⟨by omega, by omega, rfl⟩)
      exact .inr ((fits_ndNew.mp hfit).resolve_left (by omega))
    · exact .inl (by omega)
  · obtain ⟨hp1, hpf, -⟩ := mem_reduced.mp hp
    refine fits_ndNew.mpr (h.imp_left fun hlast => ?_)
    omega

/-- The retained blocks are at their own numbers, as far as the rows go. -/
lemma reduce_row [Zero α] {F R : BlockCopy.Rows α} (hR : inv.reduce F = .ok R) {d r : ℕ}
    (hd : d < inv.numVars - 1) (hr : r < inv.hdim) : R.row (d * inv.hdim + r) =
      if d = inv.frictionIdx then 0 else F.row (d * inv.hdim + r) := by
  rw [reduce_eq_copyBlocks] at hR
  have hrow : d * inv.hdim + r < inv.ndNew := by
    have hmul := Nat.mul_le_mul_right inv.hdim (Nat.succ_le_of_lt hd)
    rw [Nat.succ_mul] at hmul
    rw [ndNew, Nat.mul_comm inv.hdim]
    omega
  split_ifs with hf
  · refine copyBlocks_row_of_ne hR hrow fun p hp => not_mem_block hr ?_
    exact hf ▸ (mem_reduced.mp hp).2.1
  · have hmem : (d, d) ∈ inv.reduced :=
      mem_reduced.mpr ⟨Nat.lt_of_lt_of_le hd (Nat.sub_le _ _), hf, rfl⟩
    exact copyBlocks_row hR nodup_reduced hmem hr hrow

lemma reduce_n [Zero α] {F R : BlockCopy.Rows α} (hR : inv.reduce F = .ok R) : R.n = inv.ndNew := by
  rw [reduce_eq_copyBlocks] at hR
  exact copyBlocks_n hR

/-! ### What the injection leaves -/

/-- A row of a variable is a row of the full state. -/
lemma row_lt_nd {m r : ℕ} (hm : m < inv.numVars) (hr : r < inv.hdim) :
    m * inv.hdim + r < inv.nd := by
  have hmul := Nat.mul_le_mul_right inv.hdim (Nat.succ_le_of_lt hm)
  rw [Nat.succ_mul] at hmul
  rw [nd]
  omega

/-- Every row of the full state is a row of a variable. -/
lemma exists_row {i : ℕ} (hi : i < inv.nd) :
    ∃ m < inv.numVars, ∃ r < inv.hdim, m * inv.hdim + r = i := by
  have hpos := inv.hdim_pos
  refine ⟨i / inv.hdim, Nat.div_lt_of_lt_mul (by rwa [Nat.mul_comm]), i % inv.hdim,
    Nat.mod_lt _ hpos, ?_⟩
  rw [Nat.mul_comm]
  exact Nat.div_add_mod i inv.hdim

/-- **The injection** never raises, puts every block of the analysis at its place in the
full state, and keeps the friction. -/
theorem inject_spec (F G : BlockCopy.Rows α) (hF : F.n = inv.nd) (hG : G.n = inv.ndNew) :
    ∃ A, inv.inject F G = .ok A ∧ A.n = inv.nd ∧ inv.Retained G A ∧ ∀ r < inv.hdim,
      A.row (inv.frictionIdx * inv.hdim + r) = F.row (inv.frictionIdx * inv.hdim + r) := by
  have hmem : ∀ p ∈ inv.injected, ∃ c < inv.numVars - 1, p = (inv.original c, c) := by
    intro p hp
    obtain ⟨c, hc, rfl⟩ := List.mem_map.mp hp
    exact ⟨c, List.mem_range.mp hc, rfl⟩
  have hfits : ∀ p ∈ inv.injected, Fits inv.hdim F.n p.1 := by
    intro p hp
    obtain ⟨c, hc, rfl⟩ := hmem p hp
    rw [hF]
    exact .inl (Nat.mul_le_mul_right _ (original_lt hc))
  have hnodup : (inv.injected.map Prod.fst).Nodup := by
    rw [injected, List.map_map]
    exact (List.nodup_map_iff fun a b => original_inj.mp).mpr List.nodup_range
  rw [inject_eq_copyBlocks F hG]
  obtain ⟨A, hA⟩ := (copyBlocks_ok_iff (e := RunError.valueError) (S := G) inv.hdim_pos).mpr hfits
  refine ⟨A, hA, (copyBlocks_n hA).trans hF, fun c hc r hr => ?_, fun r hr => ?_⟩
  · have hp : (inv.original c, c) ∈ inv.injected :=
      List.mem_map.mpr ⟨c, List.mem_range.mpr hc, rfl⟩
    exact (copyBlocks_row hA hnodup hp hr (hF ▸ row_lt_nd (original_lt hc) hr)).symm
  · refine copyBlocks_row_of_ne hA (hF ▸ row_lt_nd inv.friction_lt hr) fun p hp => ?_
    obtain ⟨c, -, rfl⟩ := hmem p hp
    exact not_mem_block hr (original_ne c)

/-! ### The round trip -/

/-- With the friction last, the reduction leaves the retained blocks at their places. -/
lemma retained_reduce [Zero α] (hlast : inv.frictionIdx + 1 = inv.numVars) {F R : BlockCopy.Rows α}
    (hR : inv.reduce F = .ok R) : inv.Retained R F := by
  intro c hc r hr
  have hcf : c < inv.frictionIdx := by omega
  rw [reduce_row hR hc hr, if_neg hcf.ne, original, if_pos hcf]

/-- **Round trip.** Reducing and injecting do what they are for exactly if the friction is
the last variable. -/
theorem roundTrip_iff [Zero α] [Nontrivial α] [Zero β] :
    inv.RoundTrip α β ↔ inv.frictionIdx + 1 = inv.numVars := by
  refine ⟨fun h => ?_, fun hlast F H hF hH => ?_⟩
  · obtain ⟨a, ha⟩ := exists_ne (0 : α)
    obtain ⟨R, -, hR, -, -, hret, -⟩ := h ⟨inv.nd, fun _ => a⟩ ⟨inv.nd, fun _ => 0⟩ rfl rfl
    by_contra hne
    -- the block after the friction should be at the friction's number, where nothing is put
    have hlt : inv.frictionIdx < inv.numVars - 1 := by
      have := inv.friction_lt
      rw [numVars] at hne ⊢
      omega
    have hrow := reduce_row hR hlt inv.hdim_pos
    rw [if_pos rfl, hret _ hlt 0 inv.hdim_pos] at hrow
    exact ha hrow
  · obtain ⟨R, hR⟩ := (reduce_ok_iff F).mpr (.inl hlast)
    obtain ⟨O, hO⟩ := (reduce_ok_iff H).mpr (.inl hlast)
    refine ⟨R, O, hR, hO, reduce_n hR, retained_reduce hlast hR, reduce_n hO,
      retained_reduce hlast hO, fun G hG => inject_spec F G hF hG, ?_⟩
    obtain ⟨A, hA, hn, hret, hfric⟩ := inject_spec F R hF (reduce_n hR)
    refine ⟨A, hA, hn, fun i hi => ?_⟩
    obtain ⟨m, hm, r, hr, rfl⟩ := exists_row hi
    by_cases hmf : m = inv.frictionIdx
    · rw [hmf, hfric r hr]
    · obtain ⟨c, hc, rfl⟩ := exists_original hm hmf
      rw [← hret c hc r hr, retained_reduce hlast hR c hc r hr]

/-- Bed and friction with two entries each; the friction is variable `f`. -/
def bedAndFriction (f : ℕ) (hf : f < 2) : Inversion where
  vecInputs := if f = 0 then ["friction", "bed"] else ["bed", "friction"]
  hdim := 2
  frictionIdx := f
  nodup := by split_ifs <;> simp
  hdim_pos := Nat.two_pos
  friction_lt := by split_ifs <;> exact hf

/-- With the friction second the round trip holds. -/
theorem roundTrip_iff_frictionLast :
    (bedAndFriction 1 Nat.one_lt_two).RoundTrip ℚ ℚ ↔ 1 + 1 = 2 :=
  roundTrip_iff

/-- With the friction first the block of the bed starts where the reduced matrix ends. -/
theorem not_roundTrip_frictionFirst :
    ¬ (bedAndFriction 0 Nat.two_pos).RoundTrip ℚ ℚ := by
  intro h
  obtain ⟨R, -, hR, -⟩ := h ⟨4, fun _ => 1⟩ ⟨4, fun _ => 1⟩ rfl rfl
  rcases (reduce_ok_iff _).mp ⟨R, hR⟩ with hlast | hone
  · exact absurd hlast (by decide)
  · exact absurd hone (by decide)

end Inversion

/-! ### The settings of the driver -/

namespace PartialConfig

variable (cfg : PartialConfig)

/-- The layout of the state under the settings of the driver. -/
def inversion : Inversion where
  vecInputs := cfg.vecInputs
  hdim := cfg.hdim
  frictionIdx := cfg.frictionIdx
  nodup := cfg.nodup
  hdim_pos := cfg.hdim_pos
  friction_lt := cfg.friction_lt

/-- The variables that an inversion leaves to the analysis. -/
lemma currentInputs_eq_vecInputsNew (h : cfg.inversionFlag) :
    cfg.currentInputs = cfg.inversion.vecInputsNew := by
  rw [currentInputs, if_pos h, Inversion.vecInputsNew_eq]
  rfl

/-- The check of the analysis branch is whether the reduction goes through. -/
theorem reduce_ok_iff_reductionFits {α : Type} [Zero α] (F : BlockCopy.Rows α) :
    (∃ R, cfg.inversion.reduce F = .ok R) ↔ cfg.reductionFits := by
  rw [Inversion.reduce_ok_iff, reductionFits_iff]
  rfl

end PartialConfig

end Icesee
