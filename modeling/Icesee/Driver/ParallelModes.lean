import Icesee.Driver.FullMoments
import Icesee.Driver.Partial
import Icesee.Store.StepWriters

/-!
The two parallel modes on one run.

The partial mode makes one `X5` on the root and updates row chunks of any sizes; the full mode
makes `X5` on every rank from row windows, and reads and writes members in step files. For an
affine model the two drivers have the same ensembles at all times, as long as they inflate the
same rows and neither raises, relaxes or fixes any (`modes_agree`).
-/

namespace Icesee

open Matrix Counting Tiling

variable {m : ℕ}

/-- What the partial mode reads besides: its settings, the chunks of the rows, what the writer
reads, by step, and the slices before they are written. -/
structure PartialSide (c : FullCycle m) where
  cfg : PartialConfig
  ranks : ℕ
  cuts : Cuts c.nd ranks
  args : ℕ → PlainArgs c.nens
  fill : Recvbuf ℝ c.nens
  vecInputs_eq : cfg.vecInputs = c.vecInputs
  numStateVars_eq : cfg.numStateVars = c.numStateVars
  modelName_eq : ∀ k, (args k).modelName = cfg.modelName

noncomputable section

namespace PartialSide

variable {c : FullCycle m} (side : PartialSide c)

/-- An ensemble in a buffer on the root. -/
def toBuffer (A : Matrix (Fin c.nd) (Fin c.nens) ℝ) : Recvbuf ℝ c.nens :=
  ⟨c.nd, fun i => if h : i < c.nd then A ⟨i, h⟩ else 0⟩

/-- The ensemble of a buffer. -/
def ofBuffer (c : FullCycle m) (buf : Recvbuf ℝ c.nens) : Matrix (Fin c.nd) (Fin c.nens) ℝ :=
  of fun i => buf.row i

/-- The parameters of the full mode, with what is observed. -/
abbrev prm : UpdateParams ℝ := { c.prm with allObserved := side.cfg.allObserved }

/-- What the ranks compute from their chunks. -/
def analysisVec (km : ℕ) (ens : Recvbuf ℝ c.nens) : Recvbuf ℝ c.nens :=
  let X5 := enkfX5 c.svd (c.operator km) (ofBuffer c ens) fun i => some (c.huObs km i)
  ⟨c.nd, side.cuts.stack 0 fun r =>
    (side.prm.analysisEnkfUpdate X5 fun l => ens.row (side.cuts.cut r + l)).getD 0⟩

/-- The model and the filter, on buffers. The writer gets the slice of the step before. -/
def kernels : PartialKernels (Recvbuf ℝ c.nens) where
  fill := side.fill
  init := toBuffer c.initial
  forecast k ens := toBuffer (c.forecast k (ofBuffer c ens))
  analysis k km prior ens :=
    ((side.args (k + 1)).prepare prior (side.analysisVec km ens)).getD (side.analysisVec km ens)

/-- The factors of the inflation: every rank takes the rows behind the first block of
`enkfParamsStart` rows of its chunk for parameters. -/
def factor (i : Fin c.nd) : ℝ :=
  side.cuts.stack 1 (fun _ l => if side.prm.enkfParamsStart ≤ l then c.inflationFactor else 1) i

/-- The settings for which the modes agree: the EnKF in both, an analysis that is switched on
and goes through, no inversion, and the same rows inflated. -/
structure Agrees : Prop where
  enkf : c.filter = .EnKF
  global : side.cfg.globalAnalysis
  writes : side.cfg.AnalysisWrites
  no_inversion : side.cfg.inversionFlag = false
  factor_eq : side.factor = c.factor

variable {side}

lemma ofBuffer_toBuffer (A : Matrix (Fin c.nd) (Fin c.nens) ℝ) : ofBuffer c (toBuffer A) = A := by
  ext i j
  exact congrFun (dif_pos i.isLt) j

/-- The chunks together are inflated rows of the product. -/
lemma ofBuffer_analysisVec (km : ℕ) (ens : Recvbuf ℝ c.nens) :
    ofBuffer c (side.analysisVec km ens) =
      scaleRows side.factor (ofBuffer c ens * enkfX5 c.svd (c.operator km) (ofBuffer c ens)
        fun i => some (c.huObs km i)) := by
  have hne : side.prm.allObserved.length ≠ 0 := by
    simpa using side.cfg.observed_ne
  ext i j
  obtain ⟨i, hi⟩ := i
  obtain ⟨r, hr, l, hl, rfl⟩ := side.cuts.exists_block hi
  simp only [ofBuffer, analysisVec, of_apply, side.cuts.stack_apply _ _ hr hl]
  rw [UpdateParams.analysisEnkfUpdate, if_neg hne, Option.getD_some, scaleRows, of_apply, factor,
    side.cuts.stack_apply _ _ hr hl, inflateFrom]
  split_ifs with hl'
  · rfl
  · rw [mul_one]
    exact (add_sub_cancel _ _).symm

/-- Nothing is relaxed or fixed. -/
lemma ofBuffer_analysis (h : side.factor = c.factor) (k km : ℕ) (prior ens : Recvbuf ℝ c.nens) :
    ofBuffer c (side.kernels.analysis k km prior ens) = c.analysis km (ofBuffer c ens) := by
  have hkernel : side.kernels.analysis k km prior ens = side.analysisVec km ens := by
    show ((side.args (k + 1)).prepare prior (side.analysisVec km ens)).getD _ = _
    rw [PlainArgs.prepare_eq, Option.getD_some]
  rw [hkernel, ofBuffer_analysisVec, h, FullCycle.analysis]

/-- The ensembles of the partial mode are the trajectory of the full mode. -/
lemma ofBuffer_ideal (h : side.Agrees) {obs : ObsIndex} (hobs : ∀ k ∈ obs.times, 0 < k) (t : ℕ) :
    ofBuffer c (side.kernels.ideal obs t) = c.trajectory obs t := by
  induction t with
  | zero => exact ofBuffer_toBuffer _
  | succ k ih =>
      have hforecast : ofBuffer c (side.kernels.forecast k (side.kernels.ideal obs k)) =
          c.forecast k (c.trajectory obs k) := by
        rw [← ih]
        exact ofBuffer_toBuffer _
      have hmem : c.analysed obs k ↔ (k : ℤ) ∈ obs.times :=
        ⟨fun h => h.2.2, fun hk => ⟨h.enkf, by exact_mod_cast hobs k hk, hk⟩⟩
      rw [PartialKernels.ideal, FullCycle.trajectory, if_congr hmem rfl rfl]
      split_ifs with hk
      · rw [ofBuffer_analysis h.factor_eq, hforecast]
      · exact hforecast

/-- The settings of the row in the partial mode. -/
def stillConfig : PartialConfig where
  modelName := "model"
  filter := .EnKF
  globalAnalysis := true
  localAnalysis := false
  inversionFlag := false
  vecInputs := ["u"]
  numStateVars := 1
  hdim := 1
  frictionIdx := 0
  allObserved := ["u"]
  nodup := List.nodup_singleton _
  hdim_pos := Nat.one_pos
  friction_lt := Nat.one_pos
  observed_ne := List.cons_ne_nil _ _
  observed_mem _ h := h

lemma no_bed_u : ∀ vec ∈ ["u"], vec.toLower ∉ bedNames := by decide +kernel

lemma nodup_u : ["u"].Nodup := List.nodup_singleton _

lemma model_not_issm : "model".toLower ≠ "issm" := by decide +kernel

/-- The row on one rank. -/
def stillSide : PartialSide FullCycle.stillRow where
  cfg := stillConfig
  ranks := 1
  cuts := partitionCuts 1 1 Nat.one_pos
  args k := {
    timestep := k
    dt := 1
    sigQ := [1]
    index := oneNode ⟨["u"], nodup_u⟩
    nt := 3
    modelName := "model"
    no_bed := no_bed_u
    not_issm := model_not_issm
    no_inversion := rfl }
  fill := ⟨1, 0⟩
  vecInputs_eq := rfl
  numStateVars_eq := rfl
  modelName_eq _ := rfl

lemma agrees_stillSide : stillSide.Agrees where
  enkf := rfl
  global := rfl
  writes := ⟨rfl, rfl, fun h => absurd h (by decide), fun h => absurd h model_not_issm⟩
  no_inversion := rfl
  factor_eq := by
    rw [FullCycle.factor_eq_one (c := FullCycle.stillRow) rfl]
    funext i
    obtain ⟨i, hi⟩ := i
    obtain ⟨r, hr, l, hl, rfl⟩ := stillSide.cuts.exists_block hi
    rw [factor, stillSide.cuts.stack_apply _ _ hr hl]
    exact ite_self _

end PartialSide

end

end Icesee
