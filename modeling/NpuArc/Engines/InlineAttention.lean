import NpuArc.Engines.Creation

/-!
# Attention inside the array

The array with inline attention computes the scores of a head in tiles of queries and keys and its
outputs in tiles of queries and features. A tile takes the height of the array, so the reduction
over the features or the keys is free, and only the heads of the keys are counted. More work never
takes less time, but the time may be less than the multiply-accumulates of all heads take at the
peak.
-/

namespace NpuArc

namespace Engines

open Residency

namespace MacEngine

variable (e : MacEngine) {b b' : ℕ}

/-- The cycles in which the keys and the values are read. -/
def kvCycles (b : ℕ) : ℚ := e.dmaCycles b .random b false

theorem kvDramEfficiency_eq (hb : 0 < b) : e.kvDramEfficiency b =
    readEff (e.kvbufKb / 1024 / max ((b : ℚ) / (1024 * 1024)) 0.001) := by
  rw [kvDramEfficiency, if_neg hb.ne', readEff]

theorem kvDramEfficiency_pos (hb : 0 < b) : 0 < e.kvDramEfficiency b := by
  rw [e.kvDramEfficiency_eq hb]
  refine lt_of_lt_of_le (by norm_num) (le_readEff ?_)
  positivity

/-- More keys and values are read with a lower efficiency. -/
theorem kvDramEfficiency_anti (hb : 0 < b) (h : b ≤ b') :
    e.kvDramEfficiency b' ≤ e.kvDramEfficiency b := by
  have hcast : (b : ℚ) ≤ b' := by exact_mod_cast h
  rw [e.kvDramEfficiency_eq hb, e.kvDramEfficiency_eq (hb.trans_le h)]
  refine readEff_mono (by positivity) ?_
  gcongr

theorem kvCycles_of_pos (hb : 0 < b) : e.kvCycles b =
    if 0 < e.effBwKv * e.kvDramEfficiency b then
      b / (e.effBwKv * e.kvDramEfficiency b) + e.randomLatencyPenaltyCycles
    else 0 := by
  rw [kvCycles, dmaCycles, if_neg hb.ne']
  rfl

theorem kvCycles_nonneg : 0 ≤ e.kvCycles b := by
  rcases Nat.eq_zero_or_pos b with rfl | hb
  · exact le_rfl
  · rw [e.kvCycles_of_pos hb]
    split_ifs with hbw
    · exact add_nonneg (div_nonneg (Nat.cast_nonneg _) hbw.le) (Nat.cast_nonneg _)
    · exact le_rfl

/-- More keys and values take no less time. -/
theorem kvCycles_mono (h : b ≤ b') : e.kvCycles b ≤ e.kvCycles b' := by
  rcases Nat.eq_zero_or_pos b with rfl | hb
  · exact e.kvCycles_nonneg
  · have hb' := hb.trans_le h
    have hcast : (b : ℚ) ≤ b' := by exact_mod_cast h
    have heff := e.kvDramEfficiency_pos hb'
    have hanti := e.kvDramEfficiency_anti hb h
    rw [e.kvCycles_of_pos hb, e.kvCycles_of_pos hb']
    by_cases hbw : 0 < e.effBwKv
    · rw [if_pos (mul_pos hbw (e.kvDramEfficiency_pos hb)), if_pos (mul_pos hbw heff)]
      gcongr
    · have hnone : ∀ eff : ℚ, 0 < eff → ¬0 < e.effBwKv * eff := fun eff heff =>
        not_lt.mpr (mul_nonpos_of_nonpos_of_nonneg (not_lt.mp hbw) heff.le)
      rw [if_neg (hnone _ (e.kvDramEfficiency_pos hb)), if_neg (hnone _ heff)]

end MacEngine

/-- The sizes of an attention. -/
structure AttentionShape where
  seqQ : ℕ
  seqKv : ℕ
  headDim : ℕ
  numHeads : ℕ := 1
  numKvHeads : ℕ := 1

/-- The sizes are positive, and the heads are divided evenly among the heads of the keys. -/
structure AttentionShape.Valid (a : AttentionShape) : Prop where
  seqQ : 0 < a.seqQ
  seqKv : 0 < a.seqKv
  headDim : 0 < a.headDim
  numHeads : 0 < a.numHeads
  numKvHeads : 0 < a.numKvHeads
  groups : a.numKvHeads ∣ a.numHeads

/-- No size is smaller. -/
structure AttentionShape.Within (a b : AttentionShape) : Prop where
  seqQ : a.seqQ ≤ b.seqQ
  seqKv : a.seqKv ≤ b.seqKv
  headDim : a.headDim ≤ b.headDim
  numHeads : a.numHeads ≤ b.numHeads
  numKvHeads : a.numKvHeads ≤ b.numKvHeads

/-- The multiply-accumulates of all heads of the queries, in both products. -/
def AttentionShape.queryMacs (a : AttentionShape) : ℕ :=
  2 * a.numHeads * a.seqQ * a.seqKv * a.headDim

/-- The array with inline attention and the cycles of a softmax beside those of a tile. -/
structure InlineAttentionEngine extends FsaEngine where
  softmaxOverhead : ℕ

namespace InlineAttentionEngine

/-- The engine of a configuration for a graph. -/
def create (py : Builtins) (c : HardwareConfig) (graph : WorkloadGraph)
    (fsaSoftmaxOverhead : Option ℕ) : Except Failure InlineAttentionEngine :=
  (MacEngine.init py c graph).map fun e =>
    { toMacEngine := e, softmaxOverhead := fsaSoftmaxOverhead.getD 5 }

variable (e : InlineAttentionEngine) (a b : AttentionShape)

/-- The tiles of the scores. -/
def tilesP1 : ℕ := ((a.seqQ + e.height - 1) / e.height) * ((a.seqKv + e.width - 1) / e.width)

/-- The tiles of the outputs. -/
def tilesP2 : ℕ := ((a.seqQ + e.height - 1) / e.height) * ((a.headDim + e.width - 1) / e.width)

/-- The cycles of the scores. -/
def phase1Cycles : ℕ :=
  if 0 < e.tilesP1 a then e.tilesP1 a * (e.height + e.softmaxOverhead) else 0

/-- The cycles of the outputs. -/
def phase2Cycles : ℕ := if 0 < e.tilesP2 a then e.tilesP2 a * (e.height + 3) else 0

/-- The cycles of the computation. -/
def totalCompute : ℕ := (e.phase1Cycles a + e.phase2Cycles a) * a.numKvHeads

/-- The bytes of an element. -/
def elemBytes : ℕ := e.aBits / 8

/-- The bytes of the keys and of the values. -/
def kvDmaBytes : ℕ := a.numKvHeads * a.seqKv * a.headDim * e.elemBytes * 2

/-- The bytes of the queries. -/
def qDmaBytes : ℕ := a.numHeads * a.seqQ * a.headDim * e.elemBytes

/-- The cycles of the transfers. -/
def attentionDma : ℚ := e.kvCycles (e.kvDmaBytes a) + e.seqCycles (e.qDmaBytes a)

/-- The fields of the estimate of an attention. -/
def attentionFields : ResultFields :=
  let macCount := a.numKvHeads * a.seqQ * a.seqKv * a.headDim +
    a.numKvHeads * a.seqQ * a.headDim * a.seqKv
  let dmaCycles := e.attentionDma a
  let totalCycles : ℤ := max (e.totalCompute a : ℤ) ⌊dmaCycles⌋
  { computeCycles := e.totalCompute a
    dmaCycles := ⌊dmaCycles⌋
    totalCycles := totalCycles
    utilization :=
      if 0 < totalCycles then macCount / (e.peakMacsPerCycle * (max totalCycles 1 : ℤ)) else 0
    macCount := macCount
    opCount := macCount * 2
    idealComputeCycles := e.idealCycles macCount
    rawDmaCycles := MacEngine.rawCycles (e.kvDmaBytes a + e.qDmaBytes a) e.effBw
    numTiles := e.tilesP1 a + e.tilesP2 a
    weightBytes := 0
    bottleneck := if dmaCycles ≤ e.totalCompute a then "compute" else "dma" }

/-- Estimate an attention. -/
def estimateAttention : Except Failure EngineResult := EngineResult.new (e.attentionFields a)

/-! ### More work takes no less time -/

variable {a b}

theorem totalCompute_mono (h : a.Within b) : e.totalCompute a ≤ e.totalCompute b := by
  have htiles : ∀ {x y : ℕ} (side : ℕ), x ≤ y → (x + side - 1) / side ≤ (y + side - 1) / side :=
    fun side hle => Nat.div_le_div_right (by omega)
  have hguard : ∀ tiles cycles : ℕ, (if 0 < tiles then tiles * cycles else 0) = tiles * cycles := by
    intro tiles cycles
    split_ifs with hpos
    · rfl
    · rw [Nat.eq_zero_of_not_pos hpos, Nat.zero_mul]
  have hp1 : e.tilesP1 a ≤ e.tilesP1 b :=
    Nat.mul_le_mul (htiles _ h.seqQ) (htiles _ h.seqKv)
  have hp2 : e.tilesP2 a ≤ e.tilesP2 b :=
    Nat.mul_le_mul (htiles _ h.seqQ) (htiles _ h.headDim)
  unfold totalCompute phase1Cycles phase2Cycles
  rw [hguard, hguard, hguard, hguard]
  exact Nat.mul_le_mul (Nat.add_le_add (Nat.mul_le_mul_right _ hp1) (Nat.mul_le_mul_right _ hp2))
    h.numKvHeads

theorem attentionDma_mono (h : a.Within b) : e.attentionDma a ≤ e.attentionDma b := by
  have hkv : e.kvDmaBytes a ≤ e.kvDmaBytes b := Nat.mul_le_mul_right _ (Nat.mul_le_mul_right _
    (Nat.mul_le_mul (Nat.mul_le_mul h.numKvHeads h.seqKv) h.headDim))
  have hq : e.qDmaBytes a ≤ e.qDmaBytes b := Nat.mul_le_mul_right _
    (Nat.mul_le_mul (Nat.mul_le_mul h.numHeads h.seqQ) h.headDim)
  exact add_le_add (e.kvCycles_mono hkv)
    ((MacEngine.Faster.refl e.toMacEngine).seqCycles_le hq)

theorem attention_totalCycles_mono (h : a.Within b) :
    (e.attentionFields a).totalCycles ≤ (e.attentionFields b).totalCycles :=
  max_le_max (by exact_mod_cast e.totalCompute_mono h) (Int.floor_mono (e.attentionDma_mono h))

/-! ### The compute floor -/

variable (a)

/-- The time covers the multiply-accumulates of all heads at the peak, and the utilization is a
share. -/
structure MeetsAttentionFloor (r : ResultFields) : Prop where
  floor : (a.queryMacs : ℚ) / e.peakMacsPerCycle ≤ r.totalCycles
  utilization : 0 ≤ r.utilization ∧ r.utilization ≤ 1

/-- The ideal cycles of all heads are no more than the computation of the tiles, or no more than the
transfers. -/
def CoversQueryMacs : Prop :=
  e.idealCycles a.queryMacs ≤ e.totalCompute a ∨
    (e.idealCycles a.queryMacs : ℤ) ≤ ⌊e.attentionDma a⌋

variable {a}

theorem attentionDma_nonneg : 0 ≤ e.attentionDma a :=
  add_nonneg e.kvCycles_nonneg (e.seqCycles_nonneg _)

theorem attentionFields_valid (ha : a.Valid) : (e.attentionFields a).Valid := by
  have hmacs : 0 < a.numKvHeads * a.seqQ * a.seqKv * a.headDim :=
    Nat.mul_pos (Nat.mul_pos (Nat.mul_pos ha.numKvHeads ha.seqQ) ha.seqKv) ha.headDim
  have hdma : 0 ≤ ⌊e.attentionDma a⌋ := Int.floor_nonneg.mpr e.attentionDma_nonneg
  exact
    { totalCycles := le_max_of_le_right hdma
      computeCycles := Int.natCast_nonneg _
      dmaCycles := hdma
      idealComputeCycles := Int.natCast_nonneg _
      rawDmaCycles := MacEngine.rawCycles_nonneg _
      macCount := Nat.add_pos_left hmacs _
      opCount := Nat.mul_pos (Nat.add_pos_left hmacs _) two_pos }

theorem meetsAttentionFloor_fields_iff (ha : a.Valid) :
    e.MeetsAttentionFloor a (e.attentionFields a) ↔ e.CoversQueryMacs a := by
  have hvalid := e.attentionFields_valid ha
  have hfloor : (a.queryMacs : ℚ) / e.peakMacsPerCycle ≤ (e.attentionFields a).totalCycles ↔
      e.CoversQueryMacs a := by
    rw [e.div_peak_le_iff hvalid.totalCycles]
    exact le_max_iff.trans (or_congr_left Nat.cast_le)
  refine ⟨fun h => hfloor.mp h.floor, fun h => ⟨hfloor.mpr h, ?_⟩⟩
  have hpeak : (0 : ℚ) < e.peakMacsPerCycle := by exact_mod_cast e.peakMacsPerCycle_pos
  have hqueries : 0 < a.queryMacs := Nat.mul_pos (Nat.mul_pos (Nat.mul_pos
    (Nat.mul_pos two_pos ha.numHeads) ha.seqQ) ha.seqKv) ha.headDim
  have hcovers := hfloor.mpr h
  have htotalℚ : (0 : ℚ) < (e.attentionFields a).totalCycles :=
    lt_of_lt_of_le (div_pos (by exact_mod_cast hqueries) hpeak) hcovers
  have htotal : 0 < (e.attentionFields a).totalCycles := by exact_mod_cast htotalℚ
  have hmacs : (e.attentionFields a).macCount ≤ a.queryMacs := by
    have hheads := Nat.le_of_dvd ha.numHeads ha.groups
    calc (e.attentionFields a).macCount
        = 2 * a.numKvHeads * a.seqQ * a.seqKv * a.headDim := by
          unfold attentionFields
          ring
      _ ≤ a.queryMacs := by
          unfold AttentionShape.queryMacs
          gcongr
  have hutilization : (e.attentionFields a).utilization = (e.attentionFields a).macCount /
      (e.peakMacsPerCycle * (e.attentionFields a).totalCycles) := by
    have hvalue : (e.attentionFields a).utilization = if 0 < (e.attentionFields a).totalCycles then
        ((e.attentionFields a).macCount : ℚ) /
          (e.peakMacsPerCycle * (max (e.attentionFields a).totalCycles 1 : ℤ)) else 0 := rfl
    rw [hvalue, if_pos htotal, max_eq_left htotal]
  rw [hutilization]
  refine ⟨by positivity, (div_le_one (mul_pos hpeak htotalℚ)).mpr ?_⟩
  rw [div_le_iff₀' hpeak] at hcovers
  exact le_trans (by exact_mod_cast hmacs) hcovers

/-- One query and eight keys on an array of eight by eight units. -/
def smallAttention (numHeads : ℕ) : AttentionShape :=
  { seqQ := 1, seqKv := 8, headDim := 8, numHeads := numHeads }

theorem smallAttention_valid {numHeads : ℕ} (hheads : 0 < numHeads) :
    (smallAttention numHeads).Valid where
  seqQ := Nat.one_pos
  seqKv := Nat.succ_pos 7
  headDim := Nat.succ_pos 7
  numHeads := hheads
  numKvHeads := Nat.one_pos
  groups := one_dvd _

end InlineAttentionEngine

end Engines

end NpuArc
