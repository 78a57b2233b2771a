import NpuArc.Engines.Block
import NpuArc.Engines.Transfer

/-!
# Engines with a stationary operand

One engine keeps the results in its array and streams the weights, the other one keeps the inputs.
-/

namespace NpuArc

namespace Engines

/-- An output-stationary systolic array. -/
structure OutputStationaryEngine extends MacEngine

namespace OutputStationaryEngine

variable (e : OutputStationaryEngine) (weightDma : ℚ) (m k n : ℕ)

/-- The cycles of a tile. -/
def perTileCompute : ℕ :=
  let mTiles := m ⌈/⌉ e.height
  let lastMRows := m - (mTiles - 1) * e.height
  let lastMRows := if lastMRows = 0 then e.height else lastMRows
  (mTiles - 1) * (e.height + e.reduceCycles) + (lastMRows + e.reduceCycles)

/-- The cycles of the computation of a product. -/
def totalComputeCycles : ℕ := e.perTileCompute m * e.totalTiles k n

/-- The cycles of the raw bytes of a product. -/
def rawDmaFloor : ℤ := MacEngine.rawCycles (e.rawBytes m k n) e.bwRaw

/-- The fields of the estimate of a product whose weights are loaded in some cycles. -/
def fields : ResultFields :=
  let weightBytes := k * n * e.wBits / 8
  let totalDmaCycles := weightDma + e.seqCycles (m * k * e.aBits / 8)
  let totalComputeCycles := e.totalComputeCycles m k n
  let totalMacs := m * k * n
  let ideal := e.idealCycles totalMacs
  let totalCycles := max (max (totalComputeCycles : ℤ) ideal) (e.rawDmaFloor m k n)
  { computeCycles := totalComputeCycles
    dmaCycles := totalComputeCycles
    totalCycles := totalCycles
    utilization := MacEngine.utilizationOf ideal totalCycles
    macCount := totalMacs
    opCount := totalMacs * 2
    idealComputeCycles := ideal
    rawDmaCycles := e.rawDmaFloor m k n
    numTiles := e.totalTiles k n
    weightBytes := weightBytes
    bottleneck := if totalComputeCycles < totalDmaCycles then "dma" else "compute" }

/-- Estimate a product. -/
def estimate : Except Failure EngineResult := do
  let weightDma ← e.weightDmaCycles (k * n * e.wBits / 8)
  EngineResult.new (e.fields weightDma m k n)

/-- The cycles of the computation of a pair, in a single pass of rows. -/
def pairCompute : ℕ := 2 * (e.height + e.reduceCycles) * e.totalTiles k n

/-- The cycles of the transfers of a pair. -/
def pairDmaCycles : ℚ := weightDma + e.seqCycles (m * k * e.aBits / 8)

/-- The fields of the estimate of a pair whose weights are loaded in some cycles. -/
def pairFields : ResultFields :=
  let weightBytes := 2 * k * n * e.wBits / 8
  let totalDmaCycles := e.pairDmaCycles weightDma m k
  let rawDmaCycles := ⌊totalDmaCycles⌋
  let totalComputeCycles := e.pairCompute k n
  let totalCycles := max (totalComputeCycles : ℤ) rawDmaCycles
  let totalMacs := m * k * n * 2
  let ideal := e.idealCycles totalMacs
  { computeCycles := totalComputeCycles
    dmaCycles := rawDmaCycles
    totalCycles := totalCycles
    utilization := MacEngine.utilizationOf ideal totalCycles
    macCount := totalMacs
    opCount := totalMacs * 2
    idealComputeCycles := ideal
    rawDmaCycles := rawDmaCycles
    numTiles := e.totalTiles k n
    weightBytes := weightBytes
    bottleneck := if totalComputeCycles < totalDmaCycles then "dma" else "compute" }

/-- Estimate a pair of products that share their activations. -/
def estimateWeightCachePair : Except Failure EngineResult := do
  let weightDma ← e.weightDmaCycles (2 * k * n * e.wBits / 8)
  EngineResult.new (e.pairFields weightDma m k n)

/-! ### The cycles of the estimates -/

variable {weightDma m k n}

/-- Each tile of rows is reduced once. -/
theorem perTileCompute_eq (hm : 0 < m) :
    e.perTileCompute m = (m ⌈/⌉ e.height) * e.reduceCycles + m := by
  have htiles := ceilDiv_pos hm e.height_pos
  have hlast := lastTile_pos hm e.height_pos
  unfold perTileCompute
  dsimp only
  rw [if_neg hlast.ne']
  obtain ⟨t, ht⟩ := Nat.exists_eq_add_of_lt htiles
  rw [Nat.zero_add] at ht
  rw [ht, Nat.add_sub_cancel] at hlast ⊢
  have hsplit : t * (e.height + e.reduceCycles) = t * e.height + t * e.reduceCycles := by ring
  have hsucc : (t + 1) * e.reduceCycles = t * e.reduceCycles + e.reduceCycles :=
    Nat.succ_mul _ _
  omega

theorem fields_valid (hm : 0 < m) (hk : 0 < k) (hn : 0 < n) :
    (e.fields weightDma m k n).Valid where
  totalCycles := le_max_of_le_left (le_max_of_le_left (Int.natCast_nonneg _))
  computeCycles := Int.natCast_nonneg _
  dmaCycles := Int.natCast_nonneg _
  idealComputeCycles := Int.natCast_nonneg _
  rawDmaCycles := MacEngine.rawCycles_nonneg _
  macCount := Nat.mul_pos (Nat.mul_pos hm hk) hn
  opCount := Nat.mul_pos (Nat.mul_pos (Nat.mul_pos hm hk) hn) two_pos

theorem estimate_returns (h : e.LoadAnswers (k * n * e.wBits / 8)) (hm : 0 < m) (hk : 0 < k)
    (hn : 0 < n) :
    Returns (e.estimate m k n) (e.fields (e.loadCycles (k * n * e.wBits / 8)) m k n) := by
  rw [estimate, e.weightDmaCycles_of_answers h]
  exact returns_new (e.fields_valid hm hk hn)

theorem estimate_of_not_answers (h : ¬ e.LoadAnswers (k * n * e.wBits / 8)) :
    e.estimate m k n = .error .zeroDivisionError := by
  rw [estimate, e.weightDmaCycles_of_not_answers h]
  rfl

theorem pairDmaCycles_nonneg (h : 0 ≤ weightDma) : 0 ≤ e.pairDmaCycles weightDma m k :=
  add_nonneg h (e.seqCycles_nonneg _)

theorem pairFields_valid (hdma : 0 ≤ weightDma) (hm : 0 < m) (hk : 0 < k) (hn : 0 < n) :
    (e.pairFields weightDma m k n).Valid where
  totalCycles := le_max_of_le_left (Int.natCast_nonneg _)
  computeCycles := Int.natCast_nonneg _
  dmaCycles := Int.floor_nonneg.mpr (e.pairDmaCycles_nonneg hdma)
  idealComputeCycles := Int.natCast_nonneg _
  rawDmaCycles := Int.floor_nonneg.mpr (e.pairDmaCycles_nonneg hdma)
  macCount := Nat.mul_pos (Nat.mul_pos (Nat.mul_pos hm hk) hn) two_pos
  opCount := Nat.mul_pos (Nat.mul_pos (Nat.mul_pos (Nat.mul_pos hm hk) hn) two_pos) two_pos

theorem pair_returns (h : e.LoadAnswers (2 * k * n * e.wBits / 8)) (hm : 0 < m) (hk : 0 < k)
    (hn : 0 < n) :
    Returns (e.estimateWeightCachePair m k n)
      (e.pairFields (e.loadCycles (2 * k * n * e.wBits / 8)) m k n) := by
  rw [estimateWeightCachePair, e.weightDmaCycles_of_answers h]
  exact returns_new (e.pairFields_valid (e.loadCycles_nonneg _) hm hk hn)

theorem pair_of_not_answers (h : ¬ e.LoadAnswers (2 * k * n * e.wBits / 8)) :
    e.estimateWeightCachePair m k n = .error .zeroDivisionError := by
  rw [estimateWeightCachePair, e.weightDmaCycles_of_not_answers h]
  rfl

end OutputStationaryEngine

/-! ### The input-stationary array

The activations of a tile stay in the array and the weights of their columns stream through it. -/

/-- An input-stationary systolic array. -/
structure InputStationaryEngine extends MacEngine

namespace InputStationaryEngine

variable (e : InputStationaryEngine) (m k n : ℕ)

/-- The cycles of a tile. -/
def perTileCompute : ℕ := k ⌈/⌉ e.height + e.height + e.width

/-- The bytes of the weights that stream through a tile. -/
def columnWeightBytes : ℕ := (k * min n e.width * e.wBits) ⌈/⌉ 8

/-- The bytes of the activations of a tile. -/
def fullActBytes : ℕ := (e.height * k * e.aBits) ⌈/⌉ 8

/-- The fields of the estimate of a product. -/
def fields : ResultFields :=
  let totalTiles := e.totalTiles m n
  let perTileCompute := e.perTileCompute k
  let perTileBytes := e.columnWeightBytes k n + e.fullActBytes k
  let perTileDma := e.seqCycles perTileBytes
  let total := ⌊MacEngine.pipelineCycles totalTiles perTileCompute perTileDma⌋
  let totalMacs := m * k * n
  let ideal := e.idealCycles totalMacs
  { computeCycles := perTileCompute * totalTiles
    dmaCycles := total - perTileCompute * totalTiles
    totalCycles := total
    utilization := MacEngine.utilizationOf ideal total
    macCount := totalMacs
    opCount := totalMacs * 2
    idealComputeCycles := ideal
    rawDmaCycles := MacEngine.rawCycles (e.rawBytes m k n) e.effBw
    numTiles := totalTiles
    weightBytes := totalTiles * perTileBytes
    bottleneck := if perTileDma < perTileCompute then "compute" else "dma" }

/-- Estimate a product. -/
def estimate : Except Failure EngineResult := EngineResult.new (e.fields m k n)

/-- The fields of the estimate of a pair. -/
def pairFields : ResultFields :=
  let totalTiles := e.totalTiles m n
  let perTileCompute := 2 * e.perTileCompute k
  let perTileBytes := 2 * e.columnWeightBytes k n + e.fullActBytes k
  let perTileDma := e.seqCycles perTileBytes
  let total := ⌊MacEngine.pipelineCycles totalTiles (perTileCompute : ℕ) perTileDma⌋
  let totalMacs := m * k * n * 2
  let ideal := e.idealCycles totalMacs
  { computeCycles := perTileCompute * totalTiles
    dmaCycles := total - perTileCompute * totalTiles
    totalCycles := total
    utilization := MacEngine.utilizationOf ideal total
    macCount := totalMacs
    opCount := totalMacs * 2
    idealComputeCycles := ideal
    rawDmaCycles := MacEngine.rawCycles (e.rawBytes m k n * 2) e.effBw
    numTiles := totalTiles
    weightBytes := totalTiles * perTileBytes
    bottleneck := if perTileDma < perTileCompute then "compute" else "dma" }

/-- Estimate a pair of products that share their activations. -/
def estimateWeightCachePair : Except Failure EngineResult :=
  EngineResult.new (e.pairFields m k n)

/-! ### The cycles of the estimates -/

/-- The estimate is that of a pipeline of tiles. -/
theorem fields_totalCycles :
    (e.fields m k n).totalCycles =
      ⌊pipelined (e.totalTiles m n) (e.perTileCompute k : ℚ)
        (e.seqCycles (e.columnWeightBytes k n + e.fullActBytes k))⌋ := by
  rw [fields, MacEngine.pipelineCycles_eq]

theorem pairFields_totalCycles :
    (e.pairFields m k n).totalCycles =
      ⌊pipelined (e.totalTiles m n) ((2 * e.perTileCompute k : ℕ) : ℚ)
        (e.seqCycles (2 * e.columnWeightBytes k n + e.fullActBytes k))⌋ := by
  rw [pairFields, MacEngine.pipelineCycles_eq]

variable {m k n}

theorem fields_valid (hm : 0 < m) (hk : 0 < k) (hn : 0 < n) : (e.fields m k n).Valid := by
  have hcompute : (e.perTileCompute k : ℤ) * e.totalTiles m n ≤
      (e.fields m k n).totalCycles := by
    rw [fields_totalCycles]
    exact mul_le_floor_pipelined (e.totalTiles_pos hm hn) (e.seqCycles_nonneg _)
  have hmacs : 0 < m * k * n := Nat.mul_pos (Nat.mul_pos hm hk) hn
  exact .of_compute_le rfl (by unfold fields; positivity) hcompute (Int.natCast_nonneg _)
    (MacEngine.rawCycles_nonneg _) hmacs rfl

theorem estimate_returns (hm : 0 < m) (hk : 0 < k) (hn : 0 < n) :
    Returns (e.estimate m k n) (e.fields m k n) :=
  returns_new (e.fields_valid hm hk hn)

theorem pairFields_valid (hm : 0 < m) (hk : 0 < k) (hn : 0 < n) :
    (e.pairFields m k n).Valid := by
  have hcompute : ((2 * e.perTileCompute k : ℕ) : ℤ) * e.totalTiles m n ≤
      (e.pairFields m k n).totalCycles := by
    rw [pairFields_totalCycles]
    exact mul_le_floor_pipelined (e.totalTiles_pos hm hn) (e.seqCycles_nonneg _)
  have hmacs : 0 < m * k * n * 2 := Nat.mul_pos (Nat.mul_pos (Nat.mul_pos hm hk) hn) two_pos
  exact .of_compute_le rfl (by unfold pairFields; positivity) hcompute (Int.natCast_nonneg _)
    (MacEngine.rawCycles_nonneg _) hmacs rfl

theorem pair_returns (hm : 0 < m) (hk : 0 < k) (hn : 0 < n) :
    Returns (e.estimateWeightCachePair m k n) (e.pairFields m k n) :=
  returns_new (e.pairFields_valid hm hk hn)

end InputStationaryEngine

end Engines

end NpuArc
