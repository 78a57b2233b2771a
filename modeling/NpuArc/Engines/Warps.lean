import NpuArc.Engines.Transfer

/-!
# The engines of warps

A tile of the array is divided into fragments, which are dispatched one after the other by the warp
engine. The group engine works on whole tiles, with a share of the fill and drain of a systolic array.
-/

namespace NpuArc

namespace Engines

/-- A warp engine with the cycles in which a fragment is dispatched. -/
structure WmmaEngine extends MacEngine where
  fragmentSerializationCycles : ℕ

namespace WmmaEngine

/-- The rows of a fragment. -/
def fragM : ℕ := 16

/-- The columns of a fragment. -/
def fragN : ℕ := 16

/-- The depth of a fragment. -/
def fragK : ℕ := 16

/-- The cycles in which a warp is synchronized. -/
def warpSyncCycles : ℕ := 32

/-- The cycles in which a fragment is multiplied. -/
def fragMacCycles : ℕ := 16

/-- The cycles before the transfer of a fragment. -/
def dmaStartupCycles : ℕ := 10

variable (e : WmmaEngine) (weightMultiplier opsMultiplier m k n : ℕ)

/-- The cycles of a fragment. -/
def perFragmentCompute : ℕ :=
  (e.fragmentSerializationCycles + warpSyncCycles + fragMacCycles) * opsMultiplier

/-- The fragments of a product. -/
def totalFragments (m k n : ℕ) : ℕ := (m ⌈/⌉ fragM) * (k ⌈/⌉ fragK) * (n ⌈/⌉ fragN)

/-- The tiles of a product. -/
def productTiles : ℕ := (m ⌈/⌉ e.height) * (k ⌈/⌉ e.height) * (n ⌈/⌉ e.width)

/-- The fragments of a tile. -/
def fragmentsPerTile : ℕ := totalFragments m k n / e.productTiles m k n

/-- The bytes of a tile. -/
def perTileBytes : ℕ := weightMultiplier * e.tileWeightBytes + e.tileActBytes m

/-- The cycles of the computation of a tile. -/
def perTileCompute : ℕ := e.fragmentsPerTile m k n * e.perFragmentCompute opsMultiplier

/-- The cycles of the transfers of a tile. -/
def perTileDma : ℚ :=
  (e.fragmentsPerTile m k n * dmaStartupCycles : ℕ) + e.seqCycles (e.perTileBytes weightMultiplier m)

/-- The cycles of the transfer of a fragment. They are only reported. -/
def perFragDma : Except Failure ℚ := do
  let share : ℚ := e.perTileBytes weightMultiplier m / (max (e.fragmentsPerTile m k n) 1 : ℕ)
  let transfer ← MacEngine.divide share e.effBwWeight
  return dmaStartupCycles + transfer

/-- The fields of an estimate. -/
def fields : ResultFields :=
  let totalTiles := e.productTiles m k n
  let perTileCompute := e.perTileCompute opsMultiplier m k n
  let perTileDma := e.perTileDma weightMultiplier m k n
  let total := ⌊MacEngine.pipelineCycles totalTiles perTileCompute perTileDma⌋
  let totalMacs := m * k * n * opsMultiplier
  let ideal := e.idealCycles totalMacs
  let computeCycles : ℤ := perTileCompute * totalTiles
  { computeCycles := computeCycles
    dmaCycles := total - computeCycles
    totalCycles := total
    utilization := MacEngine.utilizationOf ideal total
    macCount := totalMacs
    opCount := totalMacs * 2
    idealComputeCycles := ideal
    rawDmaCycles := MacEngine.rawCycles (e.rawBytes m k n) e.effBw
    numTiles := totalTiles
    weightBytes := totalTiles * e.perTileBytes weightMultiplier m
    bottleneck := if perTileDma < perTileCompute then "compute" else "dma" }

/-- Estimate with multipliers of the weights and of the operations. -/
def estimateWith : Except Failure EngineResult := do
  let _ ← e.perFragDma weightMultiplier m k n
  EngineResult.new (e.fields weightMultiplier opsMultiplier m k n)

/-- Estimate a product. -/
def estimate : Except Failure EngineResult := e.estimateWith 1 1 m k n

/-- Estimate a pair of products that share their activations. -/
def estimateWeightCachePair : Except Failure EngineResult := e.estimateWith 2 2 m k n

/-! ### The cycles of the estimates -/

/-- The estimate is that of a pipeline of tiles. -/
theorem fields_totalCycles :
    (e.fields weightMultiplier opsMultiplier m k n).totalCycles =
      ⌊pipelined (e.productTiles m k n) (e.perTileCompute opsMultiplier m k n : ℚ)
        (e.perTileDma weightMultiplier m k n)⌋ := by
  rw [fields, MacEngine.pipelineCycles_eq]

theorem perTileDma_nonneg : 0 ≤ e.perTileDma weightMultiplier m k n :=
  add_nonneg (Nat.cast_nonneg _) (e.seqCycles_nonneg _)

variable {weightMultiplier opsMultiplier m k n}

theorem productTiles_pos (hm : 0 < m) (hk : 0 < k) (hn : 0 < n) : 0 < e.productTiles m k n :=
  Nat.mul_pos (Nat.mul_pos (ceilDiv_pos hm e.height_pos) (ceilDiv_pos hk e.height_pos))
    (ceilDiv_pos hn e.width_pos)

theorem fields_valid (hops : 0 < opsMultiplier) (hm : 0 < m) (hk : 0 < k) (hn : 0 < n) :
    (e.fields weightMultiplier opsMultiplier m k n).Valid := by
  have hcompute : (e.perTileCompute opsMultiplier m k n : ℤ) * e.productTiles m k n ≤
      (e.fields weightMultiplier opsMultiplier m k n).totalCycles := by
    rw [fields_totalCycles]
    exact mul_le_floor_pipelined (e.productTiles_pos hm hk hn) (e.perTileDma_nonneg _ _ _ _)
  have hmacs : 0 < m * k * n * opsMultiplier :=
    Nat.mul_pos (Nat.mul_pos (Nat.mul_pos hm hk) hn) hops
  exact .of_compute_le rfl (by unfold fields; positivity) hcompute (Int.natCast_nonneg _)
    (MacEngine.rawCycles_nonneg _) hmacs rfl

/-- The transfer of a fragment divides by the bandwidth. -/
theorem estimateWith_returns (hbw : 0 < e.effBwWeight) (hops : 0 < opsMultiplier) (hm : 0 < m)
    (hk : 0 < k) (hn : 0 < n) :
    Returns (e.estimateWith weightMultiplier opsMultiplier m k n)
      (e.fields weightMultiplier opsMultiplier m k n) := by
  rw [estimateWith, perFragDma, MacEngine.divide, if_neg hbw.ne']
  exact returns_new (e.fields_valid hops hm hk hn)

theorem estimateWith_of_zero (hbw : e.effBwWeight = 0) :
    e.estimateWith weightMultiplier opsMultiplier m k n = .error .zeroDivisionError := by
  rw [estimateWith, perFragDma, MacEngine.divide, if_pos hbw]
  rfl

end WmmaEngine

/-! ### The group engine

Tiles have the shape of the array, and their fill and drain are a share of those of a systolic
array. The total is the longest of computation, ideal cycles, raw transfers and transfers. -/

/-- A group engine with its share of the fill and drain. -/
structure GmmaEngine extends MacEngine where
  pipelineScale : ℚ
  pipelineScale_pos : 0 < pipelineScale
  pipelineScale_le : pipelineScale ≤ 1

namespace GmmaEngine

variable (e : GmmaEngine) (weightDma : ℚ) (m k n : ℕ)

/-- The cycles of a tile. -/
def perTileCompute : ℕ := max 1 ⌈((e.height + m + e.width : ℕ) : ℚ) * e.pipelineScale⌉₊

/-- The bytes of the weights. -/
def weightBytes : ℕ := k * n * e.wBits / 8

/-- The cycles of the transfers of a product. -/
def totalDma : ℚ := weightDma + e.seqCycles (m * k * e.aBits / 8)

/-- The fields of the estimate of a product whose weights are loaded in some cycles. -/
def fields : ResultFields :=
  let totalTiles := e.totalTiles k n
  let totalDma := e.totalDma weightDma m k
  let totalCompute := e.perTileCompute m * totalTiles
  let rawDmaFloor := MacEngine.rawCycles (e.rawBytes m k n) e.bwRaw
  let totalDmaCeil := ⌈totalDma⌉
  let totalMacs := m * k * n
  let ideal := e.idealCycles totalMacs
  let totalCycles := max (max (max (totalCompute : ℤ) ideal) rawDmaFloor) totalDmaCeil
  { computeCycles := totalCompute
    dmaCycles := totalDmaCeil
    totalCycles := totalCycles
    utilization := MacEngine.utilizationOf ideal totalCycles
    macCount := totalMacs
    opCount := totalMacs * 2
    idealComputeCycles := ideal
    rawDmaCycles := rawDmaFloor
    numTiles := totalTiles
    weightBytes := e.weightBytes k n
    bottleneck := if totalCompute < totalDma then "dma" else "compute" }

/-- Estimate a product. -/
def estimate : Except Failure EngineResult := do
  let weightDma ← e.weightDmaCycles (e.weightBytes k n)
  EngineResult.new (e.fields weightDma m k n)

/-- The bytes of a tile of a pair. -/
def pairTileBytes : ℕ := 2 * e.tileWeightBytes + e.tileActBytes m

/-- The fields of the estimate of a pair. -/
def pairFields : ResultFields :=
  let totalTiles := e.totalTiles k n
  let perTileDmaRaw := e.seqCycles (e.pairTileBytes m)
  let perTileCompute := 2 * e.perTileCompute m
  let total := ⌊MacEngine.pipelineCycles totalTiles (perTileCompute : ℕ) perTileDmaRaw⌋
  let totalMacs := m * k * n * 2
  let ideal := e.idealCycles totalMacs
  let rawDmaFloor := MacEngine.rawCycles (e.rawBytes m k n * 2) e.bwRaw
  let totalDmaCeil := ⌈totalTiles * perTileDmaRaw⌉
  let total := max (max (max total ideal) rawDmaFloor) totalDmaCeil
  { computeCycles := perTileCompute * totalTiles
    dmaCycles := totalDmaCeil
    totalCycles := total
    utilization := MacEngine.utilizationOf ideal total
    macCount := totalMacs
    opCount := totalMacs * 2
    idealComputeCycles := ideal
    rawDmaCycles := rawDmaFloor
    numTiles := totalTiles
    weightBytes := totalTiles * e.pairTileBytes m
    bottleneck := if perTileCompute < perTileDmaRaw then "dma" else "compute" }

/-- Estimate a pair of products that share their activations. -/
def estimateWeightCachePair : Except Failure EngineResult :=
  EngineResult.new (e.pairFields m k n)

/-! ### The cycles of the estimates -/

theorem pairFields_totalCycles :
    (e.pairFields m k n).totalCycles =
      max (max (max
        ⌊pipelined (e.totalTiles k n) ((2 * e.perTileCompute m : ℕ) : ℚ)
          (e.seqCycles (e.pairTileBytes m))⌋
        (e.idealCycles (m * k * n * 2)))
        (MacEngine.rawCycles (e.rawBytes m k n * 2) e.bwRaw))
        ⌈e.totalTiles k n * e.seqCycles (e.pairTileBytes m)⌉ := by
  rw [pairFields, MacEngine.pipelineCycles_eq]

variable {weightDma m k n}

theorem totalDma_nonneg (h : 0 ≤ weightDma) : 0 ≤ e.totalDma weightDma m k :=
  add_nonneg h (e.seqCycles_nonneg _)

theorem fields_valid (hdma : 0 ≤ weightDma) (hm : 0 < m) (hk : 0 < k) (hn : 0 < n) :
    (e.fields weightDma m k n).Valid where
  totalCycles := le_max_of_le_left (le_max_of_le_left (le_max_of_le_left (Int.natCast_nonneg _)))
  computeCycles := Int.natCast_nonneg _
  dmaCycles := Int.ceil_nonneg (e.totalDma_nonneg hdma)
  idealComputeCycles := Int.natCast_nonneg _
  rawDmaCycles := MacEngine.rawCycles_nonneg _
  macCount := Nat.mul_pos (Nat.mul_pos hm hk) hn
  opCount := Nat.mul_pos (Nat.mul_pos (Nat.mul_pos hm hk) hn) two_pos

theorem estimate_returns (h : e.LoadAnswers (e.weightBytes k n)) (hm : 0 < m) (hk : 0 < k)
    (hn : 0 < n) :
    Returns (e.estimate m k n) (e.fields (e.loadCycles (e.weightBytes k n)) m k n) := by
  rw [estimate, e.weightDmaCycles_of_answers h]
  exact returns_new (e.fields_valid (e.loadCycles_nonneg _) hm hk hn)

theorem estimate_of_not_answers (h : ¬ e.LoadAnswers (e.weightBytes k n)) :
    e.estimate m k n = .error .zeroDivisionError := by
  rw [estimate, e.weightDmaCycles_of_not_answers h]
  rfl

theorem pairFields_valid (hm : 0 < m) (hk : 0 < k) (hn : 0 < n) :
    (e.pairFields m k n).Valid where
  totalCycles := le_max_of_le_left (le_max_of_le_left (le_max_of_le_right (Int.natCast_nonneg _)))
  computeCycles := by unfold pairFields; positivity
  dmaCycles := Int.ceil_nonneg (mul_nonneg (Nat.cast_nonneg _) (e.seqCycles_nonneg _))
  idealComputeCycles := Int.natCast_nonneg _
  rawDmaCycles := MacEngine.rawCycles_nonneg _
  macCount := Nat.mul_pos (Nat.mul_pos (Nat.mul_pos hm hk) hn) two_pos
  opCount := Nat.mul_pos (Nat.mul_pos (Nat.mul_pos (Nat.mul_pos hm hk) hn) two_pos) two_pos

theorem pair_returns (hm : 0 < m) (hk : 0 < k) (hn : 0 < n) :
    Returns (e.estimateWeightCachePair m k n) (e.pairFields m k n) :=
  returns_new (e.pairFields_valid hm hk hn)

end GmmaEngine

end Engines

end NpuArc
