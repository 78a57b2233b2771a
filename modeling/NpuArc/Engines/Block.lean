import NpuArc.Engines.Transfer

/-!
# The block engine

All multiply-accumulates of a tile fire at once. The rows of activations pass one after the other
and share one load of the weights. The longer of computation and transfers is the total.
-/

namespace NpuArc

namespace Engines

/-- The cycles in which weights and activations reach all units. -/
def broadcastSyncCycles : ℕ := 2

/-- The cycles of a reduction. -/
def accumulateCycles (wBits aBits : ℕ) : ℕ := max 1 (min 3 ((wBits + aBits) / 8 + 1))

/-- The cycles after the rows of a tile. -/
def MacEngine.reduceCycles (e : MacEngine) : ℕ :=
  broadcastSyncCycles + accumulateCycles e.wBits e.aBits

theorem MacEngine.one_le_reduceCycles (e : MacEngine) : 1 ≤ e.reduceCycles :=
  Nat.le_add_right_of_le one_le_two

/-- A block engine. -/
structure BlockEngine extends MacEngine

namespace BlockEngine

variable (e : BlockEngine) (weightDma : ℚ) (m k n : ℕ)

/-- The bytes of the weights. -/
def weightBytes : ℕ := k * n * e.wBits / 8

/-- The cycles of the transfers of a product. -/
def totalDmaCycles : ℚ :=
  let mTiles := m ⌈/⌉ e.height
  let actDmaCycles := m * e.seqCycles (k * e.aBits / 8)
  mTiles * weightDma + actDmaCycles

/-- The cycles of the computation of a product. -/
def totalCompute : ℕ := m * (e.height + e.reduceCycles) * e.totalTiles k n

/-- The fields of the estimate of a product whose weights are loaded in some cycles. -/
def fields : ResultFields :=
  let totalDmaCycles := e.totalDmaCycles weightDma m k
  let totalCompute := e.totalCompute m k n
  let totalCycles := max (totalCompute : ℚ) totalDmaCycles
  let totalMacs := m * k * n
  let ideal := e.idealCycles totalMacs
  { computeCycles := totalCompute
    dmaCycles := ⌊totalDmaCycles⌋
    totalCycles := ⌊totalCycles⌋
    utilization := MacEngine.utilizationOf ideal totalCycles
    macCount := totalMacs
    opCount := totalMacs * 2
    idealComputeCycles := ideal
    rawDmaCycles := MacEngine.rawCycles (e.rawBytes m k n) e.effBw
    numTiles := m * e.totalTiles k n
    weightBytes := e.weightBytes k n
    bottleneck := if totalCompute < totalDmaCycles then "dma" else "compute" }

/-- Estimate a product. -/
def estimate : Except Failure EngineResult := do
  let weightDma ← e.weightDmaCycles (e.weightBytes k n)
  EngineResult.new (e.fields weightDma m k n)

/-- The bytes of the weights of a pair. -/
def pairWeightBytes : ℕ := e.totalTiles k n * (2 * e.tileWeightBytes)

/-- The cycles of the transfers of a pair. -/
def pairDmaCycles : ℚ :=
  let tileActPerToken := (e.height * e.aBits) ⌈/⌉ 8
  let mTiles := m ⌈/⌉ e.height
  let weightDmaCycles := e.seqCycles (e.pairWeightBytes k n)
  let actDmaCycles := m * e.seqCycles (e.totalTiles k n * tileActPerToken)
  mTiles * weightDmaCycles + actDmaCycles

/-- The cycles of the computation of a pair. -/
def pairCompute : ℕ := m * (2 * e.reduceCycles) * e.totalTiles k n

/-- The fields of the estimate of a pair. -/
def pairFields : ResultFields :=
  let totalDmaCycles := e.pairDmaCycles m k n
  let totalCompute := e.pairCompute m k n
  let totalCycles := max (totalCompute : ℚ) totalDmaCycles
  let totalMacs := m * k * n * 2
  let ideal := e.idealCycles totalMacs
  { computeCycles := totalCompute
    dmaCycles := ⌊totalDmaCycles⌋
    totalCycles := ⌊totalCycles⌋
    utilization := MacEngine.utilizationOf ideal totalCycles
    macCount := totalMacs
    opCount := totalMacs * 2
    idealComputeCycles := ideal
    rawDmaCycles := MacEngine.rawCycles (e.rawBytes m k n * 2) e.effBw
    numTiles := m * e.totalTiles k n
    weightBytes := e.pairWeightBytes k n
    bottleneck := if totalCompute < totalDmaCycles then "dma" else "compute" }

/-- Estimate a pair of products that share their activations. -/
def estimateWeightCachePair : Except Failure EngineResult :=
  EngineResult.new (e.pairFields m k n)

/-! ### The cycles of the estimates -/

theorem totalDmaCycles_nonneg {weightDma : ℚ} (h : 0 ≤ weightDma) :
    0 ≤ e.totalDmaCycles weightDma m k := by
  have hact := e.seqCycles_nonneg (k * e.aBits / 8)
  unfold totalDmaCycles
  positivity

theorem pairDmaCycles_nonneg : 0 ≤ e.pairDmaCycles m k n := by
  have hact := e.seqCycles_nonneg (e.totalTiles k n * ((e.height * e.aBits) ⌈/⌉ 8))
  have hweight := e.seqCycles_nonneg (e.pairWeightBytes k n)
  unfold pairDmaCycles
  positivity

/-- The total is the longer of whole cycles of both. -/
theorem fields_totalCycles :
    (e.fields weightDma m k n).totalCycles =
      max (e.totalCompute m k n : ℤ) ⌊e.totalDmaCycles weightDma m k⌋ := by
  rw [← floor_max_intCast (α := ℚ), Int.cast_natCast]
  rfl

theorem pairFields_totalCycles :
    (e.pairFields m k n).totalCycles =
      max (e.pairCompute m k n : ℤ) ⌊e.pairDmaCycles m k n⌋ := by
  rw [← floor_max_intCast (α := ℚ), Int.cast_natCast]
  rfl

variable {weightDma m k n}

theorem fields_valid (hdma : 0 ≤ weightDma) (hm : 0 < m) (hk : 0 < k) (hn : 0 < n) :
    (e.fields weightDma m k n).Valid where
  totalCycles := by
    rw [fields_totalCycles]
    exact le_max_of_le_left (Int.natCast_nonneg _)
  computeCycles := Int.natCast_nonneg _
  dmaCycles := Int.floor_nonneg.mpr (e.totalDmaCycles_nonneg m k hdma)
  idealComputeCycles := Int.natCast_nonneg _
  rawDmaCycles := MacEngine.rawCycles_nonneg _
  macCount := Nat.mul_pos (Nat.mul_pos hm hk) hn
  opCount := Nat.mul_pos (Nat.mul_pos (Nat.mul_pos hm hk) hn) two_pos

theorem estimate_returns (h : e.LoadAnswers (e.weightBytes k n)) (hm : 0 < m) (hk : 0 < k)
    (hn : 0 < n) :
    Returns (e.estimate m k n) (e.fields (e.loadCycles (e.weightBytes k n)) m k n) := by
  rw [estimate, e.weightDmaCycles_of_answers h]
  exact returns_new (e.fields_valid (e.loadCycles_nonneg _) hm hk hn)

theorem estimate_of_not_answers (h : ¬ e.LoadAnswers (e.weightBytes k n)) :
    e.estimate m k n = .error .zeroDivisionError := by
  rw [estimate, e.weightDmaCycles_of_not_answers h]
  rfl

theorem pairFields_valid (hm : 0 < m) (hk : 0 < k) (hn : 0 < n) :
    (e.pairFields m k n).Valid where
  totalCycles := by
    rw [pairFields_totalCycles]
    exact le_max_of_le_left (Int.natCast_nonneg _)
  computeCycles := Int.natCast_nonneg _
  dmaCycles := Int.floor_nonneg.mpr (e.pairDmaCycles_nonneg m k n)
  idealComputeCycles := Int.natCast_nonneg _
  rawDmaCycles := MacEngine.rawCycles_nonneg _
  macCount := Nat.mul_pos (Nat.mul_pos (Nat.mul_pos hm hk) hn) two_pos
  opCount := Nat.mul_pos (Nat.mul_pos (Nat.mul_pos (Nat.mul_pos hm hk) hn) two_pos) two_pos

theorem pair_returns (hm : 0 < m) (hk : 0 < k) (hn : 0 < n) :
    Returns (e.estimateWeightCachePair m k n) (e.pairFields m k n) :=
  returns_new (e.pairFields_valid hm hk hn)

/-- The computation of a product takes at least its ideal cycles. -/
theorem idealCycles_le : e.idealCycles (m * k * n) ≤ e.totalCompute m k n := by
  have hrows : m ≤ m * (e.height + e.reduceCycles) :=
    Nat.le_mul_of_pos_right m (Nat.add_pos_left e.height_pos _)
  rw [Nat.mul_assoc]
  exact e.idealCycles_le_mul hrows (e.mul_le_totalTiles k n)

/-- The computation of a pair takes at least its ideal cycles. -/
theorem idealCycles_pair_le : e.idealCycles (m * k * n * 2) ≤ e.pairCompute m k n := by
  have hrows : m * 2 ≤ m * (2 * e.reduceCycles) :=
    Nat.mul_le_mul_left m (Nat.le_mul_of_pos_right 2 e.one_le_reduceCycles)
  rw [show m * k * n * 2 = m * 2 * (k * n) by ring]
  exact e.idealCycles_le_mul hrows (e.mul_le_totalTiles k n)

end BlockEngine

end Engines

end NpuArc
