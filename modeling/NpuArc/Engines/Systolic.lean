import NpuArc.Engines.Transfer

/-!
# The weight-stationary array

The weights of a tile are loaded into the array and activations stream through it. A pair of
products keeps both weights in the array and shares the activations.
-/

namespace NpuArc

namespace Engines

/-- A weight-stationary systolic array. -/
structure SystolicEngine extends MacEngine

namespace SystolicEngine

variable (e : SystolicEngine) (m k n : ℕ)

/-- The cycles in which all rows of activations pass a tile. -/
def perKtileCompute : ℕ :=
  let mTiles := max 1 ((m + e.height - 1) / e.height)
  let lastRows := m - (mTiles - 1) * e.height
  let lastRows := if lastRows = 0 then e.height else lastRows
  (mTiles - 1) * (2 * e.height + e.width) + (e.height + e.width + lastRows)

/-- The fields of the estimate of a product. -/
def fields : ResultFields :=
  let totalTiles := e.totalTiles k n
  let perTileCompute := e.perKtileCompute m
  let perTileBytes := e.tileWeightBytes + e.tileActBytes m
  let perTileDma := e.seqCycles perTileBytes
  let totalComputeCycles := MacEngine.pipelineCycles totalTiles perTileCompute perTileDma
  let totalMacs := m * k * n
  let idealCycles := e.idealCycles totalMacs
  let total := ⌊totalComputeCycles⌋
  let computeCycles : ℤ := perTileCompute * totalTiles
  { computeCycles := computeCycles
    dmaCycles := total - computeCycles
    totalCycles := total
    utilization := MacEngine.utilizationOf idealCycles totalComputeCycles
    macCount := totalMacs
    opCount := totalMacs * 2
    idealComputeCycles := idealCycles
    rawDmaCycles := MacEngine.rawCycles (e.rawBytes m k n) e.effBw
    numTiles := totalTiles
    weightBytes := totalTiles * perTileBytes
    bottleneck := if perTileDma < perTileCompute then "compute" else "dma" }

/-- Estimate a product. -/
def estimate : Except Failure EngineResult :=
  if m = 0 then
    .error (.valueError ("SystolicEngine.estimate requires M > 0, got " ++ toString m))
  else EngineResult.new (e.fields m k n)

/-- The bytes of a tile of a pair. -/
def dualBytes : ℕ := 2 * e.tileWeightBytes + e.tileActBytes m

/-- The cycles of a tile of a pair. -/
def dualCompute : ℕ := 2 * (m + e.width) + 1

/-- The cycles of a pair. -/
def pairCycles : ℚ :=
  let kTiles := k ⌈/⌉ e.height
  let nTiles := n ⌈/⌉ e.width
  let dualDma := e.seqCycles (e.dualBytes m)
  let dualCompute : ℚ := e.dualCompute m
  let fill : ℚ := e.height + e.width
  let drain : ℚ := m + e.height
  let bottleneck := max dualDma dualCompute
  let firstCold := dualDma + dualCompute
  let perKtile :=
    if 2 ≤ nTiles then fill + firstCold + (nTiles - 1) * bottleneck + drain
    else fill + firstCold + drain
  kTiles * perKtile

/-- The fields of the estimate of a pair. -/
def pairFields : ResultFields :=
  let totalDual := e.totalTiles k n
  let dualDma := e.seqCycles (e.dualBytes m)
  let dualCompute := e.dualCompute m
  let total := ⌊e.pairCycles m k n⌋
  let totalMacs := m * k * n * 2
  let ideal := e.idealCycles totalMacs
  { computeCycles := dualCompute * totalDual
    dmaCycles := total - dualCompute * totalDual
    totalCycles := total
    utilization := MacEngine.utilizationOf ideal total
    macCount := totalMacs
    opCount := totalMacs * 2
    idealComputeCycles := ideal
    rawDmaCycles := MacEngine.rawCycles (e.rawBytes m k n * 2) e.effBw
    numTiles := totalDual
    weightBytes := totalDual * e.dualBytes m
    bottleneck := if dualDma < dualCompute then "compute" else "dma" }

/-- Estimate a pair of products that share their activations. -/
def estimateWeightCachePair : Except Failure EngineResult :=
  EngineResult.new (e.pairFields m k n)

/-! ### The cycles of the estimates -/

variable {m k n}

/-- Each tile of rows fills and drains the array, and each row takes a cycle. -/
theorem perKtileCompute_eq (hm : 0 < m) :
    e.perKtileCompute m = (m ⌈/⌉ e.height) * (e.height + e.width) + m := by
  have htiles := ceilDiv_pos hm e.height_pos
  have hlast := lastTile_pos hm e.height_pos
  have hone : max 1 (m ⌈/⌉ e.height) = m ⌈/⌉ e.height := max_eq_right htiles
  unfold perKtileCompute
  dsimp only
  rw [← Nat.ceilDiv_eq_add_pred_div, hone, if_neg hlast.ne']
  obtain ⟨t, ht⟩ := Nat.exists_eq_add_of_lt htiles
  rw [Nat.zero_add] at ht
  rw [ht, Nat.add_sub_cancel] at hlast ⊢
  have hsplit : t * (2 * e.height + e.width) = t * e.height + t * (e.height + e.width) := by ring
  have hsucc : (t + 1) * (e.height + e.width) = t * (e.height + e.width) + (e.height + e.width) :=
    Nat.succ_mul _ _
  omega

/-- The computation of a product takes at least its ideal cycles. -/
theorem idealCycles_le (hm : 0 < m) :
    e.idealCycles (m * k * n) ≤ e.perKtileCompute m * e.totalTiles k n := by
  have hrows : m ≤ e.perKtileCompute m := by
    rw [e.perKtileCompute_eq hm]
    exact Nat.le_add_left _ _
  rw [Nat.mul_assoc]
  exact e.idealCycles_le_mul hrows (e.mul_le_totalTiles k n)

/-- The estimate is that of a pipeline of tiles. -/
theorem fields_totalCycles :
    (e.fields m k n).totalCycles =
      ⌊pipelined (e.totalTiles k n) (e.perKtileCompute m : ℚ)
        (e.seqCycles (e.tileWeightBytes + e.tileActBytes m))⌋ := by
  rw [fields, MacEngine.pipelineCycles_eq]

theorem fields_valid (hm : 0 < m) (hk : 0 < k) (hn : 0 < n) : (e.fields m k n).Valid := by
  have hcompute : ((e.perKtileCompute m : ℤ) * e.totalTiles k n) ≤
      (e.fields m k n).totalCycles := by
    rw [fields_totalCycles]
    exact mul_le_floor_pipelined (e.totalTiles_pos hk hn) (e.seqCycles_nonneg _)
  have hmacs : 0 < m * k * n := Nat.mul_pos (Nat.mul_pos hm hk) hn
  exact .of_compute_le rfl (by unfold fields; positivity) hcompute (Int.natCast_nonneg _)
    (MacEngine.rawCycles_nonneg _) hmacs rfl

theorem estimate_returns (hm : 0 < m) (hk : 0 < k) (hn : 0 < n) :
    Returns (e.estimate m k n) (e.fields m k n) := by
  rw [estimate, if_neg hm.ne']
  exact returns_new (e.fields_valid hm hk hn)

/-- The estimate of a pair, without its case of a single tile. -/
theorem pairCycles_eq (hn : 0 < n) :
    e.pairCycles m k n =
      ((k ⌈/⌉ e.height : ℕ) : ℚ) * (2 * e.height + e.width + m +
        pipelined (n ⌈/⌉ e.width) (e.dualCompute m : ℚ) (e.seqCycles (e.dualBytes m))) := by
  have htiles := ceilDiv_pos hn e.width_pos
  unfold pairCycles pipelined
  dsimp only
  split_ifs with h
  · rw [Nat.cast_pred htiles, max_comm]
    ring
  · rw [show n ⌈/⌉ e.width - 1 = 0 by omega, Nat.cast_zero]
    ring

theorem dualCompute_le_pairCycles (hn : 0 < n) :
    ((e.dualCompute m * e.totalTiles k n : ℕ) : ℚ) ≤ e.pairCycles m k n := by
  have hle := mul_compute_add_le_pipelined (ceilDiv_pos hn e.width_pos)
    (c := (e.dualCompute m : ℚ)) (d := e.seqCycles (e.dualBytes m))
  have hdma := e.seqCycles_nonneg (e.dualBytes m)
  have hfill : (0 : ℚ) ≤ 2 * e.height + e.width + m := by positivity
  have htiles : (0 : ℚ) ≤ (k ⌈/⌉ e.height : ℕ) := Nat.cast_nonneg _
  rw [e.pairCycles_eq hn, MacEngine.totalTiles]
  push_cast
  calc (e.dualCompute m : ℚ) * ((k ⌈/⌉ e.height : ℕ) * (n ⌈/⌉ e.width : ℕ))
      = (k ⌈/⌉ e.height : ℕ) * ((n ⌈/⌉ e.width : ℕ) * e.dualCompute m) := by ring
    _ ≤ _ := mul_le_mul_of_nonneg_left (by linarith) htiles

theorem pairFields_valid (hm : 0 < m) (hk : 0 < k) (hn : 0 < n) :
    (e.pairFields m k n).Valid := by
  have hcompute : ((e.dualCompute m : ℤ) * e.totalTiles k n) ≤
      (e.pairFields m k n).totalCycles := by
    refine Int.le_floor.mpr ?_
    exact_mod_cast e.dualCompute_le_pairCycles hn
  have hmacs : 0 < m * k * n * 2 := Nat.mul_pos (Nat.mul_pos (Nat.mul_pos hm hk) hn) two_pos
  exact .of_compute_le rfl (by unfold pairFields; positivity) hcompute (Int.natCast_nonneg _)
    (MacEngine.rawCycles_nonneg _) hmacs rfl

theorem pair_returns (hm : 0 < m) (hk : 0 < k) (hn : 0 < n) :
    Returns (e.estimateWeightCachePair m k n) (e.pairFields m k n) :=
  returns_new (e.pairFields_valid hm hk hn)

/-- The computation of a pair takes at least its ideal cycles. -/
theorem idealCycles_pair_le :
    e.idealCycles (m * k * n * 2) ≤ e.dualCompute m * e.totalTiles k n := by
  have hrows : 2 * m ≤ e.dualCompute m := by
    unfold dualCompute
    omega
  rw [show m * k * n * 2 = 2 * m * (k * n) by ring]
  exact e.idealCycles_le_mul hrows (e.mul_le_totalTiles k n)

end SystolicEngine

end Engines

end NpuArc
