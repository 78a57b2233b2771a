import NpuArc.Engines.Transfer

/-!
# The array with inline attention

Products pass the array as through a weight-stationary one. Transfers are divided by the
efficiency of the weights, or by a hundredth if these are cached.
-/

namespace NpuArc

namespace Engines

/-- A systolic array with inline attention. -/
structure FsaEngine extends MacEngine

namespace FsaEngine

variable (e : FsaEngine) (m k n : ℕ)

/-- The tiles of a product. -/
def productTiles : ℕ :=
  let tilesK := max 1 ((k + e.height - 1) / e.height)
  let tilesM := max 1 ((m + e.height - 1) / e.height)
  let tilesN := max 1 ((n + e.width - 1) / e.width)
  tilesK * tilesM * tilesN

/-- The cycles of the computation of a product. -/
def computeCycles : ℕ := e.productTiles m k n * (e.height + m + e.width)

/-- The bytes of the weights. -/
def weightBytes : ℕ := k * n * e.wBits / 8

/-- The bytes of the activations. -/
def actBytes : ℕ := m * k * e.aBits / 8

/-- The cycles of the transfers of a product, before their lower bound. -/
def transferCycles : ℚ :=
  let dramEff := e.dramEffForBytes (e.weightBytes k n)
  let effectiveWeightBytes := if dramEff ≤ 0 then 0 else e.weightBytes k n
  e.seqCycles (effectiveWeightBytes + e.actBytes m k) / max dramEff 0.01

/-- The cycles of the transfers of a product. -/
def transferOrShare : ℚ := max (e.transferCycles m k n) (e.computeCycles m k n * 0.05)

/-- The fields of the estimate of a product. -/
def fields : ResultFields :=
  let macCount := m * k * n
  let computeCycles := e.computeCycles m k n
  let dmaCycles := e.transferOrShare m k n
  let totalCycles := max (computeCycles : ℚ) dmaCycles
  { computeCycles := computeCycles
    dmaCycles := ⌊dmaCycles⌋
    totalCycles := ⌊totalCycles⌋
    utilization := if 0 < totalCycles then macCount / (e.peakMacsPerCycle * totalCycles) else 0
    macCount := macCount
    opCount := macCount * 2
    idealComputeCycles := e.idealCycles macCount
    rawDmaCycles := MacEngine.rawCycles (e.rawBytes m k n) e.bwRaw
    numTiles := e.productTiles m k n
    weightBytes := e.weightBytes k n
    bottleneck := if dmaCycles ≤ computeCycles then "compute" else "dma" }

/-- Estimate a product. -/
def estimate : Except Failure EngineResult := EngineResult.new (e.fields m k n)

/-- The fields of the estimate of a pair. -/
def pairFields (r : ResultFields) : ResultFields where
  computeCycles := 2 * r.computeCycles
  dmaCycles := 2 * r.dmaCycles
  totalCycles := 2 * r.totalCycles
  utilization := r.utilization
  macCount := 2 * r.macCount
  opCount := 2 * r.opCount
  idealComputeCycles := 2 * r.idealComputeCycles
  rawDmaCycles := r.rawDmaCycles
  numTiles := r.numTiles
  weightBytes := 2 * r.weightBytes
  bottleneck := r.bottleneck

/-- Estimate a pair of products. -/
def estimateWeightCachePair : Except Failure EngineResult := do
  let r ← e.estimate m k n
  EngineResult.new (pairFields r.toResultFields)

/-! ### The cycles of the estimates -/

/-- The efficiency that divides the transfers is positive. -/
theorem max_dramEff_pos (b : ℕ) : (0 : ℚ) < max (e.dramEffForBytes b) 0.01 :=
  lt_max_of_lt_right (by norm_num)

theorem transferCycles_nonneg : 0 ≤ e.transferCycles m k n :=
  div_nonneg (e.seqCycles_nonneg _) (e.max_dramEff_pos _).le

/-- The share of the computation is no lower bound of the total. -/
theorem fields_totalCycles :
    (e.fields m k n).totalCycles = max (e.computeCycles m k n : ℤ) ⌊e.transferCycles m k n⌋ := by
  have hshare : (e.computeCycles m k n : ℚ) * 0.05 ≤ e.computeCycles m k n :=
    mul_le_of_le_one_right (Nat.cast_nonneg _) (by norm_num)
  have hmax : max (e.computeCycles m k n : ℚ) (e.transferOrShare m k n) =
      max (e.computeCycles m k n : ℚ) (e.transferCycles m k n) := by
    rw [transferOrShare, max_left_comm, max_eq_left hshare, max_comm]
  rw [← floor_max_intCast (α := ℚ), Int.cast_natCast, ← hmax]
  rfl

variable {m k n}

/-- The tiles in all three directions. -/
theorem productTiles_eq (hm : 0 < m) (hk : 0 < k) (hn : 0 < n) :
    e.productTiles m k n = (k ⌈/⌉ e.height) * (m ⌈/⌉ e.height) * (n ⌈/⌉ e.width) := by
  unfold productTiles
  dsimp only
  rw [← Nat.ceilDiv_eq_add_pred_div, ← Nat.ceilDiv_eq_add_pred_div,
    ← Nat.ceilDiv_eq_add_pred_div, max_eq_right (ceilDiv_pos hk e.height_pos),
    max_eq_right (ceilDiv_pos hm e.height_pos), max_eq_right (ceilDiv_pos hn e.width_pos)]

theorem fields_valid (hm : 0 < m) (hk : 0 < k) (hn : 0 < n) : (e.fields m k n).Valid where
  totalCycles := by
    rw [fields_totalCycles]
    exact le_max_of_le_left (Int.natCast_nonneg _)
  computeCycles := Int.natCast_nonneg _
  dmaCycles := Int.floor_nonneg.mpr (le_max_of_le_left (e.transferCycles_nonneg m k n))
  idealComputeCycles := Int.natCast_nonneg _
  rawDmaCycles := MacEngine.rawCycles_nonneg _
  macCount := Nat.mul_pos (Nat.mul_pos hm hk) hn
  opCount := Nat.mul_pos (Nat.mul_pos (Nat.mul_pos hm hk) hn) two_pos

theorem estimate_returns (hm : 0 < m) (hk : 0 < k) (hn : 0 < n) :
    Returns (e.estimate m k n) (e.fields m k n) :=
  returns_new (e.fields_valid hm hk hn)

/-- Twice a valid result is valid. -/
theorem pairFields_valid {r : ResultFields} (h : r.Valid) : (pairFields r).Valid where
  totalCycles := mul_nonneg zero_le_two h.totalCycles
  computeCycles := mul_nonneg zero_le_two h.computeCycles
  dmaCycles := mul_nonneg zero_le_two h.dmaCycles
  idealComputeCycles := mul_nonneg zero_le_two h.idealComputeCycles
  rawDmaCycles := h.rawDmaCycles
  macCount := Nat.mul_pos two_pos h.macCount
  opCount := Nat.mul_pos two_pos h.opCount

theorem pair_returns (hm : 0 < m) (hk : 0 < k) (hn : 0 < n) :
    Returns (e.estimateWeightCachePair m k n) (pairFields (e.fields m k n)) := by
  obtain ⟨r, hr, hfields⟩ := e.estimate_returns hm hk hn
  rw [estimateWeightCachePair, hr, ← hfields]
  exact returns_new (pairFields_valid r.valid)

/-- The computation of a product takes at least its ideal cycles. -/
theorem idealCycles_le (hm : 0 < m) (hk : 0 < k) (hn : 0 < n) :
    e.idealCycles (m * k * n) ≤ e.computeCycles m k n := by
  have hrows : m ≤ e.height + m + e.width := by omega
  have htiles : k * n ≤ e.height * e.width * e.productTiles m k n := by
    refine (e.mul_le_totalTiles k n).trans (Nat.mul_le_mul_left _ ?_)
    rw [e.productTiles_eq hm hk hn]
    exact Nat.mul_le_mul_right _ (Nat.le_mul_of_pos_right _ (ceilDiv_pos hm e.height_pos))
  rw [Nat.mul_assoc, computeCycles, Nat.mul_comm (e.productTiles m k n)]
  exact e.idealCycles_le_mul hrows htiles

end FsaEngine

end Engines

end NpuArc
