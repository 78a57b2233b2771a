import NpuArc.Engines.Creation

/-!
# The compute floor

No estimate may report fewer cycles than its multiply-accumulates take at the peak, or a
utilization above one. Five engines keep this floor whenever they answer. The others do not count
the computation of all rows: the input-stationary array streams the rows of its height in a cycle,
the pair of the output-stationary array passes its rows once, and the warp engine rounds down its
fragments.
-/

namespace NpuArc

namespace Engines

open Residency

/-- A result keeps the floor of some multiply-accumulates. -/
structure ResultFields.MeetsComputeFloor (peak macs : ℕ) (r : ResultFields) : Prop where
  floor : (macs : ℚ) / peak ≤ r.totalCycles
  utilization_nonneg : 0 ≤ r.utilization
  utilization_le : r.utilization ≤ 1

namespace MacEngine

variable (e : MacEngine) {macs : ℕ} {r : ResultFields}

/-- The floor of a result whose utilization is over at least its whole cycles. -/
theorem meetsComputeFloor_of_le {cycles : ℚ} (hvalid : r.Valid)
    (hutilization : r.utilization = utilizationOf (e.idealCycles macs) cycles)
    (hcycles : (e.idealCycles macs : ℚ) ≤ cycles) (hle : (e.idealCycles macs : ℤ) ≤ r.totalCycles) :
    r.MeetsComputeFloor e.peakMacsPerCycle macs := by
  obtain ⟨hnonneg, hle_one⟩ := utilizationOf_mem hcycles
  rw [← hutilization] at hnonneg hle_one
  exact ⟨(e.div_peak_le_iff hvalid.totalCycles).mpr hle, hnonneg, hle_one⟩

/-- A result whose utilization is over its total keeps the floor when its total is at least the
ideal cycles. -/
theorem meetsComputeFloor_fields_iff (hvalid : r.Valid)
    (hutilization : r.utilization = utilizationOf (e.idealCycles macs) r.totalCycles) :
    r.MeetsComputeFloor e.peakMacsPerCycle macs ↔ (e.idealCycles macs : ℤ) ≤ r.totalCycles := by
  constructor
  · intro h
    exact (e.div_peak_le_iff hvalid.totalCycles).mp h.floor
  · intro hle
    exact e.meetsComputeFloor_of_le hvalid hutilization (by exact_mod_cast hle) hle

end MacEngine

namespace Engine

/-- Both estimates report at least the floor of their multiply-accumulates. -/
def MeetsComputeFloor (e : Engine) (m k n : ℕ) : Prop :=
  (∃ r, e.estimate m k n = .ok r ∧
    r.toResultFields.MeetsComputeFloor e.mac.peakMacsPerCycle (m * k * n)) ∧
  ∃ r, e.estimateWeightCachePair m k n = .ok r ∧
    r.toResultFields.MeetsComputeFloor e.mac.peakMacsPerCycle (m * k * n * 2)

/-- The work that an engine counts covers the ideal cycles. -/
def CountsComputation (e : Engine) (m k n : ℕ) : Prop :=
  match e with
  | osSystolic e =>
    -- A pair passes its rows once, whatever their number.
    (e.idealCycles (m * k * n * 2) : ℤ) ≤ e.pairCompute k n ∨
      (e.idealCycles (m * k * n * 2) : ℤ) ≤
        ⌊e.loadCycles (2 * k * n * e.wBits / 8) + e.seqCycles (m * k * e.aBits / 8)⌋
  | wmma e =>
    MacEngine.Covers (e.productTiles m k n) (e.perTileCompute 1 m k n) (e.perTileDma 1 m k n)
      (e.idealCycles (m * k * n)) ∧
    MacEngine.Covers (e.productTiles m k n) (e.perTileCompute 2 m k n) (e.perTileDma 2 m k n)
      (e.idealCycles (m * k * n * 2))
  | inputStationary e =>
    -- A tile streams a depth of `k` in the cycles of its share of the height.
    MacEngine.Covers (e.totalTiles m n) (k ⌈/⌉ e.height + e.height + e.width)
      (e.seqCycles (e.columnWeightBytes k n + e.fullActBytes k)) (e.idealCycles (m * k * n)) ∧
    MacEngine.Covers (e.totalTiles m n) (2 * (k ⌈/⌉ e.height + e.height + e.width))
      (e.seqCycles (2 * e.columnWeightBytes k n + e.fullActBytes k))
      (e.idealCycles (m * k * n * 2))
  | systolic _ | block _ | tensorCore _ | gmma _ | fsa _ => True

end Engine

/-! ### The engines -/

variable {m k n : ℕ}

theorem SystolicEngine.meetsComputeFloor (e : SystolicEngine) (hm : 0 < m) (hk : 0 < k)
    (hn : 0 < n) :
    (e.fields m k n).MeetsComputeFloor e.peakMacsPerCycle (m * k * n) := by
  have hideal : (e.idealCycles (m * k * n) : ℤ) ≤ (e.fields m k n).totalCycles := by
    rw [e.fields_totalCycles]
    refine le_trans ?_ (mul_le_floor_pipelined (e.totalTiles_pos hk hn) (e.seqCycles_nonneg _))
    exact_mod_cast e.idealCycles_le hm
  refine e.meetsComputeFloor_of_le (e.fields_valid hm hk hn) rfl ?_ hideal
  exact_mod_cast Int.le_floor.mp hideal

theorem SystolicEngine.pair_meetsComputeFloor (e : SystolicEngine) (hm : 0 < m) (hk : 0 < k)
    (hn : 0 < n) :
    (e.pairFields m k n).MeetsComputeFloor e.peakMacsPerCycle (m * k * n * 2) := by
  refine (e.meetsComputeFloor_fields_iff (e.pairFields_valid hm hk hn) rfl).mpr ?_
  refine Int.le_floor.mpr (le_trans ?_ (e.dualCompute_le_pairCycles hn))
  exact_mod_cast e.idealCycles_pair_le

theorem BlockEngine.meetsComputeFloor (e : BlockEngine) {weightDma : ℚ} (hdma : 0 ≤ weightDma)
    (hm : 0 < m) (hk : 0 < k) (hn : 0 < n) :
    (e.fields weightDma m k n).MeetsComputeFloor e.peakMacsPerCycle (m * k * n) := by
  have hideal := e.idealCycles_le (m := m) (k := k) (n := n)
  refine e.meetsComputeFloor_of_le (e.fields_valid hdma hm hk hn) rfl
    (le_max_of_le_left (by exact_mod_cast hideal)) ?_
  rw [e.fields_totalCycles]
  exact le_max_of_le_left (by exact_mod_cast hideal)

theorem BlockEngine.pair_meetsComputeFloor (e : BlockEngine) (hm : 0 < m) (hk : 0 < k)
    (hn : 0 < n) :
    (e.pairFields m k n).MeetsComputeFloor e.peakMacsPerCycle (m * k * n * 2) := by
  have hideal := e.idealCycles_pair_le (m := m) (k := k) (n := n)
  refine e.meetsComputeFloor_of_le (e.pairFields_valid hm hk hn) rfl
    (le_max_of_le_left (by exact_mod_cast hideal)) ?_
  rw [e.pairFields_totalCycles]
  exact le_max_of_le_left (by exact_mod_cast hideal)

theorem OutputStationaryEngine.meetsComputeFloor (e : OutputStationaryEngine) {weightDma : ℚ}
    (hm : 0 < m) (hk : 0 < k) (hn : 0 < n) :
    (e.fields weightDma m k n).MeetsComputeFloor e.peakMacsPerCycle (m * k * n) :=
  (e.meetsComputeFloor_fields_iff (e.fields_valid hm hk hn) rfl).mpr
    (le_max_of_le_left (le_max_right _ _))

theorem GmmaEngine.meetsComputeFloor (e : GmmaEngine) {weightDma : ℚ} (hdma : 0 ≤ weightDma)
    (hm : 0 < m) (hk : 0 < k) (hn : 0 < n) :
    (e.fields weightDma m k n).MeetsComputeFloor e.peakMacsPerCycle (m * k * n) :=
  (e.meetsComputeFloor_fields_iff (e.fields_valid hdma hm hk hn) rfl).mpr
    (le_max_of_le_left (le_max_of_le_left (le_max_right _ _)))

theorem GmmaEngine.pair_meetsComputeFloor (e : GmmaEngine) (hm : 0 < m) (hk : 0 < k)
    (hn : 0 < n) :
    (e.pairFields m k n).MeetsComputeFloor e.peakMacsPerCycle (m * k * n * 2) :=
  (e.meetsComputeFloor_fields_iff (e.pairFields_valid hm hk hn) rfl).mpr
    (le_max_of_le_left (le_max_of_le_left (le_max_right _ _)))

theorem TensorCoreEngine.meetsComputeFloor (e : TensorCoreEngine) {p : ℕ} (htcs : 0 < e.numTcs)
    (hp : 0 < p) (hm : 0 < m) (hk : 0 < k) (hn : 0 < n) :
    (e.fields p m k n).MeetsComputeFloor e.peakMacsPerCycle (m * k * n * p) := by
  refine (e.meetsComputeFloor_fields_iff (e.fields_valid htcs hp hm hk hn) rfl).mpr ?_
  refine Int.le_floor.mpr (le_trans ?_ (e.compute_le_waveCycles htcs hm hk hn))
  exact_mod_cast e.idealCycles_le htcs

theorem FsaEngine.meetsComputeFloor (e : FsaEngine) (hm : 0 < m) (hk : 0 < k) (hn : 0 < n) :
    (e.fields m k n).MeetsComputeFloor e.peakMacsPerCycle (m * k * n) := by
  have hideal := e.idealCycles_le hm hk hn
  have hpeak : (0 : ℚ) < e.peakMacsPerCycle := by exact_mod_cast e.peakMacsPerCycle_pos
  have hmacs : ((m * k * n : ℕ) : ℚ) ≤ e.peakMacsPerCycle * e.computeCycles m k n := by
    exact_mod_cast (ceilDiv_le_iff_le_mul e.peakMacsPerCycle_pos).mp hideal
  have htotal : (e.idealCycles (m * k * n) : ℤ) ≤ (e.fields m k n).totalCycles := by
    rw [e.fields_totalCycles]
    exact le_max_of_le_left (by exact_mod_cast hideal)
  have hutilization : 0 ≤ (e.fields m k n).utilization ∧ (e.fields m k n).utilization ≤ 1 := by
    have hle := le_max_left (e.computeCycles m k n : ℚ) (e.transferOrShare m k n)
    unfold fields
    dsimp only
    split_ifs with hpos
    · have hden := mul_pos hpeak hpos
      refine ⟨div_nonneg (Nat.cast_nonneg _) hden.le, (div_le_one hden).mpr (hmacs.trans ?_)⟩
      exact mul_le_mul_of_nonneg_left hle hpeak.le
    · exact ⟨le_rfl, zero_le_one⟩
  exact ⟨(e.div_peak_le_iff (e.fields_valid hm hk hn).totalCycles).mpr htotal, hutilization.1,
    hutilization.2⟩

/-- Twice the cycles for twice the work. -/
theorem FsaEngine.pair_meetsComputeFloor {peak macs : ℕ} {r : ResultFields}
    (h : r.MeetsComputeFloor peak macs) :
    (pairFields r).MeetsComputeFloor peak (macs * 2) where
  floor := by
    have hfloor := h.floor
    unfold pairFields
    push_cast
    rw [mul_div_right_comm, mul_comm]
    linarith
  utilization_nonneg := h.utilization_nonneg
  utilization_le := h.utilization_le

namespace Engine

/-- Both estimates keep the floor exactly when the engine answers and counts the computation. -/
theorem fields_meetComputeFloor_iff (e : Engine) (hm : 0 < m) (hk : 0 < k) (hn : 0 < n)
    (hanswers : e.AnswersEstimate k n) :
    (e.fields m k n).MeetsComputeFloor e.mac.peakMacsPerCycle (m * k * n) ∧
      (e.pairFields m k n).MeetsComputeFloor e.mac.peakMacsPerCycle (m * k * n * 2) ↔
      e.CountsComputation m k n := by
  cases e with
  | systolic e =>
    exact iff_of_true ⟨e.meetsComputeFloor hm hk hn, e.pair_meetsComputeFloor hm hk hn⟩ trivial
  | osSystolic e =>
    refine (and_iff_right (e.meetsComputeFloor hm hk hn)).trans ?_
    refine (e.meetsComputeFloor_fields_iff (e.pairFields_valid (e.loadCycles_nonneg _) hm hk hn) rfl).trans
      le_max_iff
  | block e =>
    exact iff_of_true ⟨e.meetsComputeFloor (e.loadCycles_nonneg _) hm hk hn,
      e.pair_meetsComputeFloor hm hk hn⟩ trivial
  | tensorCore e =>
    have htcs := e.numTcs_pos_iff.mpr hanswers
    have hsingle := e.meetsComputeFloor htcs one_pos hm hk hn
    rw [Nat.mul_one] at hsingle
    exact iff_of_true ⟨hsingle, e.meetsComputeFloor htcs two_pos hm hk hn⟩ trivial
  | wmma e =>
    have htiles := e.productTiles_pos hm hk hn
    have hvalid : (e.fields 1 1 m k n).Valid := e.fields_valid one_pos hm hk hn
    have hvalid' : (e.fields 2 2 m k n).Valid := e.fields_valid two_pos hm hk hn
    have hsingle := e.meetsComputeFloor_fields_iff hvalid rfl
    have hpair := e.meetsComputeFloor_fields_iff hvalid' rfl
    rw [Nat.mul_one] at hsingle
    rw [e.fields_totalCycles, MacEngine.le_floor_pipelined_iff htiles] at hsingle hpair
    exact and_congr hsingle hpair
  | gmma e =>
    exact iff_of_true ⟨e.meetsComputeFloor (e.loadCycles_nonneg _) hm hk hn,
      e.pair_meetsComputeFloor hm hk hn⟩ trivial
  | inputStationary e =>
    have htiles := e.totalTiles_pos hm hn
    have hsingle := e.meetsComputeFloor_fields_iff (e.fields_valid hm hk hn) rfl
    have hpair := e.meetsComputeFloor_fields_iff (e.pairFields_valid hm hk hn) rfl
    rw [e.fields_totalCycles, MacEngine.le_floor_pipelined_iff htiles] at hsingle
    rw [e.pairFields_totalCycles, MacEngine.le_floor_pipelined_iff htiles] at hpair
    exact and_congr hsingle hpair
  | fsa e =>
    have hsingle := e.meetsComputeFloor hm hk hn
    exact iff_of_true ⟨hsingle, FsaEngine.pair_meetsComputeFloor hsingle⟩ trivial

theorem meetsComputeFloor_counts {e : Engine} (hm : 0 < m) (hk : 0 < k) (hn : 0 < n) :
    e.MeetsComputeFloor m k n ↔
      e.AnswersEstimate k n ∧ e.AnswersPair k n ∧ e.CountsComputation m k n := by
  rw [MeetsComputeFloor, estimate_exists_iff hm hk hn, pair_exists_iff hm hk hn, and_and_and_comm]
  refine (and_congr_right fun hanswers => ?_).trans and_assoc
  exact e.fields_meetComputeFloor_iff hm hk hn hanswers.1

end Engine

end Engines

end NpuArc
