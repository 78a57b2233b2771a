import NpuArc.Engines.Creation

/-!
# Pairs of products

A pair of products that share their activations should cost at least one of them and at most both.
Four engines keep this within a cycle of rounding. The others have a second formula for the pair:
the weight-stationary array fills and drains for each tile of the depth, the block engine leaves out
the rows of a tile, the output-stationary array passes its rows once, and the group engine adds a
cold start that a single product does not have.
-/

namespace NpuArc

namespace Engines

open Residency

variable {m k n : ℕ}

/-! ### The engines whose pairs are within bounds -/

/-- A pipeline with at most twice the transfer and twice the computation takes at most twice the
time. -/
theorem floor_pipelined_pair {tiles compute : ℕ} {dma dma' : ℚ} (hle : dma ≤ dma')
    (htwo : dma' ≤ 2 * dma) :
    ⌊pipelined tiles (compute : ℚ) dma⌋ ≤ ⌊pipelined tiles ((2 * compute : ℕ) : ℚ) dma'⌋ ∧
      ⌊pipelined tiles ((2 * compute : ℕ) : ℚ) dma'⌋ ≤
        2 * ⌊pipelined tiles (compute : ℚ) dma⌋ + 1 := by
  have hcompute : (compute : ℚ) ≤ (2 * compute : ℕ) := by
    exact_mod_cast Nat.le_mul_of_pos_left compute two_pos
  constructor
  · exact Int.floor_mono (pipelined_mono le_rfl hcompute hle (Nat.cast_nonneg _))
  · refine floor_two_mul_le ?_
    rw [← pipelined_two_mul]
    exact pipelined_mono le_rfl (by rw [Nat.cast_mul, Nat.cast_ofNat]) htwo (Nat.cast_nonneg _)

/-- Twice the weights and the same activations are at most twice the bytes. -/
theorem MacEngine.seqCycles_pair (e : MacEngine) (weights acts : ℕ) :
    e.seqCycles (weights + acts) ≤ e.seqCycles (2 * weights + acts) ∧
      e.seqCycles (2 * weights + acts) ≤ 2 * e.seqCycles (weights + acts) := by
  have hweights := e.seqCycles_nonneg weights
  have hacts := e.seqCycles_nonneg acts
  have htwo : e.seqCycles (2 * weights) = 2 * e.seqCycles weights := by
    rw [seqCycles_mul, Nat.cast_ofNat]
  rw [seqCycles_add, seqCycles_add, htwo]
  constructor <;> linarith

theorem InputStationaryEngine.pair_bounds (e : InputStationaryEngine) :
    (e.fields m k n).totalCycles ≤ (e.pairFields m k n).totalCycles ∧
      (e.pairFields m k n).totalCycles ≤ 2 * (e.fields m k n).totalCycles + 1 := by
  obtain ⟨hle, htwo⟩ := e.seqCycles_pair (e.columnWeightBytes k n) (e.fullActBytes k)
  rw [e.fields_totalCycles, e.pairFields_totalCycles]
  exact floor_pipelined_pair hle htwo

theorem WmmaEngine.pair_bounds (e : WmmaEngine) :
    (e.fields 1 1 m k n).totalCycles ≤ (e.fields 2 2 m k n).totalCycles ∧
      (e.fields 2 2 m k n).totalCycles ≤ 2 * (e.fields 1 1 m k n).totalCycles + 1 := by
  obtain ⟨hle, htwo⟩ := e.seqCycles_pair e.tileWeightBytes (e.tileActBytes m)
  have hcompute : e.perTileCompute 2 m k n = 2 * e.perTileCompute 1 m k n := by
    unfold perTileCompute perFragmentCompute
    ring
  have hdma : e.perTileDma 1 m k n ≤ e.perTileDma 2 m k n := by
    unfold perTileDma perTileBytes
    rw [Nat.one_mul]
    exact add_le_add_right hle _
  have hdma' : e.perTileDma 2 m k n ≤ 2 * e.perTileDma 1 m k n := by
    have hstartup : (0 : ℚ) ≤ (e.fragmentsPerTile m k n * dmaStartupCycles : ℕ) :=
      Nat.cast_nonneg _
    unfold perTileDma perTileBytes
    rw [Nat.one_mul]
    linarith
  rw [e.fields_totalCycles, e.fields_totalCycles, hcompute]
  exact floor_pipelined_pair hdma hdma'

theorem TensorCoreEngine.pair_bounds (e : TensorCoreEngine) (htcs : 0 < e.numTcs) (hm : 0 < m)
    (hk : 0 < k) (hn : 0 < n) :
    (e.fields 1 m k n).totalCycles ≤ (e.fields 2 m k n).totalCycles ∧
      (e.fields 2 m k n).totalCycles ≤ 2 * (e.fields 1 m k n).totalCycles + 1 := by
  have hwaves := e.waves_pos htcs hm hk hn
  have hcompute : (perWaveCompute 2 : ℚ) = 2 * (perWaveCompute 1 : ℚ) := by
    rw [perWaveCompute, perWaveCompute, Nat.one_mul, Nat.cast_mul, Nat.cast_ofNat]
  have hcompute0 : (0 : ℚ) ≤ (perWaveCompute 1 : ℚ) := Nat.cast_nonneg _
  -- Descriptors and activations are shared, and weights are doubled.
  have hfull := e.seqCycles_pair ((subtileK * subtileN * e.wBits) ⌈/⌉ 8)
    ((subtileM * subtileK * e.aBits) ⌈/⌉ 8)
  have hdma : e.perWaveDma 1 ≤ e.perWaveDma 2 ∧ e.perWaveDma 2 ≤ 2 * e.perWaveDma 1 := by
    have hdescriptors : (0 : ℚ) ≤ (e.numTcs * e.descriptorOverheadCycles : ℕ) :=
      Nat.cast_nonneg _
    have hle := mul_le_mul_of_nonneg_left hfull.1 (Nat.cast_nonneg (α := ℚ) e.numTcs)
    have htwo := mul_le_mul_of_nonneg_left hfull.2 (Nat.cast_nonneg (α := ℚ) e.numTcs)
    unfold perWaveDma fullBytes
    rw [Nat.one_mul]
    constructor <;> linarith
  have hlastBytes := e.seqCycles_pair
    (∑ i ∈ Finset.range (e.invocationsLast m k n),
      e.invocationWeightBytes k n (e.numTcs * (e.waves m k n - 1) + i))
    (∑ i ∈ Finset.range (e.invocationsLast m k n),
      e.invocationActBytes m k n (e.numTcs * (e.waves m k n - 1) + i))
  have hlast : e.lastWaveDma 1 m k n ≤ e.lastWaveDma 2 m k n ∧
      e.lastWaveDma 2 m k n ≤ 2 * e.lastWaveDma 1 m k n := by
    have hdescriptors : (0 : ℚ) ≤
        (e.invocationsLast m k n * e.descriptorOverheadCycles : ℕ) := Nat.cast_nonneg _
    obtain ⟨hle, htwo⟩ := hlastBytes
    unfold lastWaveDma lastWaveBytes
    dsimp only
    rw [Nat.one_mul]
    constructor <;> linarith
  have hlower : e.waveCycles 1 m k n ≤ 1 * e.waveCycles 2 m k n := by
    refine e.waveCycles_le_mul zero_le_one hwaves ?_ ?_ ?_ <;> rw [one_mul]
    · linarith
    · exact hdma.1
    · exact hlast.1
  have hupper := e.waveCycles_le_mul zero_le_two hwaves hcompute.le hdma.2 hlast.2
  rw [one_mul] at hlower
  exact ⟨Int.floor_mono hlower, floor_two_mul_le hupper⟩

theorem FsaEngine.pair_bounds {r : ResultFields} (h : 0 ≤ r.totalCycles) :
    r.totalCycles ≤ (pairFields r).totalCycles ∧
      (pairFields r).totalCycles ≤ 2 * r.totalCycles + 1 := by
  unfold pairFields
  dsimp only
  omega

/-- A pair of the group engine costs at least a product. -/
theorem GmmaEngine.totalCycles_le_pair (e : GmmaEngine) (hn : 0 < n) (hk : 0 < k) :
    (e.fields (e.loadCycles (e.weightBytes k n)) m k n).totalCycles ≤
      (e.pairFields m k n).totalCycles := by
  have htiles := e.totalTiles_pos hk hn
  have hcompute : ((e.perTileCompute m * e.totalTiles k n : ℕ) : ℤ) ≤
      ⌊pipelined (e.totalTiles k n) ((2 * e.perTileCompute m : ℕ) : ℚ)
        (e.seqCycles (e.pairTileBytes m))⌋ := by
    refine le_trans ?_ (mul_le_floor_pipelined htiles (e.seqCycles_nonneg _))
    exact_mod_cast Nat.mul_le_mul_right _ (Nat.le_mul_of_pos_left _ two_pos)
  have hideal : e.idealCycles (m * k * n) ≤ e.idealCycles (m * k * n * 2) :=
    ceilDiv_mono e.peakMacsPerCycle_pos (Nat.le_mul_of_pos_right _ two_pos)
  have hraw : MacEngine.rawCycles (e.rawBytes m k n) e.bwRaw ≤
      MacEngine.rawCycles (e.rawBytes m k n * 2) e.bwRaw := by
    rw [MacEngine.rawCycles, MacEngine.rawCycles, if_pos e.bwRaw_pos, if_pos e.bwRaw_pos]
    refine Int.ceil_mono (div_le_div_of_nonneg_right ?_ e.bwRaw_pos.le)
    exact_mod_cast Nat.le_mul_of_pos_right _ two_pos
  have hweights : e.weightBytes k n ≤ e.totalTiles k n * e.tileWeightBytes := by
    refine Nat.div_le_of_le_mul ?_
    calc k * n * e.wBits ≤ e.height * e.width * e.totalTiles k n * e.wBits :=
          Nat.mul_le_mul_right _ (e.mul_le_totalTiles k n)
      _ = e.totalTiles k n * (e.height * e.width * e.wBits) := by ring
      _ ≤ e.totalTiles k n * (8 * e.tileWeightBytes) :=
          Nat.mul_le_mul_left _ (le_mul_ceilDiv (by decide))
      _ = 8 * (e.totalTiles k n * e.tileWeightBytes) := Nat.mul_left_comm _ _ _
  have hacts : m * k * e.aBits / 8 ≤ e.totalTiles k n * e.tileActBytes m := by
    have hdepth : k ≤ e.height * e.totalTiles k n :=
      (le_mul_ceilDiv e.height_pos).trans (Nat.mul_le_mul_left _
        (Nat.le_mul_of_pos_right _ (ceilDiv_pos hn e.width_pos)))
    refine Nat.div_le_of_le_mul ?_
    calc m * k * e.aBits ≤ m * (e.height * e.totalTiles k n) * e.aBits :=
          Nat.mul_le_mul_right _ (Nat.mul_le_mul_left _ hdepth)
      _ = e.totalTiles k n * (m * e.height * e.aBits) := by ring
      _ ≤ e.totalTiles k n * (8 * e.tileActBytes m) :=
          Nat.mul_le_mul_left _ (le_mul_ceilDiv (by decide))
      _ = 8 * (e.totalTiles k n * e.tileActBytes m) := Nat.mul_left_comm _ _ _
  have hdma : e.totalDma (e.loadCycles (e.weightBytes k n)) m k ≤
      e.totalTiles k n * e.seqCycles (e.pairTileBytes m) := by
    have hload : e.loadCycles (e.weightBytes k n) ≤
        e.seqCycles (2 * (e.totalTiles k n * e.tileWeightBytes)) :=
      (e.loadCycles_le_seqCycles _).trans
        ((MacEngine.Faster.refl e.toMacEngine).seqCycles_le (Nat.mul_le_mul_left 2 hweights))
    have hseq := (MacEngine.Faster.refl e.toMacEngine).seqCycles_le hacts
    rw [← MacEngine.seqCycles_mul, pairTileBytes, Nat.mul_add, Nat.mul_left_comm,
      MacEngine.seqCycles_add]
    exact add_le_add hload hseq
  rw [e.pairFields_totalCycles]
  exact max_le_max (max_le_max (max_le_max hcompute (by exact_mod_cast hideal)) hraw)
    (Int.ceil_mono hdma)

/-- The ideal cycles and the raw transfers of a pair are at most twice those of a product. -/
theorem GmmaEngine.pair_le_iff (e : GmmaEngine) {weightDma : ℚ} :
    (e.pairFields m k n).totalCycles ≤ 2 * (e.fields weightDma m k n).totalCycles + 1 ↔
      ⌊pipelined (e.totalTiles k n) ((2 * e.perTileCompute m : ℕ) : ℚ)
          (e.seqCycles (e.pairTileBytes m))⌋ ≤ 2 * (e.fields weightDma m k n).totalCycles + 1 ∧
        ⌈e.totalTiles k n * e.seqCycles (e.pairTileBytes m)⌉ ≤
          2 * (e.fields weightDma m k n).totalCycles + 1 := by
  have hideal : (e.idealCycles (m * k * n * 2) : ℤ) ≤
      2 * (e.fields weightDma m k n).totalCycles + 1 := by
    have hsingle : (e.idealCycles (m * k * n) : ℤ) ≤ (e.fields weightDma m k n).totalCycles :=
      le_max_of_le_left (le_max_of_le_left (le_max_right _ _))
    have htwo : e.idealCycles (m * k * n * 2) ≤ 2 * e.idealCycles (m * k * n) := by
      refine (ceilDiv_le_iff_le_mul e.peakMacsPerCycle_pos).mpr ?_
      rw [Nat.mul_left_comm, Nat.mul_comm (m * k * n)]
      exact Nat.mul_le_mul_left 2 (le_mul_ceilDiv e.peakMacsPerCycle_pos)
    omega
  have hraw : MacEngine.rawCycles (e.rawBytes m k n * 2) e.bwRaw ≤
      2 * (e.fields weightDma m k n).totalCycles + 1 := by
    have hsingle : MacEngine.rawCycles (e.rawBytes m k n) e.bwRaw ≤
        (e.fields weightDma m k n).totalCycles := le_max_of_le_left (le_max_right _ _)
    have htwo : MacEngine.rawCycles (e.rawBytes m k n * 2) e.bwRaw ≤
        2 * MacEngine.rawCycles (e.rawBytes m k n) e.bwRaw := by
      rw [MacEngine.rawCycles, MacEngine.rawCycles, if_pos e.bwRaw_pos, if_pos e.bwRaw_pos]
      refine Int.ceil_le.mpr ?_
      have hceil := Int.le_ceil ((e.rawBytes m k n : ℚ) / e.bwRaw)
      push_cast
      rw [mul_div_right_comm]
      linarith
    omega
  rw [e.pairFields_totalCycles, max_le_iff, max_le_iff, max_le_iff, and_iff_left hideal,
    and_iff_left hraw]

/-! ### All engines -/

/-- The cycles of a pair are at least those of a product, and at most twice as many and one. -/
def PairBounds (single pair : ℤ) : Prop := single ≤ pair ∧ pair ≤ 2 * single + 1

/-- The weight-stationary array streams a product through its tiles. -/
def SystolicEngine.singleTotal (e : SystolicEngine) (m k n : ℕ) : ℤ :=
  ⌊pipelined (e.totalTiles k n) (((m ⌈/⌉ e.height) * (e.height + e.width) + m : ℕ) : ℚ)
    (e.seqCycles (e.tileWeightBytes + e.tileActBytes m))⌋

/-- For a pair it is filled and drained once for each tile of the depth. -/
def SystolicEngine.pairTotal (e : SystolicEngine) (m k n : ℕ) : ℤ :=
  ⌊((k ⌈/⌉ e.height : ℕ) : ℚ) * (2 * e.height + e.width + m +
    pipelined (n ⌈/⌉ e.width) ((2 * (m + e.width) + 1 : ℕ) : ℚ)
      (e.seqCycles (2 * e.tileWeightBytes + e.tileActBytes m)))⌋

/-- The output-stationary array counts the rows, the ideal cycles and the raw bytes of a product. -/
def OutputStationaryEngine.singleTotal (e : OutputStationaryEngine) (m k n : ℕ) : ℤ :=
  max (max ((((m ⌈/⌉ e.height) * e.reduceCycles + m) * e.totalTiles k n : ℕ) : ℤ)
    (e.idealCycles (m * k * n))) (MacEngine.rawCycles (e.rawBytes m k n) e.bwRaw)

/-- For a pair it counts a single pass and the transfers. -/
def OutputStationaryEngine.pairTotal (e : OutputStationaryEngine) (m k n : ℕ) : ℤ :=
  max ((2 * (e.height + e.reduceCycles) * e.totalTiles k n : ℕ) : ℤ)
    ⌊e.loadCycles (2 * k * n * e.wBits / 8) + e.seqCycles (m * k * e.aBits / 8)⌋

/-- The block engine counts the height of a tile, and no load if the weights fit. -/
def BlockEngine.singleTotal (e : BlockEngine) (m k n : ℕ) : ℤ :=
  max ((m * (e.height + e.reduceCycles) * e.totalTiles k n : ℕ) : ℤ)
    ⌊e.totalDmaCycles (e.loadCycles (e.weightBytes k n)) m k⌋

/-- For a pair it does not count the height, and always the load. -/
def BlockEngine.pairTotal (e : BlockEngine) (m k n : ℕ) : ℤ :=
  max ((m * (2 * e.reduceCycles) * e.totalTiles k n : ℕ) : ℤ) ⌊e.pairDmaCycles m k n⌋

/-- The group engine overlaps the transfers of a product. -/
def GmmaEngine.singleTotal (e : GmmaEngine) (m k n : ℕ) : ℤ :=
  max (max (max ((e.perTileCompute m * e.totalTiles k n : ℕ) : ℤ) (e.idealCycles (m * k * n)))
    (MacEngine.rawCycles (e.rawBytes m k n) e.bwRaw))
    ⌈e.loadCycles (e.weightBytes k n) + e.seqCycles (m * k * e.aBits / 8)⌉

namespace Engine

/-- A pair costs at least a product and at most two, up to a cycle of rounding. -/
def PairInBounds (e : Engine) (m k n : ℕ) : Prop :=
  ∃ r, e.estimate m k n = .ok r ∧ ∃ r', e.estimateWeightCachePair m k n = .ok r' ∧
    r.totalCycles ≤ r'.totalCycles ∧ r'.totalCycles ≤ 2 * r.totalCycles + 1

/-- The second formulas of the engines are within the bounds. -/
def PairCovered (e : Engine) (m k n : ℕ) : Prop :=
  match e with
  | systolic e => PairBounds (e.singleTotal m k n) (e.pairTotal m k n)
  | osSystolic e => PairBounds (e.singleTotal m k n) (e.pairTotal m k n)
  | block e => PairBounds (e.singleTotal m k n) (e.pairTotal m k n)
  | gmma e =>
    -- The first tile of a pair is cold, and the load is not free if the weights fit.
    ⌊pipelined (e.totalTiles k n) ((2 * e.perTileCompute m : ℕ) : ℚ)
        (e.seqCycles (e.pairTileBytes m))⌋ ≤ 2 * e.singleTotal m k n + 1 ∧
      ⌈e.totalTiles k n * e.seqCycles (e.pairTileBytes m)⌉ ≤ 2 * e.singleTotal m k n + 1
  | tensorCore _ | wmma _ | inputStationary _ | fsa _ => True

theorem fields_pair_iff {e : Engine} (hanswers : e.AnswersEstimate k n) (hm : 0 < m) (hk : 0 < k)
    (hn : 0 < n) :
    (e.fields m k n).totalCycles ≤ (e.pairFields m k n).totalCycles ∧
      (e.pairFields m k n).totalCycles ≤ 2 * (e.fields m k n).totalCycles + 1 ↔
      e.PairCovered m k n := by
  cases e with
  | systolic e =>
    have hsingle : (e.fields m k n).totalCycles = e.singleTotal m k n := by
      rw [e.fields_totalCycles, e.perKtileCompute_eq hm]
      rfl
    have hpair : (e.pairFields m k n).totalCycles = e.pairTotal m k n :=
      congrArg Int.floor (e.pairCycles_eq hn)
    rw [fields, pairFields, hsingle, hpair]
    rfl
  | osSystolic e =>
    have hsingle : (e.fields (e.loadCycles (k * n * e.wBits / 8)) m k n).totalCycles =
        e.singleTotal m k n := by
      rw [OutputStationaryEngine.singleTotal, ← e.perTileCompute_eq hm]
      rfl
    rw [fields, hsingle]
    rfl
  | block e =>
    rw [fields, pairFields, e.fields_totalCycles, e.pairFields_totalCycles]
    rfl
  | tensorCore e =>
    exact iff_of_true (e.pair_bounds (e.numTcs_pos_iff.mpr hanswers) hm hk hn) trivial
  | wmma e => exact iff_of_true e.pair_bounds trivial
  | gmma e => exact (and_iff_right (e.totalCycles_le_pair hn hk)).trans e.pair_le_iff
  | inputStationary e => exact iff_of_true e.pair_bounds trivial
  | fsa e => exact iff_of_true (FsaEngine.pair_bounds (e.fields_valid hm hk hn).totalCycles) trivial

theorem pairInBounds_covered {e : Engine} (hm : 0 < m) (hk : 0 < k) (hn : 0 < n) :
    e.PairInBounds m k n ↔
      e.AnswersEstimate k n ∧ e.AnswersPair k n ∧ e.PairCovered m k n := by
  have hpair := fun r : ResultFields => pair_exists_iff hm hk hn (e := e) (P := fun r' =>
    r.totalCycles ≤ r'.totalCycles ∧ r'.totalCycles ≤ 2 * r.totalCycles + 1)
  have hestimate := estimate_exists_iff hm hk hn (e := e) (P := fun r =>
    ∃ r', e.estimateWeightCachePair m k n = .ok r' ∧
      r.totalCycles ≤ r'.totalCycles ∧ r'.totalCycles ≤ 2 * r.totalCycles + 1)
  refine hestimate.trans (and_congr_right fun hanswers => (hpair _).trans ?_)
  exact and_congr_right fun _ => fields_pair_iff hanswers hm hk hn

end Engine

end Engines

end NpuArc
