import NpuArc.Engines.Creation

/-!
# Monotone costs

Smaller products on the same array with no less bandwidth and no smaller buffers should take no more
cycles. The warp engine breaks this where its fragments of a tile are rounded down less, and the
array with inline attention where the weights of the smaller product fit in their buffer: its
activations are then divided by a hundredth.
-/

namespace NpuArc

namespace Engines

open Residency

variable {m k n m' k' n' : ℕ}

namespace MacEngine

variable {e e' : MacEngine}

theorem Faster.totalTiles (h : e.Faster e') : e'.totalTiles k n = e.totalTiles k n := by
  rw [MacEngine.totalTiles, MacEngine.totalTiles, h.height, h.width]

theorem Faster.idealCycles (h : e.Faster e') (macs : ℕ) :
    e'.idealCycles macs = e.idealCycles macs := by
  rw [MacEngine.idealCycles, MacEngine.idealCycles, h.peakMacsPerCycle]

theorem Faster.reduceCycles (h : e.Faster e') : e'.reduceCycles = e.reduceCycles := by
  rw [MacEngine.reduceCycles, MacEngine.reduceCycles, h.wBits, h.aBits]

theorem Faster.tileWeightBytes (h : e.Faster e') : e'.tileWeightBytes = e.tileWeightBytes := by
  rw [MacEngine.tileWeightBytes, MacEngine.tileWeightBytes, h.height, h.width, h.wBits]

theorem Faster.tileActBytes (h : e.Faster e') : e'.tileActBytes m = e.tileActBytes m := by
  rw [MacEngine.tileActBytes, MacEngine.tileActBytes, h.height, h.aBits]

theorem totalTiles_mono (e : MacEngine) (hk : k' ≤ k) (hn : n' ≤ n) :
    e.totalTiles k' n' ≤ e.totalTiles k n :=
  Nat.mul_le_mul (ceilDiv_mono e.height_pos hk) (ceilDiv_mono e.width_pos hn)

theorem idealCycles_mono (e : MacEngine) (hm : m' ≤ m) (hk : k' ≤ k) (hn : n' ≤ n) :
    e.idealCycles (m' * k' * n') ≤ e.idealCycles (m * k * n) :=
  ceilDiv_mono e.peakMacsPerCycle_pos (Nat.mul_le_mul (Nat.mul_le_mul hm hk) hn)

theorem tileActBytes_mono (e : MacEngine) (hm : m' ≤ m) :
    e.tileActBytes m' ≤ e.tileActBytes m :=
  ceilDiv_mono (by decide) (Nat.mul_le_mul_right _ (Nat.mul_le_mul_right _ hm))

/-- The raw bytes of a smaller product at no less bandwidth. -/
theorem Faster.rawCycles_le (h : e.Faster e') (hm : m' ≤ m) (hk : k' ≤ k) (hn : n' ≤ n) :
    rawCycles (e'.rawBytes m' k' n') e'.bwRaw ≤ rawCycles (e.rawBytes m k n) e.bwRaw := by
  have hbytes : e'.rawBytes m' k' n' ≤ e.rawBytes m k n := by
    unfold rawBytes
    rw [h.wBits, h.aBits]
    gcongr
  rw [rawCycles, rawCycles, if_pos e.bwRaw_pos, if_pos e'.bwRaw_pos]
  exact Int.ceil_mono
    (div_le_div₀ (Nat.cast_nonneg _) (by exact_mod_cast hbytes) e.bwRaw_pos h.bwRaw)

end MacEngine

/-! ### The engines that keep the order -/

theorem SystolicEngine.totalCycles_le {e e' : SystolicEngine}
    (h : e.toMacEngine.Faster e'.toMacEngine) (hm' : 0 < m') (hm : m' ≤ m) (hk : k' ≤ k)
    (hn : n' ≤ n) : (e'.fields m' k' n').totalCycles ≤ (e.fields m k n).totalCycles := by
  have hcompute : e'.perKtileCompute m' ≤ e.perKtileCompute m := by
    rw [e'.perKtileCompute_eq hm', e.perKtileCompute_eq (hm'.trans_le hm), h.height, h.width]
    exact Nat.add_le_add (Nat.mul_le_mul_right _ (ceilDiv_mono e.height_pos hm)) hm
  have hbytes : e'.tileWeightBytes + e'.tileActBytes m' ≤ e.tileWeightBytes + e.tileActBytes m := by
    rw [h.tileWeightBytes, h.tileActBytes]
    exact Nat.add_le_add_left (e.tileActBytes_mono hm) _
  rw [e'.fields_totalCycles, e.fields_totalCycles, h.totalTiles]
  exact Int.floor_mono (pipelined_mono (e.totalTiles_mono hk hn) (by exact_mod_cast hcompute)
    (h.seqCycles_le hbytes) (Nat.cast_nonneg _))

theorem InputStationaryEngine.totalCycles_le {e e' : InputStationaryEngine}
    (h : e.toMacEngine.Faster e'.toMacEngine) (hm : m' ≤ m) (hk : k' ≤ k) (hn : n' ≤ n) :
    (e'.fields m' k' n').totalCycles ≤ (e.fields m k n).totalCycles := by
  have hcompute : e'.perTileCompute k' ≤ e.perTileCompute k := by
    unfold perTileCompute
    rw [h.height, h.width]
    exact Nat.add_le_add_right (Nat.add_le_add_right (ceilDiv_mono e.height_pos hk) _) _
  have hweights : e'.columnWeightBytes k' n' ≤ e.columnWeightBytes k n := by
    unfold columnWeightBytes
    rw [h.width, h.wBits]
    refine ceilDiv_mono (by decide) (Nat.mul_le_mul_right _ (Nat.mul_le_mul hk ?_))
    exact min_le_min_right _ hn
  have hacts : e'.fullActBytes k' ≤ e.fullActBytes k := by
    unfold fullActBytes
    rw [h.height, h.aBits]
    exact ceilDiv_mono (by decide) (Nat.mul_le_mul_right _ (Nat.mul_le_mul_left _ hk))
  rw [e'.fields_totalCycles, e.fields_totalCycles, h.totalTiles]
  exact Int.floor_mono (pipelined_mono (e.totalTiles_mono hm hn) (by exact_mod_cast hcompute)
    (h.seqCycles_le (Nat.add_le_add hweights hacts)) (Nat.cast_nonneg _))

theorem BlockEngine.totalCycles_le {e e' : BlockEngine}
    (h : e.toMacEngine.Faster e'.toMacEngine) (hanswers : e.LoadAnswers (e.weightBytes k n))
    (hm : m' ≤ m) (hk : k' ≤ k) (hn : n' ≤ n) :
    (e'.fields (e'.loadCycles (e'.weightBytes k' n')) m' k' n').totalCycles ≤
      (e.fields (e.loadCycles (e.weightBytes k n)) m k n).totalCycles := by
  have hcompute : e'.totalCompute m' k' n' ≤ e.totalCompute m k n := by
    unfold totalCompute
    rw [h.height, h.reduceCycles, h.totalTiles]
    exact Nat.mul_le_mul (Nat.mul_le_mul_right _ hm) (e.totalTiles_mono hk hn)
  have hbytes : e'.weightBytes k' n' ≤ e.weightBytes k n := by
    unfold weightBytes
    rw [h.wBits]
    gcongr
  have hacts : k' * e'.aBits / 8 ≤ k * e.aBits / 8 := by
    rw [h.aBits]
    gcongr
  have hload := h.loadCycles_le hbytes hanswers
  have hseq := h.seqCycles_le hacts
  have htiles : ((m' ⌈/⌉ e'.height : ℕ) : ℚ) ≤ (m ⌈/⌉ e.height : ℕ) := by
    rw [h.height]
    exact_mod_cast ceilDiv_mono e.height_pos hm
  have hdma : e'.totalDmaCycles (e'.loadCycles (e'.weightBytes k' n')) m' k' ≤
      e.totalDmaCycles (e.loadCycles (e.weightBytes k n)) m k := by
    unfold totalDmaCycles
    dsimp only
    refine add_le_add ?_ ?_
    · exact mul_le_mul htiles hload (e'.loadCycles_nonneg _) (Nat.cast_nonneg _)
    · exact mul_le_mul (by exact_mod_cast hm) hseq (e'.seqCycles_nonneg _) (Nat.cast_nonneg _)
  rw [e'.fields_totalCycles, e.fields_totalCycles]
  exact max_le_max (by exact_mod_cast hcompute) (Int.floor_mono hdma)

theorem OutputStationaryEngine.totalCycles_le {e e' : OutputStationaryEngine}
    (h : e.toMacEngine.Faster e'.toMacEngine) {weightDma weightDma' : ℚ} (hm' : 0 < m')
    (hm : m' ≤ m) (hk : k' ≤ k) (hn : n' ≤ n) :
    (e'.fields weightDma' m' k' n').totalCycles ≤ (e.fields weightDma m k n).totalCycles := by
  have hcompute : e'.totalComputeCycles m' k' n' ≤ e.totalComputeCycles m k n := by
    unfold totalComputeCycles
    rw [e'.perTileCompute_eq hm', e.perTileCompute_eq (hm'.trans_le hm), h.height, h.reduceCycles,
      h.totalTiles]
    refine Nat.mul_le_mul (Nat.add_le_add ?_ hm) (e.totalTiles_mono hk hn)
    exact Nat.mul_le_mul_right _ (ceilDiv_mono e.height_pos hm)
  have hideal : e'.idealCycles (m' * k' * n') ≤ e.idealCycles (m * k * n) := by
    rw [h.idealCycles]
    exact e.idealCycles_mono hm hk hn
  exact max_le_max (max_le_max (by exact_mod_cast hcompute) (by exact_mod_cast hideal))
    (h.rawCycles_le hm hk hn)

theorem GmmaEngine.totalCycles_le {e e' : GmmaEngine}
    (h : e.toMacEngine.Faster e'.toMacEngine) (hscale : e'.pipelineScale = e.pipelineScale)
    (hanswers : e.LoadAnswers (e.weightBytes k n)) (hm : m' ≤ m) (hk : k' ≤ k) (hn : n' ≤ n) :
    (e'.fields (e'.loadCycles (e'.weightBytes k' n')) m' k' n').totalCycles ≤
      (e.fields (e.loadCycles (e.weightBytes k n)) m k n).totalCycles := by
  have hdepth : e'.perTileCompute m' ≤ e.perTileCompute m := by
    unfold perTileCompute
    rw [h.height, h.width, hscale]
    refine max_le_max_left 1 (Nat.ceil_mono (mul_le_mul_of_nonneg_right ?_ e.pipelineScale_pos.le))
    exact_mod_cast Nat.add_le_add_right (Nat.add_le_add_left hm _) _
  have hcompute : e'.perTileCompute m' * e'.totalTiles k' n' ≤
      e.perTileCompute m * e.totalTiles k n := by
    rw [h.totalTiles]
    exact Nat.mul_le_mul hdepth (e.totalTiles_mono hk hn)
  have hideal : e'.idealCycles (m' * k' * n') ≤ e.idealCycles (m * k * n) := by
    rw [h.idealCycles]
    exact e.idealCycles_mono hm hk hn
  have hbytes : e'.weightBytes k' n' ≤ e.weightBytes k n := by
    unfold weightBytes
    rw [h.wBits]
    gcongr
  have hacts : m' * k' * e'.aBits / 8 ≤ m * k * e.aBits / 8 := by
    rw [h.aBits]
    gcongr
  have hdma := add_le_add (h.loadCycles_le hbytes hanswers) (h.seqCycles_le hacts)
  exact max_le_max (max_le_max (max_le_max (by exact_mod_cast hcompute) (by exact_mod_cast hideal))
    (h.rawCycles_le hm hk hn)) (Int.ceil_mono hdma)

/-! ### Tensor cores -/

namespace TensorCoreEngine

variable {e e' : TensorCoreEngine} {p : ℕ}

theorem numTcs_eq (h : e.toMacEngine.Faster e'.toMacEngine) : e'.numTcs = e.numTcs := by
  rw [numTcs, numTcs, h.height, h.width]

theorem perWaveDma_le (h : e.toMacEngine.Faster e'.toMacEngine)
    (hown : e'.descriptorOverheadCycles = e.descriptorOverheadCycles) :
    e'.perWaveDma p ≤ e.perWaveDma p := by
  have hbytes : e'.fullBytes p = e.fullBytes p := by
    rw [fullBytes, fullBytes, h.wBits, h.aBits]
  unfold perWaveDma
  rw [numTcs_eq h, hown, hbytes]
  exact add_le_add_left (mul_le_mul_of_nonneg_left (h.seqCycles_le le_rfl) (Nat.cast_nonneg _)) _

theorem totalInvocations_mono (hm : m' ≤ m) (hk : k' ≤ k) (hn : n' ≤ n) :
    totalInvocations m' k' n' ≤ totalInvocations m k n :=
  Nat.mul_le_mul (Nat.mul_le_mul (ceilDiv_mono subtileM_pos hm) (ceilDiv_mono subtileK_pos hk))
    (ceilDiv_mono subtileN_pos hn)

/-- In as many waves, the last wave of a smaller product transfers no more. -/
theorem lastWaveDma_mono (h : e.toMacEngine.Faster e'.toMacEngine)
    (hown : e'.descriptorOverheadCycles = e.descriptorOverheadCycles)
    (hwaves : e'.waves m' k' n' = e.waves m k n) (hm' : 0 < m') (hk' : 0 < k') (hn' : 0 < n')
    (hm : m' ≤ m) (hk : k' ≤ k) (hn : n' ≤ n) :
    e'.lastWaveDma p m' k' n' ≤ e.lastWaveDma p m k n := by
  have hactive : e'.invocationsLast m' k' n' ≤ e.invocationsLast m k n := by
    rw [invocationsLast, invocationsLast, numTcs_eq h, hwaves]
    exact Nat.sub_le_sub_right (totalInvocations_mono hm hk hn) _
  have hbytes : e'.lastWaveBytes p m' k' n' ≤ e.lastWaveBytes p m k n := by
    rw [e'.lastWaveBytes_eq hm' hk' hn',
      e.lastWaveBytes_eq (hm'.trans_le hm) (hk'.trans_le hk) (hn'.trans_le hn), numTcs_eq h, hwaves]
    refine sum_grid_le _ (ceilDiv_mono subtileM_pos hm) (ceilDiv_mono subtileK_pos hk)
      (ceilDiv_mono subtileN_pos hn) fun i hi j hj l hl => ?_
    have hpartM := tilePart_mono subtileM_pos hm hi
    have hpartK := tilePart_mono subtileK_pos hk hj
    have hpartN := tilePart_mono subtileN_pos hn hl
    unfold bytesAt
    rw [h.wBits, h.aBits]
    refine Nat.add_le_add (Nat.mul_le_mul_left p ?_) ?_
    · exact ceilDiv_mono (by decide) (Nat.mul_le_mul_right _ (Nat.mul_le_mul hpartK hpartN))
    · exact ceilDiv_mono (by decide) (Nat.mul_le_mul_right _ (Nat.mul_le_mul hpartM hpartK))
  unfold lastWaveDma
  rw [hown]
  refine add_le_add (h.seqCycles_le hbytes) ?_
  exact_mod_cast Nat.mul_le_mul_right _ hactive

/-- More waves take at least as long, and as many waves have a last one that is no shorter. -/
theorem waveCycles_le_waveCycles (h : e.toMacEngine.Faster e'.toMacEngine)
    (hown : e'.descriptorOverheadCycles = e.descriptorOverheadCycles) (htcs : 0 < e.numTcs)
    (hm' : 0 < m') (hk' : 0 < k') (hn' : 0 < n') (hm : m' ≤ m) (hk : k' ≤ k) (hn : n' ≤ n) :
    e'.waveCycles p m' k' n' ≤ e.waveCycles p m k n := by
  have hm0 := hm'.trans_le hm
  have hk0 := hk'.trans_le hk
  have hn0 := hn'.trans_le hn
  have htcs' : 0 < e'.numTcs := by rwa [numTcs_eq h]
  have hfull := perWaveDma_le h hown (p := p)
  have hbottleneck := max_le_max_left (perWaveCompute p : ℚ) hfull
  have hnonneg : (0 : ℚ) ≤ max (perWaveCompute p : ℚ) (e'.perWaveDma p) :=
    le_max_of_le_left (Nat.cast_nonneg _)
  have hwaves : e'.waves m' k' n' ≤ e.waves m k n := by
    rw [waves, waves, numTcs_eq h]
    exact ceilDiv_mono htcs (totalInvocations_mono hm hk hn)
  rcases hwaves.eq_or_lt with heq | hlt
  · have hlast := lastWaveDma_mono (p := p) h hown heq hm' hk' hn' hm hk hn
    rcases e.waves_eq_one_or htcs hm0 hk0 hn0 with hone | ⟨htwo, hcast⟩
    · rw [waveCycles, waveCycles, if_pos hone, if_pos (heq.trans hone)]
      exact add_le_add_left hlast _
    · have hle := e.le_waveCycles htcs hm0 hk0 hn0 htwo (p := p)
      have hsteady := mul_le_mul_of_nonneg_left hbottleneck hcast
      have hlastMax := max_le_max_left (perWaveCompute p : ℚ) hlast
      -- The last wave is full in the smaller product only if it is in the larger one.
      by_cases hactive : e.invocationsLast m k n = e.numTcs
      · have hupper := e'.waveCycles_le htcs' hm' hk' hn' (p := p)
        have hne : e.waves m k n ≠ 1 := by omega
        rw [heq] at hupper
        rw [waveCycles.eq_1 e, if_neg hne, if_pos hactive]
        linarith
      · have hactive' : e'.invocationsLast m' k' n' ≠ e'.numTcs := by
          have hle' : e'.invocationsLast m' k' n' ≤ e.invocationsLast m k n := by
            rw [invocationsLast, invocationsLast, numTcs_eq h, heq]
            exact Nat.sub_le_sub_right (totalInvocations_mono hm hk hn) _
          have hbound := e.invocationsLast_le htcs (m := m) (k := k) (n := n)
          rw [numTcs_eq h]
          omega
        have hne' : e'.waves m' k' n' ≠ 1 := by omega
        rw [waveCycles.eq_1 e', if_neg hne', if_neg hactive', heq]
        linarith
  · have htwo : 2 ≤ e.waves m k n := by
      have hpos := e'.waves_pos htcs' hm' hk' hn'
      omega
    have hupper := e'.waveCycles_le htcs' hm' hk' hn' (p := p)
    have hle := e.le_waveCycles htcs hm0 hk0 hn0 htwo (p := p)
    have hcast : ((e'.waves m' k' n' : ℚ) - 1) ≤ (e.waves m k n : ℚ) - 2 := by
      have hsucc : ((e'.waves m' k' n' + 1 : ℕ) : ℚ) ≤ e.waves m k n := by exact_mod_cast hlt
      push_cast at hsucc
      linarith
    have hcast0 : (0 : ℚ) ≤ (e.waves m k n : ℚ) - 2 := sub_nonneg.mpr (by exact_mod_cast htwo)
    have hsteady : ((e'.waves m' k' n' : ℚ) - 1) * max (perWaveCompute p : ℚ) (e'.perWaveDma p) ≤
        ((e.waves m k n : ℚ) - 2) * max (perWaveCompute p : ℚ) (e.perWaveDma p) :=
      mul_le_mul hcast hbottleneck hnonneg hcast0
    have hlast : (0 : ℚ) ≤ max (perWaveCompute p : ℚ) (e.lastWaveDma p m k n) :=
      le_max_of_le_left (Nat.cast_nonneg _)
    linarith

end TensorCoreEngine

/-! ### The engines that break the order -/

namespace WmmaEngine

variable {e e' : WmmaEngine}

/-- Fewer fragments of a tile take no longer, whatever the tiles. -/
theorem totalCycles_le_of_fragments (h : e.toMacEngine.Faster e'.toMacEngine)
    (hown : e'.fragmentSerializationCycles = e.fragmentSerializationCycles)
    (hfragments : e'.fragmentsPerTile m' k' n' ≤ e.fragmentsPerTile m k n) (hm : m' ≤ m)
    (hk : k' ≤ k) (hn : n' ≤ n) :
    (e'.fields 1 1 m' k' n').totalCycles ≤ (e.fields 1 1 m k n).totalCycles := by
  have htiles : e'.productTiles m' k' n' ≤ e.productTiles m k n := by
    unfold productTiles
    rw [h.height, h.width]
    exact Nat.mul_le_mul (Nat.mul_le_mul (ceilDiv_mono e.height_pos hm)
      (ceilDiv_mono e.height_pos hk)) (ceilDiv_mono e.width_pos hn)
  have hcompute : e'.perTileCompute 1 m' k' n' ≤ e.perTileCompute 1 m k n := by
    unfold perTileCompute perFragmentCompute
    rw [hown]
    exact Nat.mul_le_mul_right _ hfragments
  have hbytes : e'.perTileBytes 1 m' ≤ e.perTileBytes 1 m := by
    unfold perTileBytes
    rw [h.tileWeightBytes, h.tileActBytes]
    exact Nat.add_le_add_left (e.tileActBytes_mono hm) _
  have hdma : e'.perTileDma 1 m' k' n' ≤ e.perTileDma 1 m k n := by
    unfold perTileDma
    refine add_le_add ?_ (h.seqCycles_le hbytes)
    exact_mod_cast Nat.mul_le_mul_right _ hfragments
  rw [e'.fields_totalCycles, e.fields_totalCycles]
  exact Int.floor_mono (pipelined_mono htiles (by exact_mod_cast hcompute) hdma
    (Nat.cast_nonneg _))

/-- The tiles cover the cycles of those of a smaller product. -/
def CoversProduct (e e' : WmmaEngine) (m k n m' k' n' : ℕ) : Prop :=
  MacEngine.Covers (e.productTiles m k n) (e.perTileCompute 1 m k n) (e.perTileDma 1 m k n)
    ((e'.productTiles m' k' n' : ℤ) * e'.perTileCompute 1 m' k' n' +
      ⌊e'.perTileDma 1 m' k' n'⌋) ∧
  MacEngine.Covers (e.productTiles m k n) (e.perTileCompute 1 m k n) (e.perTileDma 1 m k n)
    ((e'.perTileCompute 1 m' k' n' : ℤ) +
      ⌊e'.productTiles m' k' n' * e'.perTileDma 1 m' k' n'⌋)

theorem totalCycles_le_iff (h : e.toMacEngine.Faster e'.toMacEngine)
    (hown : e'.fragmentSerializationCycles = e.fragmentSerializationCycles) (hm' : 0 < m')
    (hk' : 0 < k') (hn' : 0 < n') (hm : m' ≤ m) (hk : k' ≤ k) (hn : n' ≤ n) :
    (e'.fields 1 1 m' k' n').totalCycles ≤ (e.fields 1 1 m k n).totalCycles ↔
      e'.fragmentsPerTile m' k' n' ≤ e.fragmentsPerTile m k n ∨
        CoversProduct e e' m k n m' k' n' := by
  have hcovers : (e'.fields 1 1 m' k' n').totalCycles ≤ (e.fields 1 1 m k n).totalCycles ↔
      CoversProduct e e' m k n m' k' n' := by
    rw [e'.fields_totalCycles, e.fields_totalCycles,
      floor_pipelined (e'.productTiles_pos hm' hk' hn'), max_le_iff,
      MacEngine.le_floor_pipelined_iff
        (e.productTiles_pos (hm'.trans_le hm) (hk'.trans_le hk) (hn'.trans_le hn)),
      MacEngine.le_floor_pipelined_iff
        (e.productTiles_pos (hm'.trans_le hm) (hk'.trans_le hk) (hn'.trans_le hn))]
    rfl
  constructor
  · intro hle
    exact Or.inr (hcovers.mp hle)
  · rintro (hfragments | hproduct)
    · exact totalCycles_le_of_fragments h hown hfragments hm hk hn
    · exact hcovers.mpr hproduct

end WmmaEngine

namespace FsaEngine

variable {e e' : FsaEngine}

/-- The transfers of a product whose weights fit in their buffer. -/
theorem transferCycles_of_cached (h : e.Cached (e.weightBytes k n)) :
    e.transferCycles m k n = e.seqCycles (e.actBytes m k) / 0.01 := by
  unfold transferCycles
  dsimp only
  rw [e.dramEffForBytes_of_cached h, if_pos le_rfl, Nat.zero_add,
    max_eq_right (by norm_num : (0 : ℚ) ≤ 0.01)]

/-- The efficiency of weights that are not cached divides their transfer. -/
theorem transferCycles_of_not_cached (h : ¬ e.Cached (e.weightBytes k n)) :
    e.transferCycles m k n = e.seqCycles (e.weightBytes k n + e.actBytes m k) /
      max (e.dramEffForBytes (e.weightBytes k n)) 0.01 := by
  unfold transferCycles
  dsimp only
  rw [if_neg (not_le.mpr (e.dramEffForBytes_pos h))]

/-- Weights of no bytes are not cached. Their activations take no longer than cached ones. -/
theorem transferCycles_zero_le (h : e.weightBytes k n = 0) :
    e.transferCycles m k n ≤ e.seqCycles (e.actBytes m k) / 0.01 := by
  have hcached : ¬ e.Cached (e.weightBytes k n) := by
    rw [h]
    exact e.not_cached_zero
  rw [transferCycles_of_not_cached hcached, h, MacEngine.dramEffForBytes_zero, Nat.zero_add]
  refine div_le_div_of_nonneg_left (e.seqCycles_nonneg _) (by norm_num) ?_
  exact le_max_of_le_left (by norm_num)

theorem actBytes_le (h : e.toMacEngine.Faster e'.toMacEngine) (hm : m' ≤ m) (hk : k' ≤ k) :
    e'.actBytes m' k' ≤ e.actBytes m k := by
  unfold actBytes
  rw [h.aBits]
  gcongr

theorem weightBytes_le (h : e.toMacEngine.Faster e'.toMacEngine) (hk : k' ≤ k) (hn : n' ≤ n) :
    e'.weightBytes k' n' ≤ e.weightBytes k n := by
  unfold weightBytes
  rw [h.wBits]
  gcongr

/-- The transfers of a smaller product take no longer, unless only its weights fit. -/
theorem transferCycles_le (h : e.toMacEngine.Faster e'.toMacEngine) (hm : m' ≤ m) (hk : k' ≤ k)
    (hn : n' ≤ n)
    (hcached : e'.Cached (e'.weightBytes k' n') → e.Cached (e.weightBytes k n)) :
    e'.transferCycles m' k' n' ≤ e.transferCycles m k n := by
  have hacts := actBytes_le h hm hk
  have hbytes := weightBytes_le h hk hn
  have hcachedActs : e'.seqCycles (e'.actBytes m' k') / 0.01 ≤ e.seqCycles (e.actBytes m k) / 0.01 :=
    div_le_div_of_nonneg_right (h.seqCycles_le hacts) (by norm_num)
  by_cases hold : e.Cached (e.weightBytes k n)
  · rw [transferCycles_of_cached hold]
    rcases Nat.eq_zero_or_pos (e'.weightBytes k' n') with hzero | hpos
    · exact (transferCycles_zero_le hzero).trans hcachedActs
    · rw [transferCycles_of_cached (h.cached hpos hbytes hold)]
      exact hcachedActs
  · have hnew : ¬ e'.Cached (e'.weightBytes k' n') := fun hnew => hold (hcached hnew)
    rw [transferCycles_of_not_cached hold, transferCycles_of_not_cached hnew]
    exact div_le_div₀ (e.seqCycles_nonneg _) (h.seqCycles_le (Nat.add_le_add hbytes hacts))
      (e.max_dramEff_pos _) (max_le_max_right _ (h.dramEffForBytes_le hbytes hold hnew))

theorem computeCycles_le (h : e.toMacEngine.Faster e'.toMacEngine) (hm' : 0 < m') (hk' : 0 < k')
    (hn' : 0 < n') (hm : m' ≤ m) (hk : k' ≤ k) (hn : n' ≤ n) :
    e'.computeCycles m' k' n' ≤ e.computeCycles m k n := by
  unfold computeCycles
  rw [e'.productTiles_eq hm' hk' hn',
    e.productTiles_eq (hm'.trans_le hm) (hk'.trans_le hk) (hn'.trans_le hn), h.height, h.width]
  refine Nat.mul_le_mul (Nat.mul_le_mul (Nat.mul_le_mul ?_ ?_) ?_) ?_
  · exact ceilDiv_mono e.height_pos hk
  · exact ceilDiv_mono e.height_pos hm
  · exact ceilDiv_mono e.width_pos hn
  · exact Nat.add_le_add_right (Nat.add_le_add_left hm _) _

/-- The order is kept unless only the smaller weights fit, and then if its activations are
covered. -/
theorem totalCycles_le_iff (h : e.toMacEngine.Faster e'.toMacEngine) (hm' : 0 < m')
    (hk' : 0 < k') (hn' : 0 < n') (hm : m' ≤ m) (hk : k' ≤ k) (hn : n' ≤ n) :
    (e'.fields m' k' n').totalCycles ≤ (e.fields m k n).totalCycles ↔
      (e'.Cached (e'.weightBytes k' n') → e.Cached (e.weightBytes k n)) ∨
        ⌊e'.seqCycles (e'.actBytes m' k') / 0.01⌋ ≤ e.computeCycles m k n ∨
        ⌊e'.seqCycles (e'.actBytes m' k') / 0.01⌋ ≤ ⌊e.transferCycles m k n⌋ := by
  have hcompute : (e'.computeCycles m' k' n' : ℤ) ≤ e.computeCycles m k n := by
    exact_mod_cast computeCycles_le h hm' hk' hn' hm hk hn
  rw [e'.fields_totalCycles, e.fields_totalCycles, max_le_iff,
    and_iff_right (le_max_of_le_left hcompute)]
  by_cases hcached : e'.Cached (e'.weightBytes k' n') → e.Cached (e.weightBytes k n)
  · exact iff_of_true
      (le_max_of_le_right (Int.floor_mono (transferCycles_le h hm hk hn hcached))) (Or.inl hcached)
  · have hnew : e'.Cached (e'.weightBytes k' n') := by
      by_contra hnew
      exact hcached fun habs => absurd habs hnew
    rw [transferCycles_of_cached hnew, le_max_iff, or_iff_right hcached]

end FsaEngine

/-! ### All engines -/

namespace Engine

/-- The same engine with no less bandwidth and no smaller buffers. -/
def Faster (e e' : Engine) : Prop :=
  e.mac.Faster e'.mac ∧
    match e, e' with
    | systolic _, systolic _ | osSystolic _, osSystolic _ | block _, block _ => True
    | inputStationary _, inputStationary _ | fsa _, fsa _ => True
    | tensorCore e, tensorCore e' => e'.descriptorOverheadCycles = e.descriptorOverheadCycles
    | wmma e, wmma e' => e'.fragmentSerializationCycles = e.fragmentSerializationCycles
    | gmma e, gmma e' => e'.pipelineScale = e.pipelineScale
    | _, _ => False

/-- The rounding of fragments and the efficiency of cached weights keep the order of costs. -/
def KeepsOrder (e e' : Engine) (m k n m' k' n' : ℕ) : Prop :=
  match e, e' with
  | wmma e, wmma e' =>
    e'.fragmentsPerTile m' k' n' ≤ e.fragmentsPerTile m k n ∨
      WmmaEngine.CoversProduct e e' m k n m' k' n'
  | fsa e, fsa e' =>
    (e'.Cached (e'.weightBytes k' n') → e.Cached (e.weightBytes k n)) ∨
      ⌊e'.seqCycles (e'.actBytes m' k') / 0.01⌋ ≤ e.computeCycles m k n ∨
      ⌊e'.seqCycles (e'.actBytes m' k') / 0.01⌋ ≤ ⌊e.transferCycles m k n⌋
  | _, _ => True

variable {e e' : Engine}

/-- The order of the costs of a product and of a smaller one on a faster engine. -/
theorem fields_totalCycles_le_iff (h : e.Faster e') (hanswers : e.AnswersEstimate k n)
    (hm' : 0 < m') (hk' : 0 < k') (hn' : 0 < n') (hm : m' ≤ m) (hk : k' ≤ k) (hn : n' ≤ n) :
    (e'.fields m' k' n').totalCycles ≤ (e.fields m k n).totalCycles ↔
      e.KeepsOrder e' m k n m' k' n' := by
  obtain ⟨hmac, hown⟩ := h
  cases e <;> cases e' <;> simp only at hown
  case systolic.systolic e e' => exact iff_of_true (e.totalCycles_le hmac hm' hm hk hn) trivial
  case osSystolic.osSystolic e e' =>
    exact iff_of_true (e.totalCycles_le hmac hm' hm hk hn) trivial
  case block.block e e' => exact iff_of_true (e.totalCycles_le hmac hanswers hm hk hn) trivial
  case tensorCore.tensorCore e e' =>
    refine iff_of_true (Int.floor_mono ?_) trivial
    exact TensorCoreEngine.waveCycles_le_waveCycles hmac hown (e.numTcs_pos_iff.mpr hanswers)
      hm' hk' hn' hm hk hn
  case wmma.wmma e e' => exact WmmaEngine.totalCycles_le_iff hmac hown hm' hk' hn' hm hk hn
  case gmma.gmma e e' =>
    exact iff_of_true (e.totalCycles_le hmac hown hanswers hm hk hn) trivial
  case inputStationary.inputStationary e e' =>
    exact iff_of_true (e.totalCycles_le hmac hm hk hn) trivial
  case fsa.fsa e e' => exact FsaEngine.totalCycles_le_iff hmac hm' hk' hn' hm hk hn

/-- What is reported for a smaller product on a faster engine is no more. -/
def Ordered (e e' : Engine) (m k n m' k' n' : ℕ) : Prop :=
  ∀ r r', e.estimate m k n = .ok r → e'.estimate m' k' n' = .ok r' →
    r'.totalCycles ≤ r.totalCycles

theorem ordered_keeps (h : e.Faster e') (hm' : 0 < m') (hk' : 0 < k') (hn' : 0 < n')
    (hm : m' ≤ m) (hk : k' ≤ k) (hn : n' ≤ n) :
    e.Ordered e' m k n m' k' n' ↔
      (e.AnswersEstimate k n → e'.AnswersEstimate k' n' → e.KeepsOrder e' m k n m' k' n') := by
  by_cases hanswers : e.AnswersEstimate k n
  · by_cases hanswers' : e'.AnswersEstimate k' n'
    · have horder := fields_totalCycles_le_iff h hanswers hm' hk' hn' hm hk hn
      obtain ⟨r, hr, hfields⟩ :=
        estimate_returns hanswers (hm'.trans_le hm) (hk'.trans_le hk) (hn'.trans_le hn)
      obtain ⟨r', hr', hfields'⟩ := estimate_returns hanswers' hm' hk' hn'
      rw [← hfields, ← hfields'] at horder
      constructor
      · intro hordered _ _
        exact horder.mp (hordered r r' hr hr')
      · intro hkeeps s s' hs hs'
        rw [hr] at hs
        rw [hr'] at hs'
        cases hs
        cases hs'
        exact horder.mpr (hkeeps hanswers hanswers')
    · refine iff_of_true (fun r r' _ hr' => ?_) fun _ habs => absurd habs hanswers'
      rw [estimate_of_not_answers hanswers'] at hr'
      cases hr'
  · refine iff_of_true (fun r r' hr _ => ?_) fun habs => absurd habs hanswers
    rw [estimate_of_not_answers hanswers] at hr
    cases hr

/-! ### Configurations -/

variable {py : Builtins} {c : HardwareConfig} {b b' : PosRat} {l l' : ℕ+}

theorem macFaster_of_parsed {e e' : MacEngine} (h : MacEngine.Parsed (c.withMemory b l) e)
    (h' : MacEngine.Parsed (c.withMemory b' l') e') (hb : b ≤ b') (hl : l ≤ l') : e.Faster e' := by
  have hfMhz : e'.fMhz = e.fMhz := h'.fMhz.trans h.fMhz.symm
  have hpos : (0 : ℚ) < e.fMhz := by exact_mod_cast h.fMhz_pos
  have hraw : e.bwRaw ≤ e'.bwRaw := by
    have hbw : e.bwRaw = b.val * 1000 / e.fMhz := h.bwRaw
    have hbw' : e'.bwRaw = b'.val * 1000 / e'.fMhz := h'.bwRaw
    rw [hbw, hbw', hfMhz]
    exact div_le_div_of_nonneg_right
      (mul_le_mul_of_nonneg_right (Subtype.coe_le_coe.mpr hb) (by norm_num)) hpos.le
  have heff : e'.dramEfficiency = e.dramEfficiency := h'.dramEfficiency.trans h.dramEfficiency.symm
  have hmultiplier : e'.bwMultiplier = e.bwMultiplier :=
    h'.bwMultiplier.trans h.bwMultiplier.symm
  have hbuf : e.wbufKb ≤ e'.wbufKb := by
    have hl2 : e.l2SramKb = l := h.l2SramKb
    have hl2' : e'.l2SramKb = l' := h'.l2SramKb
    rw [h.wbufKb, h'.wbufKb, hl2, hl2']
    exact Nat.div_le_div_right (Nat.mul_le_mul_right 6 hl)
  have heffBw : e.effBwWeight = e.bwRaw * (e.dramEfficiency * e.bwMultiplier) := by
    rw [h.effBwWeight, MacEngine.externalBw, mul_assoc]
  have heffBw' : e'.effBwWeight = e'.bwRaw * (e.dramEfficiency * e.bwMultiplier) := by
    rw [h'.effBwWeight, MacEngine.externalBw, mul_assoc, heff, hmultiplier]
  exact
    { height := h'.height.trans h.height.symm
      width := h'.width.trans h.width.symm
      wBits := h'.wBits.trans h.wBits.symm
      aBits := h'.aBits.trans h.aBits.symm
      opsPerMac := h'.opsPerMac.trans h.opsPerMac.symm
      bwRaw := hraw
      effBwWeight := by
        rw [heffBw, heffBw']
        exact mul_le_mul_of_nonneg_right hraw
          (mul_nonneg e.dramEfficiency_nonneg e.bwMultiplier_pos.le)
      effBwWeight_pos := by
        rw [heffBw, heffBw', mul_pos_iff_of_pos_left e.bwRaw_pos,
          mul_pos_iff_of_pos_left e'.bwRaw_pos]
        exact id
      wbufKb := hbuf }

/-- An engine of a configuration with no less bandwidth and no smaller buffers is faster. -/
theorem faster_of_createEngine (he : createEngine py (c.withMemory b l) emptyGraph = .ok e)
    (he' : createEngine py (c.withMemory b' l') emptyGraph = .ok e') (hb : b ≤ b')
    (hl : l ≤ l') : e.Faster e' := by
  have h := createEngine_parsed he
  have h' := createEngine_parsed he'
  have htype : e'.engineType = e.engineType := h'.engineType.trans h.engineType.symm
  refine ⟨macFaster_of_parsed h.mac h'.mac hb hl, ?_⟩
  have hown := h.own
  have hown' := h'.own
  cases e <;> cases e' <;> simp [engineType] at htype <;> simp only
  · exact Nat.cast_injective (hown'.trans hown.symm)
  · exact Nat.cast_injective (hown'.trans hown.symm)
  · exact hown'.trans hown.symm

/-- For a configuration and one with no less bandwidth and no smaller buffers, what is reported for
a smaller product is no more exactly when the rounding of fragments and the efficiency of cached
weights keep the order. -/
theorem ordered_iff (he : createEngine py (c.withMemory b l) emptyGraph = .ok e)
    (he' : createEngine py (c.withMemory b' l') emptyGraph = .ok e') (hb : b ≤ b') (hl : l ≤ l')
    {m k n m' k' n' : ℕ+} (hm : m' ≤ m) (hk : k' ≤ k) (hn : n' ≤ n) :
    e.Ordered e' m k n m' k' n' ↔
      (e.AnswersEstimate k n → e'.AnswersEstimate k' n' → e.KeepsOrder e' m k n m' k' n') :=
  ordered_keeps (faster_of_createEngine he he' hb hl) m'.pos k'.pos n'.pos hm hk hn

/-- A square array with a bandwidth and a second level of buffers. -/
def arrayWithMemory (b : PosRat) (l : ℕ+) : HardwareConfigV2 :=
  { HardwareConfigV2.squareArray "systolic" 7 with
    bandwidthGbps := some b
    sram := some { l2SharedKb := some l } }

theorem exists_arrayWithMemory (b : PosRat) (l : ℕ+) :
    ∃ e, createEngine sampleBuiltins
      ((HardwareConfigV2.squareArray "systolic" 7).toConfig.withMemory b l) emptyGraph = .ok e ∧
      e.engineType = "systolic" := by
  have hfrequency : 0 < MacEngine.frequencyOf (arrayWithMemory b l).toConfig :=
    HardwareConfigV2.squareArray_frequency "systolic" 7
  have htype : (arrayWithMemory b l).type ∈ canonicalIds := List.mem_cons_self
  obtain ⟨e, he⟩ := ((arrayWithMemory b l).exists_createEngine_iff sampleBuiltins htype).mpr
    hfrequency
  exact ⟨e, he, (createEngine_parsed he).engineType⟩

/-- The orders of an array at one and two gigabytes per second. -/
theorem ordered_systolic :
    ∃ e e',
      createEngine sampleBuiltins
        ((HardwareConfigV2.squareArray "systolic" 7).toConfig.withMemory ⟨1, one_pos⟩
          (Nat.succPNat 0)) emptyGraph = .ok e ∧
      createEngine sampleBuiltins
        ((HardwareConfigV2.squareArray "systolic" 7).toConfig.withMemory ⟨2, two_pos⟩
          (Nat.succPNat 1)) emptyGraph = .ok e' ∧
      e.Ordered e' (Nat.succPNat 1) (Nat.succPNat 1) (Nat.succPNat 1) (Nat.succPNat 0)
        (Nat.succPNat 0) (Nat.succPNat 0) := by
  obtain ⟨e, he, htype⟩ := exists_arrayWithMemory ⟨1, one_pos⟩ (Nat.succPNat 0)
  obtain ⟨e', he', htype'⟩ := exists_arrayWithMemory ⟨2, two_pos⟩ (Nat.succPNat 1)
  have hb : (⟨1, one_pos⟩ : PosRat) ≤ ⟨2, two_pos⟩ := Subtype.mk_le_mk.mpr one_le_two
  refine ⟨e, e', he, he', (ordered_iff he he' hb (by decide) (by decide) (by decide)
    (by decide)).mpr fun _ _ => ?_⟩
  cases e <;> simp [engineType] at htype
  cases e' <;> simp [engineType] at htype'
  trivial

/-- One more row than fills a warp engine of 128 by 128 units halves the fragments of a tile, and
13760 cycles are reported instead of 13797. -/
theorem not_ordered :
    ¬ ∀ (py : Builtins) (v : HardwareConfigV2) (e : Engine) (m k n m' k' n' : ℕ+),
      createEngine py v.toConfig emptyGraph = .ok e → m' ≤ m → k' ≤ k → n' ≤ n →
        e.Ordered e m k n m' k' n' := by
  intro h
  obtain ⟨e, he, hparsed, htype⟩ :=
    HardwareConfigV2.exists_squareArray "wmma" 127 (by decide)
  have hrefl : e.Faster e := by
    refine ⟨MacEngine.Faster.refl _, ?_⟩
    cases e <;> trivial
  have hordered := h sampleBuiltins _ e (Nat.succPNat 128) (Nat.succPNat 15) (Nat.succPNat 15)
    (Nat.succPNat 127) (Nat.succPNat 15) (Nat.succPNat 15) he (by decide) le_rfl le_rfl
  have hkeeps := (ordered_keeps hrefl (PNat.pos _) (PNat.pos _) (PNat.pos _) (by decide) le_rfl
    le_rfl).mp hordered
  cases e with
  | wmma e =>
    obtain ⟨hheight, hwidth, hwBits, haBits, -, -, hbw, -⟩ :=
      HardwareConfigV2.squareArray_parameters (e := e.toMacEngine) hparsed.mac
    have hser : e.fragmentSerializationCycles = 1600 := Nat.cast_injective hparsed.own
    have hpos : 0 < e.effBwWeight := by
      rw [hbw]
      norm_num
    have htiles : e.productTiles 128 16 16 = 1 ∧ e.productTiles 129 16 16 = 2 := by
      rw [WmmaEngine.productTiles, WmmaEngine.productTiles, hheight, hwidth]
      exact ⟨rfl, rfl⟩
    have hfragments : e.fragmentsPerTile 128 16 16 = 8 ∧ e.fragmentsPerTile 129 16 16 = 4 := by
      rw [WmmaEngine.fragmentsPerTile, WmmaEngine.fragmentsPerTile, htiles.1, htiles.2]
      exact ⟨rfl, rfl⟩
    have hcompute : e.perTileCompute 1 128 16 16 = 13184 ∧ e.perTileCompute 1 129 16 16 = 6592 := by
      rw [WmmaEngine.perTileCompute, WmmaEngine.perTileCompute, WmmaEngine.perFragmentCompute,
        hfragments.1, hfragments.2, hser]
      exact ⟨rfl, rfl⟩
    have hbytes : e.perTileBytes 1 128 = 24576 ∧ e.perTileBytes 1 129 = 24704 := by
      rw [WmmaEngine.perTileBytes, WmmaEngine.perTileBytes, MacEngine.tileWeightBytes,
        MacEngine.tileActBytes, MacEngine.tileActBytes, hheight, hwidth, hwBits, haBits]
      exact ⟨rfl, rfl⟩
    have hdma : e.perTileDma 1 128 16 16 = 80 + 24576 / 46.08 ∧
        e.perTileDma 1 129 16 16 = 40 + 24704 / 46.08 := by
      rw [WmmaEngine.perTileDma, WmmaEngine.perTileDma, hfragments.1, hfragments.2, hbytes.1,
        hbytes.2, MacEngine.seqCycles_eq, MacEngine.seqCycles_eq, hbw]
      norm_num [WmmaEngine.dmaStartupCycles]
    rcases hkeeps hpos hpos with hle | ⟨hcovers, -⟩
    · change e.fragmentsPerTile 128 16 16 ≤ e.fragmentsPerTile 129 16 16 at hle
      rw [hfragments.1, hfragments.2] at hle
      exact absurd hle (by decide)
    · change MacEngine.Covers (e.productTiles 129 16 16) (e.perTileCompute 1 129 16 16)
        (e.perTileDma 1 129 16 16) ((e.productTiles 128 16 16 : ℤ) *
          e.perTileCompute 1 128 16 16 + ⌊e.perTileDma 1 128 16 16⌋) at hcovers
      have hfloor : ⌊(80 + 24576 / 46.08 : ℚ)⌋ = 613 := by norm_num [Int.floor_eq_iff]
      have hfloor' : ⌊(40 + 24704 / 46.08 : ℚ)⌋ = 576 := by norm_num [Int.floor_eq_iff]
      have hfloor'' : ⌊((2 : ℕ) : ℚ) * (40 + 24704 / 46.08)⌋ = 1152 := by
        norm_num [Int.floor_eq_iff]
      rw [MacEngine.Covers, htiles.1, htiles.2, hcompute.1, hcompute.2, hdma.1, hdma.2, hfloor,
        hfloor', hfloor''] at hcovers
      norm_num at hcovers
  | systolic e | osSystolic e | block e | tensorCore e | gmma e | inputStationary e | fsa e =>
    simp [engineType] at htype

end Engine

end Engines

end NpuArc
