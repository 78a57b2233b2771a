import NpuArc.Engines.Creation

/-!
# The bandwidth floor

Weights that come from the external memory take at least their bytes over its bandwidth. An
estimate keeps this floor when it counts a transfer of all weights, and otherwise only when its
other cycles happen to be as many: transfers are free at an efficiency of zero, and the block engine
and the array with inline attention do not count the load of weights that fit in their buffer.
-/

namespace NpuArc

namespace Engines

open Residency

namespace MacEngine

variable (e : MacEngine)

/-- The weights come from the external memory, at no more than its bandwidth. -/
def WeightsExternal : Prop := e.effBwWeight = e.bwRaw * e.dramEfficiency

/-- The bytes of the weights of a product. -/
def productWeightBytes (k n : ℕ) : ℕ := k * n * e.wBits / 8

/-- The cycles of the weights at the bandwidth of the external memory. -/
def bandwidthFloor (k n : ℕ) : ℤ := ⌈(e.productWeightBytes k n : ℚ) / e.bwRaw⌉

variable {e} {bytes k n : ℕ}

theorem WeightsExternal.effBwWeight_le (h : e.WeightsExternal) : e.effBwWeight ≤ e.bwRaw := by
  rw [h]
  exact mul_le_of_le_one_right e.bwRaw_pos.le e.dramEfficiency_le

/-- Transfers of at least the weights take at least as long as at the full bandwidth. -/
theorem WeightsExternal.div_bwRaw_le (h : e.WeightsExternal) (hbw : 0 < e.effBwWeight)
    (hbytes : e.productWeightBytes k n ≤ bytes) :
    (e.productWeightBytes k n : ℚ) / e.bwRaw ≤ e.seqCycles bytes := by
  rw [seqCycles_eq]
  exact div_le_div₀ (Nat.cast_nonneg _) (by exact_mod_cast hbytes) hbw h.effBwWeight_le

/-- An estimate that counts these transfers and a cycle of computation keeps the floor. -/
theorem WeightsExternal.bandwidthFloor_le (h : e.WeightsExternal) (hbw : 0 < e.effBwWeight)
    (hbytes : e.productWeightBytes k n ≤ bytes) {cycles : ℚ}
    (hcycles : e.seqCycles bytes + 1 ≤ cycles) : e.bandwidthFloor k n ≤ ⌊cycles⌋ := by
  refine ceil_le_floor_of_add_one_le (le_trans ?_ hcycles)
  exact add_le_add_left (h.div_bwRaw_le hbw hbytes) 1

/-- Tiles that hold at least the weights have at least their bytes. -/
theorem productWeightBytes_le {weights tiles : ℕ} (h : k * n ≤ weights * tiles) :
    e.productWeightBytes k n ≤ tiles * ((weights * e.wBits) ⌈/⌉ 8) := by
  refine Nat.div_le_of_le_mul ?_
  calc k * n * e.wBits ≤ weights * tiles * e.wBits := Nat.mul_le_mul_right _ h
    _ = tiles * (weights * e.wBits) := by ring
    _ ≤ tiles * (8 * ((weights * e.wBits) ⌈/⌉ 8)) :=
        Nat.mul_le_mul_left _ (le_mul_ceilDiv (by decide))
    _ = 8 * (tiles * ((weights * e.wBits) ⌈/⌉ 8)) := Nat.mul_left_comm _ _ _

/-- A pipeline of tiles that transfer at least the weights keeps the floor. -/
theorem WeightsExternal.bandwidthFloor_le_pipelined (h : e.WeightsExternal)
    (hbw : 0 < e.effBwWeight) {tiles compute : ℕ} {dma : ℚ} (htiles : 0 < tiles)
    (hcompute : 0 < compute) (hbytes : e.productWeightBytes k n ≤ tiles * bytes)
    (hdma : e.seqCycles bytes ≤ dma) :
    e.bandwidthFloor k n ≤ ⌊pipelined tiles (compute : ℚ) dma⌋ := by
  refine h.bandwidthFloor_le hbw hbytes ?_
  have hle := mul_transfer_add_le_pipelined htiles (c := (compute : ℚ)) (d := dma)
  have hone : (1 : ℚ) ≤ compute := by exact_mod_cast hcompute
  have hmul := mul_le_mul_of_nonneg_left hdma (Nat.cast_nonneg (α := ℚ) tiles)
  rw [seqCycles_mul]
  linarith

/-- A pipeline without transfers takes the computation of its tiles. -/
theorem floor_pipelined_zero {tiles compute : ℕ} (htiles : 0 < tiles) :
    ⌊pipelined tiles (compute : ℚ) 0⌋ = (tiles : ℤ) * compute := by
  have hmul : compute ≤ tiles * compute := Nat.le_mul_of_pos_left _ htiles
  rw [floor_pipelined htiles, mul_zero, Int.floor_zero, add_zero, add_zero, max_eq_left]
  exact_mod_cast hmul

/-- A pipeline of tiles keeps the floor when there is bandwidth, or the computation suffices. -/
theorem WeightsExternal.bandwidthFloor_le_pipelined_iff (h : e.WeightsExternal)
    {tiles compute : ℕ} (htiles : 0 < tiles) (hcompute : 0 < compute)
    (hbytes : e.productWeightBytes k n ≤ tiles * bytes) :
    e.bandwidthFloor k n ≤ ⌊pipelined tiles (compute : ℚ) (e.seqCycles bytes)⌋ ↔
      0 < e.effBwWeight ∨ e.bandwidthFloor k n ≤ (tiles : ℤ) * compute := by
  by_cases hbw : 0 < e.effBwWeight
  · exact iff_of_true (h.bandwidthFloor_le_pipelined hbw htiles hcompute hbytes le_rfl)
      (Or.inl hbw)
  · have hzero : e.effBwWeight = 0 := le_antisymm (not_lt.mp hbw) e.effBwWeight_nonneg
    rw [seqCycles_eq, hzero, div_zero, floor_pipelined_zero htiles]
    exact ⟨Or.inr, fun hor => hor.resolve_left (lt_irrefl 0)⟩

end MacEngine

/-! ### The engines -/

variable {m k n : ℕ}

theorem SystolicEngine.bandwidthFloor_iff (e : SystolicEngine) (h : e.WeightsExternal)
    (hm : 0 < m) (hk : 0 < k) (hn : 0 < n) :
    e.bandwidthFloor k n ≤ (e.fields m k n).totalCycles ↔
      0 < e.effBwWeight ∨
        e.bandwidthFloor k n ≤ (e.totalTiles k n : ℤ) * e.perKtileCompute m := by
  have hcompute : 0 < e.perKtileCompute m := by
    rw [e.perKtileCompute_eq hm]
    exact Nat.add_pos_right _ hm
  rw [e.fields_totalCycles]
  refine h.bandwidthFloor_le_pipelined_iff (e.totalTiles_pos hk hn) hcompute ?_
  exact (MacEngine.productWeightBytes_le (e.mul_le_totalTiles k n)).trans
    (Nat.mul_le_mul_left _ (Nat.le_add_right _ _))

theorem InputStationaryEngine.bandwidthFloor_iff (e : InputStationaryEngine)
    (h : e.WeightsExternal) (hm : 0 < m) (hn : 0 < n) :
    e.bandwidthFloor k n ≤ (e.fields m k n).totalCycles ↔
      0 < e.effBwWeight ∨ e.bandwidthFloor k n ≤ (e.totalTiles m n : ℤ) * e.perTileCompute k := by
  have hcompute : 0 < e.perTileCompute k := Nat.add_pos_right _ e.width_pos
  have hcolumns : n ≤ min n e.width * (n ⌈/⌉ e.width) := by
    rcases le_total n e.width with hle | hle
    · rw [min_eq_left hle]
      exact Nat.le_mul_of_pos_right _ (ceilDiv_pos hn e.width_pos)
    · rw [min_eq_right hle]
      exact le_mul_ceilDiv e.width_pos
  have hweights : k * n ≤ k * min n e.width * e.totalTiles m n := by
    rw [Nat.mul_assoc, MacEngine.totalTiles]
    refine Nat.mul_le_mul_left k (hcolumns.trans (Nat.mul_le_mul_left _ ?_))
    exact Nat.le_mul_of_pos_left _ (ceilDiv_pos hm e.height_pos)
  rw [e.fields_totalCycles]
  refine h.bandwidthFloor_le_pipelined_iff (e.totalTiles_pos hm hn) hcompute ?_
  exact (MacEngine.productWeightBytes_le hweights).trans
    (Nat.mul_le_mul_left _ (Nat.le_add_right _ _))

namespace WmmaEngine

variable (e : WmmaEngine)

theorem productWeightBytes_le (hm : 0 < m) :
    e.productWeightBytes k n ≤ e.productTiles m k n * e.perTileBytes 1 m := by
  have htiles : e.totalTiles k n ≤ e.productTiles m k n := by
    rw [productTiles, Nat.mul_assoc]
    exact Nat.le_mul_of_pos_left _ (ceilDiv_pos hm e.height_pos)
  have hweights : k * n ≤ e.height * e.width * e.productTiles m k n :=
    (e.mul_le_totalTiles k n).trans (Nat.mul_le_mul_left _ htiles)
  refine (MacEngine.productWeightBytes_le hweights).trans (Nat.mul_le_mul_left _ ?_)
  rw [perTileBytes, Nat.one_mul]
  exact Nat.le_add_right _ _

/-- The warp engine transfers all weights, and only rounds down. -/
theorem bandwidthFloor_iff (h : e.WeightsExternal) (hbw : 0 < e.effBwWeight) (hm : 0 < m)
    (hk : 0 < k) (hn : 0 < n) :
    e.bandwidthFloor k n ≤ (e.fields 1 1 m k n).totalCycles ↔
      0 < e.fragmentsPerTile m k n ∨
        e.bandwidthFloor k n ≤ ⌊e.productTiles m k n * e.seqCycles (e.perTileBytes 1 m)⌋ := by
  have htiles := e.productTiles_pos hm hk hn
  rw [e.fields_totalCycles]
  rcases Nat.eq_zero_or_pos (e.fragmentsPerTile m k n) with hzero | hpos
  · have hcompute : e.perTileCompute 1 m k n = 0 := by rw [perTileCompute, hzero, Nat.zero_mul]
    have hdma : e.perTileDma 1 m k n = e.seqCycles (e.perTileBytes 1 m) := by
      rw [perTileDma, hzero, Nat.zero_mul, Nat.cast_zero, zero_add]
    have hone : e.seqCycles (e.perTileBytes 1 m) ≤
        e.productTiles m k n * e.seqCycles (e.perTileBytes 1 m) :=
      le_mul_of_one_le_left (e.seqCycles_nonneg _) (by exact_mod_cast htiles)
    rw [hcompute, hdma, floor_pipelined htiles, hzero, Nat.cast_zero, mul_zero, zero_add, zero_add,
      max_eq_right (Int.floor_mono hone)]
    exact ⟨Or.inr, fun hor => hor.resolve_left (lt_irrefl 0)⟩
  · have hcompute : 0 < e.perTileCompute 1 m k n :=
      Nat.mul_pos hpos (Nat.mul_pos (Nat.add_pos_right _ (by decide)) one_pos)
    refine iff_of_true (h.bandwidthFloor_le_pipelined hbw htiles hcompute
      (e.productWeightBytes_le hm) ?_) (Or.inl hpos)
    exact le_add_of_nonneg_left (Nat.cast_nonneg _)

end WmmaEngine

namespace TensorCoreEngine

variable (e : TensorCoreEngine)

/-- The invocations transfer at least the weights. -/
theorem productWeightBytes_le (htcs : 0 < e.numTcs) (hm : 0 < m) (hk : 0 < k) (hn : 0 < n) :
    e.productWeightBytes k n ≤
      (e.waves m k n - 1) * (e.numTcs * e.fullBytes 1) + e.lastWaveBytes 1 m k n := by
  let bytes : ℕ → ℕ := fun idx =>
    e.bytesAt 1 m k n (idx / ((n ⌈/⌉ subtileN) * (k ⌈/⌉ subtileK)))
      (idx / (n ⌈/⌉ subtileN) % (k ⌈/⌉ subtileK)) (idx % (n ⌈/⌉ subtileN))
  have hstart : e.numTcs * (e.waves m k n - 1) ≤ totalInvocations m k n :=
    (mul_ceilDiv_sub_one_lt (totalInvocations_pos hm hk hn) htcs).le
  have hsplit := Finset.sum_range_add_sum_Ico bytes hstart
  have hfirst : ∑ idx ∈ Finset.range (e.numTcs * (e.waves m k n - 1)), bytes idx ≤
      (e.waves m k n - 1) * (e.numTcs * e.fullBytes 1) := by
    have hsum := Finset.sum_le_card_nsmul (Finset.range (e.numTcs * (e.waves m k n - 1))) bytes
      (e.fullBytes 1) fun idx _ => e.bytesAt_le _ _ _
    rw [Finset.card_range, smul_eq_mul] at hsum
    calc _ ≤ e.numTcs * (e.waves m k n - 1) * e.fullBytes 1 := hsum
      _ = (e.waves m k n - 1) * (e.numTcs * e.fullBytes 1) := by ring
  have hgrid := sum_grid (m ⌈/⌉ subtileM) (k ⌈/⌉ subtileK) (n ⌈/⌉ subtileN) (e.bytesAt 1 m k n)
  -- The invocations of the first rows transfer all weights.
  have hrow : ∑ j ∈ Finset.range (k ⌈/⌉ subtileK), ∑ l ∈ Finset.range (n ⌈/⌉ subtileN),
      e.bytesAt 1 m k n 0 j l ≤ ∑ idx ∈ Finset.range (totalInvocations m k n), bytes idx := by
    refine le_of_le_of_eq ?_ hgrid.symm
    exact Finset.single_le_sum
      (f := fun i => ∑ j ∈ Finset.range (k ⌈/⌉ subtileK), ∑ l ∈ Finset.range (n ⌈/⌉ subtileN),
        e.bytesAt 1 m k n i j l)
      (fun _ _ => Nat.zero_le _) (Finset.mem_range.mpr (ceilDiv_pos hm subtileM_pos))
  have hweights : k * n * e.wBits ≤ 8 * ∑ j ∈ Finset.range (k ⌈/⌉ subtileK),
      ∑ l ∈ Finset.range (n ⌈/⌉ subtileN), e.bytesAt 1 m k n 0 j l := by
    calc k * n * e.wBits
        = ∑ j ∈ Finset.range (k ⌈/⌉ subtileK), ∑ l ∈ Finset.range (n ⌈/⌉ subtileN),
            tilePart k subtileK j * tilePart n subtileN l * e.wBits :=
          (sum_tilePart_mul hk subtileK_pos hn subtileN_pos e.wBits).symm
      _ ≤ _ := by
          rw [Finset.mul_sum]
          refine Finset.sum_le_sum fun j _ => ?_
          rw [Finset.mul_sum]
          refine Finset.sum_le_sum fun l _ => ?_
          refine (le_mul_ceilDiv (by decide)).trans (Nat.mul_le_mul_left 8 ?_)
          rw [bytesAt, Nat.one_mul]
          exact Nat.le_add_right _ _
  have hlast := e.lastWaveBytes_eq hm hk hn (p := 1)
  refine Nat.div_le_of_le_mul (hweights.trans (Nat.mul_le_mul_left 8 ?_))
  rw [hlast]
  exact hrow.trans (hsplit.ge.trans (Nat.add_le_add_right hfirst _))

/-- The cycles of the waves when only descriptors are transferred. -/
def descriptorCycles (m k n : ℕ) : ℕ :=
  let full := e.numTcs * e.descriptorOverheadCycles
  let last := e.invocationsLast m k n * e.descriptorOverheadCycles
  if e.waves m k n = 1 then last + perSubtileCompute
  else
    full + perSubtileCompute + (e.waves m k n - 2) * max perSubtileCompute full +
      max perSubtileCompute last

/-- Without bandwidth only descriptors are transferred. -/
theorem floor_waveCycles_of_zero (hbw : e.effBwWeight = 0) (htcs : 0 < e.numTcs) (hm : 0 < m)
    (hk : 0 < k) (hn : 0 < n) :
    ⌊e.waveCycles 1 m k n⌋ = e.descriptorCycles m k n := by
  have hseq : ∀ b, e.seqCycles b = 0 := fun b => by rw [MacEngine.seqCycles_eq, hbw, div_zero]
  have hfull : e.perWaveDma 1 = (e.numTcs * e.descriptorOverheadCycles : ℕ) := by
    rw [perWaveDma, hseq, mul_zero, zero_add]
  have hlast : e.lastWaveDma 1 m k n =
      (e.invocationsLast m k n * e.descriptorOverheadCycles : ℕ) := by
    rw [lastWaveDma, hseq, zero_add]
  have hcycles : e.waveCycles 1 m k n = e.descriptorCycles m k n := by
    unfold waveCycles descriptorCycles
    dsimp only
    rw [hfull, hlast, perWaveCompute, Nat.one_mul]
    rcases e.waves_eq_one_or htcs hm hk hn with hone | ⟨htwo, -⟩
    · rw [if_pos hone, if_pos hone, Nat.cast_add]
    · have hne : e.waves m k n ≠ 1 := by omega
      rw [if_neg hne, if_neg hne]
      split_ifs with hactive
      · rw [hactive]
        push_cast [Nat.cast_sub htwo]
        ring
      · push_cast [Nat.cast_sub htwo]
        ring
  rw [hcycles, Int.floor_natCast]

/-- The tensor cores keep the floor when there is bandwidth, or the descriptors suffice. -/
theorem bandwidthFloor_iff (h : e.WeightsExternal) (htcs : 0 < e.numTcs) (hm : 0 < m)
    (hk : 0 < k) (hn : 0 < n) :
    e.bandwidthFloor k n ≤ (e.fields 1 m k n).totalCycles ↔
      0 < e.effBwWeight ∨ e.bandwidthFloor k n ≤ e.descriptorCycles m k n := by
  by_cases hbw : 0 < e.effBwWeight
  · refine iff_of_true (h.bandwidthFloor_le hbw (e.productWeightBytes_le htcs hm hk hn) ?_)
      (Or.inl hbw)
    have hle := e.transfers_le_waveCycles htcs hm hk hn (p := 1)
    have hwaves := e.waves_pos htcs hm hk hn
    have hcompute : (1 : ℚ) ≤ perWaveCompute 1 := by
      exact_mod_cast (by decide : 1 ≤ perWaveCompute 1)
    have hpayload : e.seqCycles (e.numTcs * e.fullBytes 1) ≤ e.perWaveDma 1 := by
      rw [MacEngine.seqCycles_mul]
      exact le_add_of_nonneg_right (Nat.cast_nonneg _)
    have hlast : e.seqCycles (e.lastWaveBytes 1 m k n) ≤ e.lastWaveDma 1 m k n :=
      le_add_of_nonneg_right (Nat.cast_nonneg _)
    have hsteady := mul_le_mul_of_nonneg_left hpayload
      (Nat.cast_nonneg (α := ℚ) (e.waves m k n - 1))
    rw [Nat.cast_pred hwaves] at hsteady
    rw [MacEngine.seqCycles_add, MacEngine.seqCycles_mul, Nat.cast_pred hwaves]
    linarith
  · have hzero : e.effBwWeight = 0 := le_antisymm (not_lt.mp hbw) e.effBwWeight_nonneg
    have htotal : (e.fields 1 m k n).totalCycles = e.descriptorCycles m k n :=
      e.floor_waveCycles_of_zero hzero htcs hm hk hn
    rw [htotal, or_iff_right hbw]

end TensorCoreEngine

theorem BlockEngine.bandwidthFloor_iff (e : BlockEngine) (weightDma : ℚ) :
    e.bandwidthFloor k n ≤ (e.fields weightDma m k n).totalCycles ↔
      e.bandwidthFloor k n ≤ e.totalCompute m k n ∨
        e.bandwidthFloor k n ≤ ⌊e.totalDmaCycles weightDma m k⌋ := by
  rw [e.fields_totalCycles, le_max_iff]

theorem FsaEngine.bandwidthFloor_iff (e : FsaEngine) :
    e.bandwidthFloor k n ≤ (e.fields m k n).totalCycles ↔
      e.bandwidthFloor k n ≤ e.computeCycles m k n ∨
        e.bandwidthFloor k n ≤ ⌊e.transferCycles m k n⌋ := by
  rw [e.fields_totalCycles, le_max_iff]

/-- The raw bytes over the raw bandwidth include the weights. -/
theorem MacEngine.bandwidthFloor_le_rawCycles (e : MacEngine) :
    e.bandwidthFloor k n ≤ rawCycles (e.rawBytes m k n) e.bwRaw := by
  rw [rawCycles, if_pos e.bwRaw_pos]
  refine Int.ceil_mono (div_le_div_of_nonneg_right ?_ e.bwRaw_pos.le)
  exact_mod_cast Nat.le_add_right _ _

namespace Engine

/-- The estimate reports at least the cycles of the weights at the bandwidth of the external
memory. -/
def MeetsBandwidthFloor (e : Engine) (m k n : ℕ) : Prop :=
  ∃ r, e.estimate m k n = .ok r ∧ e.mac.bandwidthFloor k n ≤ r.totalCycles

/-- The transfers that an engine counts, or its computation, cover the floor. -/
def CountsTransfers (e : Engine) (m k n : ℕ) : Prop :=
  match e with
  | systolic e =>
    0 < e.effBwWeight ∨ e.bandwidthFloor k n ≤ (e.totalTiles k n : ℤ) * e.perKtileCompute m
  | block e =>
    -- A load of weights in their buffer is free.
    e.bandwidthFloor k n ≤ e.totalCompute m k n ∨
      e.bandwidthFloor k n ≤ ⌊e.totalDmaCycles (e.loadCycles (e.weightBytes k n)) m k⌋
  | tensorCore e => 0 < e.effBwWeight ∨ e.bandwidthFloor k n ≤ e.descriptorCycles m k n
  | wmma e =>
    0 < e.fragmentsPerTile m k n ∨
      e.bandwidthFloor k n ≤ ⌊e.productTiles m k n * e.seqCycles (e.perTileBytes 1 m)⌋
  | inputStationary e =>
    0 < e.effBwWeight ∨ e.bandwidthFloor k n ≤ (e.totalTiles m n : ℤ) * e.perTileCompute k
  | fsa e =>
    e.bandwidthFloor k n ≤ e.computeCycles m k n ∨ e.bandwidthFloor k n ≤ ⌊e.transferCycles m k n⌋
  | osSystolic _ | gmma _ => True

variable {e : Engine}

theorem fields_bandwidthFloor_iff (h : e.mac.WeightsExternal) (hanswers : e.AnswersEstimate k n)
    (hm : 0 < m) (hk : 0 < k) (hn : 0 < n) :
    e.mac.bandwidthFloor k n ≤ (e.fields m k n).totalCycles ↔ e.CountsTransfers m k n := by
  cases e with
  | systolic e => exact e.bandwidthFloor_iff h hm hk hn
  | osSystolic e =>
    exact iff_of_true (le_max_of_le_right e.bandwidthFloor_le_rawCycles) trivial
  | block e => exact e.bandwidthFloor_iff _
  | tensorCore e => exact e.bandwidthFloor_iff h (e.numTcs_pos_iff.mpr hanswers) hm hk hn
  | wmma e => exact e.bandwidthFloor_iff h hanswers hm hk hn
  | gmma e =>
    exact iff_of_true (le_max_of_le_left (le_max_of_le_right e.bandwidthFloor_le_rawCycles))
      trivial
  | inputStationary e => exact e.bandwidthFloor_iff h hm hn
  | fsa e => exact e.bandwidthFloor_iff

theorem meetsBandwidthFloor_counts (h : e.mac.WeightsExternal) (hm : 0 < m) (hk : 0 < k)
    (hn : 0 < n) :
    e.MeetsBandwidthFloor m k n ↔ e.AnswersEstimate k n ∧ e.CountsTransfers m k n := by
  have hexists := estimate_exists_iff hm hk hn (e := e)
    (P := fun r => e.mac.bandwidthFloor k n ≤ r.totalCycles)
  exact hexists.trans (and_congr_right fun hanswers =>
    fields_bandwidthFloor_iff h hanswers hm hk hn)

/-- The weights of an accepted configuration without a graph are external. -/
theorem weightsExternal_of_parsed {v : HardwareConfigV2} (h : e.Parsed v.toConfig) :
    e.mac.WeightsExternal := by
  have hmultiplier : e.mac.bwMultiplier = 1 := h.mac.bwMultiplier
  rw [MacEngine.WeightsExternal, h.mac.effBwWeight, MacEngine.externalBw, hmultiplier, mul_one]

end Engine

end Engines

/-! ### The fragments of the warp engine

The fragments of a product are divided by its tiles with rounding down, and what is left over is not
charged. The tiles transfer at least the weights of the product. -/

namespace Engines

open Residency

namespace WmmaEngine

variable {e : WmmaEngine} {m k n : ℕ}

/-- A result charges all fragments, and its bytes cover the weights. -/
def ChargesFragments (e : WmmaEngine) (m k n : ℕ) (r : ResultFields) : Prop :=
  ((totalFragments m k n * e.perFragmentCompute 1 : ℕ) : ℤ) ≤ r.computeCycles ∧
    (k * n * e.wBits) ⌈/⌉ 8 ≤ r.weightBytes

theorem perFragmentCompute_pos : 0 < e.perFragmentCompute 1 :=
  Nat.mul_pos (Nat.add_pos_right _ (by decide)) one_pos

/-- The weights of a product fit in the bytes of its tiles. -/
theorem weightBytes_le (hm : 0 < m) :
    (k * n * e.wBits) ⌈/⌉ 8 ≤ e.productTiles m k n * e.perTileBytes 1 m := by
  have htiles : e.totalTiles k n ≤ e.productTiles m k n := by
    rw [productTiles, Nat.mul_assoc]
    exact Nat.le_mul_of_pos_left _ (ceilDiv_pos hm e.height_pos)
  have hweights : k * n ≤ e.height * e.width * e.productTiles m k n :=
    (e.mul_le_totalTiles k n).trans (Nat.mul_le_mul_left _ htiles)
  rw [ceilDiv_le_iff_le_smul (by decide), smul_eq_mul]
  calc k * n * e.wBits
      ≤ e.height * e.width * e.productTiles m k n * e.wBits := Nat.mul_le_mul_right _ hweights
    _ = e.productTiles m k n * (e.height * e.width * e.wBits) := by ring
    _ ≤ e.productTiles m k n * (8 * e.tileWeightBytes) :=
        Nat.mul_le_mul_left _ (le_mul_ceilDiv (by decide))
    _ ≤ e.productTiles m k n * (8 * e.perTileBytes 1 m) := by
        rw [perTileBytes, Nat.one_mul]
        exact Nat.mul_le_mul_left _ (Nat.mul_le_mul_left _ (Nat.le_add_right _ _))
    _ = 8 * (e.productTiles m k n * e.perTileBytes 1 m) := Nat.mul_left_comm _ _ _

/-- The fragments of the tiles are all fragments exactly when they are divided without a rest. -/
theorem chargesFragments_fields_iff (hm : 0 < m) :
    ChargesFragments e m k n (e.fields 1 1 m k n) ↔
      e.productTiles m k n ∣ totalFragments m k n := by
  have hcompute : (e.fields 1 1 m k n).computeCycles =
      ((totalFragments m k n / e.productTiles m k n * e.productTiles m k n *
        e.perFragmentCompute 1 : ℕ) : ℤ) := by
    rw [fields, perTileCompute, fragmentsPerTile]
    push_cast
    ring
  have hbytes : (k * n * e.wBits) ⌈/⌉ 8 ≤ (e.fields 1 1 m k n).weightBytes := weightBytes_le hm
  rw [ChargesFragments, and_iff_left hbytes, hcompute, Nat.cast_le,
    Nat.mul_le_mul_right_iff perFragmentCompute_pos]
  constructor
  · intro hle
    have hall := le_antisymm (Nat.div_mul_le_self _ _) hle
    exact Dvd.intro_left _ hall
  · intro hdvd
    rw [Nat.div_mul_cancel hdvd]

/-- An estimate charges all fragments exactly when it answers and its tiles divide them. -/
theorem chargesFragments_iff (e : WmmaEngine) (hm : 0 < m) (hk : 0 < k) (hn : 0 < n) :
    (∃ result, e.estimate m k n = .ok result ∧ ChargesFragments e m k n result.toResultFields) ↔
      0 < e.effBwWeight ∧ e.productTiles m k n ∣ totalFragments m k n := by
  by_cases hbw : 0 < e.effBwWeight
  · have hreturns : Returns (e.estimate m k n) (e.fields 1 1 m k n) :=
      e.estimateWith_returns hbw one_pos hm hk hn
    rw [and_iff_right hbw, ← chargesFragments_fields_iff hm]
    exact hreturns.exists_iff
  · have hzero : e.effBwWeight = 0 := le_antisymm (not_lt.mp hbw) e.effBwWeight_nonneg
    refine iff_of_false (not_exists_of_error (e.estimateWith_of_zero hzero)) fun h => hbw h.1

/-- A square array of the warp engine at the default bandwidth. -/
theorem exists_squareWarps (side : ℕ) :
    ∃ e : WmmaEngine,
      createEngine sampleBuiltins (HardwareConfigV2.squareArray "wmma" side).toConfig emptyGraph =
        .ok (.wmma e) ∧ e.height = side + 1 ∧ e.width = side + 1 ∧ 0 < e.effBwWeight := by
  obtain ⟨e, he, hparsed, htype⟩ := HardwareConfigV2.exists_squareArray "wmma" side (by decide)
  cases e with
  | wmma e =>
    obtain ⟨hheight, hwidth, -, -, -, -, hbw, -⟩ :=
      HardwareConfigV2.squareArray_parameters (e := e.toMacEngine) hparsed.mac
    refine ⟨e, he, hheight, hwidth, ?_⟩
    rw [hbw]
    norm_num
  | systolic e | osSystolic e | block e | tensorCore e | gmma e | inputStationary e | fsa e =>
    simp [Engine.engineType] at htype

/-- The 8 tiles of 16 rows and columns on an array of 8 by 8 units share one fragment, and none is
charged. -/
theorem smallArray_not_charged :
    ∃ e, createEngine sampleBuiltins (HardwareConfigV2.squareArray "wmma" 7).toConfig emptyGraph =
        .ok (.wmma e) ∧
      ¬∃ result, e.estimate 16 16 16 = .ok result ∧
        ChargesFragments e 16 16 16 result.toResultFields := by
  obtain ⟨e, he, hheight, hwidth, hbw⟩ := exists_squareWarps 7
  refine ⟨e, he, fun h => ?_⟩
  have hreturns : Returns (e.estimate 16 16 16) (e.fields 1 1 16 16 16) :=
    e.estimateWith_returns hbw one_pos (by decide) (by decide) (by decide)
  have hdvd := (chargesFragments_fields_iff (by decide)).mp (hreturns.exists_iff.mp h)
  rw [productTiles, hheight, hwidth] at hdvd
  exact absurd hdvd (by decide)

/-- An array of one fragment charges the fragment of a product of its size. -/
theorem chargesFragments_one :
    ∃ e, createEngine sampleBuiltins (HardwareConfigV2.squareArray "wmma" 15).toConfig emptyGraph =
        .ok (.wmma e) ∧
      ∃ result, e.estimate 16 16 16 = .ok result ∧
        ChargesFragments e 16 16 16 result.toResultFields := by
  obtain ⟨e, he, hheight, hwidth, hbw⟩ := exists_squareWarps 15
  refine ⟨e, he, (chargesFragments_iff e (by decide) (by decide) (by decide)).mpr ⟨hbw, ?_⟩⟩
  rw [productTiles, hheight, hwidth]
  decide

end WmmaEngine

end Engines

end NpuArc
