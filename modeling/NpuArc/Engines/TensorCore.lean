import NpuArc.Engines.Transfer
import NpuArc.Library.Grid

/-!
# The tensor cores

The array is divided into cores, and a product into invocations of a core with a fixed shape. All
cores are invoked in a wave. The invocations of the last wave have the sizes that the product
leaves them.
-/

namespace NpuArc

namespace Engines

/-- Tensor cores with the cycles of a descriptor. -/
structure TensorCoreEngine extends MacEngine where
  descriptorOverheadCycles : ℕ

namespace TensorCoreEngine

/-- The depth of an invocation. -/
def subtileK : ℕ := 64

/-- The rows of an invocation. -/
def subtileM : ℕ := 16

/-- The columns of an invocation. -/
def subtileN : ℕ := 16

/-- The cycles in which a core is filled. -/
def subtilePipelineFill : ℕ := 80

/-- The cycles in which a core is started. -/
def subtileOverheadCycles : ℕ := 4

/-- The cycles of an invocation. -/
def perSubtileCompute : ℕ := subtilePipelineFill + subtileOverheadCycles

/-- The size that is left for the last invocation in a direction. -/
def lastSize (work size : ℕ) : ℕ :=
  let last := work - (work ⌈/⌉ size - 1) * size
  if last = 0 then size else last

/-- The size of an invocation in a direction. -/
def effectiveSize (work size idx : ℕ) : ℕ :=
  if idx = work ⌈/⌉ size - 1 then lastSize work size else size

variable (e : TensorCoreEngine) (p m k n : ℕ)

/-- The cores of the array. -/
def numTcs : ℕ := e.height * e.width / (subtileM * subtileN)

/-- The invocations of a product. -/
def totalInvocations (m k n : ℕ) : ℕ := (m ⌈/⌉ subtileM) * (k ⌈/⌉ subtileK) * (n ⌈/⌉ subtileN)

/-- The bytes of the weights and of the activations of a whole invocation. -/
def fullBytes : ℕ :=
  p * ((subtileK * subtileN * e.wBits) ⌈/⌉ 8) + (subtileM * subtileK * e.aBits) ⌈/⌉ 8

/-- The bytes of the weights of the invocation with a number. -/
def invocationWeightBytes (idx : ℕ) : ℕ :=
  let nIdx := idx % (n ⌈/⌉ subtileN)
  let kIdx := idx / (n ⌈/⌉ subtileN) % (k ⌈/⌉ subtileK)
  (effectiveSize k subtileK kIdx * effectiveSize n subtileN nIdx * e.wBits) ⌈/⌉ 8

/-- The bytes of the activations of the invocation with a number. -/
def invocationActBytes (idx : ℕ) : ℕ :=
  let kIdx := idx / (n ⌈/⌉ subtileN) % (k ⌈/⌉ subtileK)
  let mIdx := idx / ((n ⌈/⌉ subtileN) * (k ⌈/⌉ subtileK))
  (effectiveSize m subtileM mIdx * effectiveSize k subtileK kIdx * e.aBits) ⌈/⌉ 8

/-- The waves of a product. -/
def waves : ℕ := totalInvocations m k n ⌈/⌉ e.numTcs

/-- The invocations of the last wave. -/
def invocationsLast : ℕ := totalInvocations m k n - e.numTcs * (e.waves m k n - 1)

/-- The bytes of the last wave. -/
def lastWaveBytes : ℕ :=
  let start := e.numTcs * (e.waves m k n - 1)
  let active := e.invocationsLast m k n
  p * ∑ i ∈ Finset.range active, e.invocationWeightBytes k n (start + i) +
    ∑ i ∈ Finset.range active, e.invocationActBytes m k n (start + i)

/-- The cycles of the computation of a wave. -/
def perWaveCompute : ℕ := p * perSubtileCompute

/-- The cycles of the transfers of a whole wave. -/
def perWaveDma : ℚ :=
  e.numTcs * e.seqCycles (e.fullBytes p) + (e.numTcs * e.descriptorOverheadCycles : ℕ)

/-- The cycles of the transfers of the last wave. -/
def lastWaveDma : ℚ :=
  e.seqCycles (e.lastWaveBytes p m k n) +
    (e.invocationsLast m k n * e.descriptorOverheadCycles : ℕ)

/-- The cycles of all waves. -/
def waveCycles : ℚ :=
  let waves := e.waves m k n
  let perWaveCompute : ℚ := perWaveCompute p
  let perWaveDma := e.perWaveDma p
  let lastWaveDma := e.lastWaveDma p m k n
  let bottleneck := max perWaveCompute perWaveDma
  if waves = 1 then lastWaveDma + perWaveCompute
  else if e.invocationsLast m k n = e.numTcs then
    perWaveDma + perWaveCompute + (waves - 1) * bottleneck
  else
    perWaveDma + perWaveCompute + (waves - 2) * bottleneck + max perWaveCompute lastWaveDma

/-- The fields of an estimate. -/
def fields : ResultFields :=
  let waves := e.waves m k n
  let total := ⌊e.waveCycles p m k n⌋
  let totalMacs := m * k * n * p
  let ideal := e.idealCycles totalMacs
  let computeCycles : ℤ := waves * perWaveCompute p
  { computeCycles := computeCycles
    dmaCycles := total - computeCycles
    totalCycles := total
    utilization := MacEngine.utilizationOf ideal total
    macCount := totalMacs
    opCount := totalMacs * 2
    idealComputeCycles := ideal
    rawDmaCycles := MacEngine.rawCycles (e.rawBytes m k n * p) e.effBw
    numTiles := totalInvocations m k n
    weightBytes := (waves - 1) * e.numTcs * e.fullBytes p + e.lastWaveBytes p m k n
    bottleneck := if e.perWaveDma p < perWaveCompute p then "compute" else "dma" }

/-- Estimate a number of products that share their activations. -/
def estimateWith : Except Failure EngineResult :=
  -- The waves are the invocations over the cores.
  if e.numTcs = 0 then .error .zeroDivisionError else EngineResult.new (e.fields p m k n)

/-- Estimate a product. -/
def estimate : Except Failure EngineResult := e.estimateWith 1 m k n

/-- Estimate a pair of products that share their activations. -/
def estimateWeightCachePair : Except Failure EngineResult := e.estimateWith 2 m k n

/-! ### Invocations -/

theorem subtileK_pos : 0 < subtileK := by decide

theorem subtileM_pos : 0 < subtileM := by decide

theorem subtileN_pos : 0 < subtileN := by decide

/-- The size of an invocation is the part of a tile. -/
theorem effectiveSize_eq {work size : ℕ} (hwork : 0 < work) (hsize : 0 < size) (idx : ℕ) :
    effectiveSize work size idx = tilePart work size idx := by
  have hlast := lastTile_pos hwork hsize
  unfold effectiveSize tilePart lastSize
  dsimp only
  rw [if_neg hlast.ne']

theorem numTcs_pos_iff : 0 < e.numTcs ↔ 256 ≤ e.height * e.width :=
  Nat.div_pos_iff.trans (and_iff_right (by decide))

variable {p m k n}

theorem totalInvocations_pos (hm : 0 < m) (hk : 0 < k) (hn : 0 < n) :
    0 < totalInvocations m k n :=
  Nat.mul_pos (Nat.mul_pos (ceilDiv_pos hm subtileM_pos) (ceilDiv_pos hk subtileK_pos))
    (ceilDiv_pos hn subtileN_pos)

theorem waves_pos (htcs : 0 < e.numTcs) (hm : 0 < m) (hk : 0 < k) (hn : 0 < n) :
    0 < e.waves m k n :=
  ceilDiv_pos (totalInvocations_pos hm hk hn) htcs

theorem waves_eq_one_or (htcs : 0 < e.numTcs) (hm : 0 < m) (hk : 0 < k) (hn : 0 < n) :
    e.waves m k n = 1 ∨ 2 ≤ e.waves m k n ∧ (0 : ℚ) ≤ (e.waves m k n : ℚ) - 2 := by
  have hpos := e.waves_pos htcs hm hk hn
  rcases Nat.lt_or_ge (e.waves m k n) 2 with hlt | htwo
  · exact Or.inl (by omega)
  · refine Or.inr ⟨htwo, sub_nonneg.mpr ?_⟩
    exact_mod_cast htwo

theorem invocationsLast_le (htcs : 0 < e.numTcs) : e.invocationsLast m k n ≤ e.numTcs := by
  have hle := lastTile_le htcs (a := totalInvocations m k n)
  rwa [Nat.mul_comm] at hle

/-- The bytes of an invocation, by its coordinates. -/
def bytesAt (p m k n i j l : ℕ) : ℕ :=
  p * ((tilePart k subtileK j * tilePart n subtileN l * e.wBits) ⌈/⌉ 8) +
    (tilePart m subtileM i * tilePart k subtileK j * e.aBits) ⌈/⌉ 8

/-- The last wave transfers the bytes of its invocations. -/
theorem lastWaveBytes_eq (hm : 0 < m) (hk : 0 < k) (hn : 0 < n) :
    e.lastWaveBytes p m k n =
      ∑ idx ∈ Finset.Ico (e.numTcs * (e.waves m k n - 1)) (totalInvocations m k n),
        e.bytesAt p m k n (idx / ((n ⌈/⌉ subtileN) * (k ⌈/⌉ subtileK)))
          (idx / (n ⌈/⌉ subtileN) % (k ⌈/⌉ subtileK)) (idx % (n ⌈/⌉ subtileN)) := by
  rw [Finset.sum_Ico_eq_sum_range, lastWaveBytes, Finset.mul_sum, ← Finset.sum_add_distrib]
  refine Finset.sum_congr rfl fun i _ => ?_
  unfold invocationWeightBytes invocationActBytes bytesAt
  dsimp only
  rw [effectiveSize_eq hk subtileK_pos, effectiveSize_eq hn subtileN_pos,
    effectiveSize_eq hm subtileM_pos]

/-- No invocation has more bytes than a whole one. -/
theorem bytesAt_le (i j l : ℕ) : e.bytesAt p m k n i j l ≤ e.fullBytes p := by
  have hpartK := tilePart_le k j subtileK_pos
  have hpartN := tilePart_le n l subtileN_pos
  have hpartM := tilePart_le m i subtileM_pos
  unfold bytesAt fullBytes
  gcongr
  · exact ceilDiv_mono (by decide) (Nat.mul_le_mul_right _ (Nat.mul_le_mul hpartK hpartN))
  · exact ceilDiv_mono (by decide) (Nat.mul_le_mul_right _ (Nat.mul_le_mul hpartM hpartK))

/-- The last wave has at most the bytes of as many whole invocations. -/
theorem lastWaveBytes_le (hm : 0 < m) (hk : 0 < k) (hn : 0 < n) :
    e.lastWaveBytes p m k n ≤ e.invocationsLast m k n * e.fullBytes p := by
  have hsum := Finset.sum_le_card_nsmul
    (Finset.Ico (e.numTcs * (e.waves m k n - 1)) (totalInvocations m k n)) _ (e.fullBytes p)
    fun idx _ => e.bytesAt_le (p := p) (m := m) (k := k) (n := n)
      (idx / ((n ⌈/⌉ subtileN) * (k ⌈/⌉ subtileK))) (idx / (n ⌈/⌉ subtileN) % (k ⌈/⌉ subtileK))
      (idx % (n ⌈/⌉ subtileN))
  rw [Nat.card_Ico, smul_eq_mul] at hsum
  rw [e.lastWaveBytes_eq hm hk hn]
  exact hsum

/-- The transfers of the last wave take no longer than those of a whole one. -/
theorem lastWaveDma_le (htcs : 0 < e.numTcs) (hm : 0 < m) (hk : 0 < k) (hn : 0 < n) :
    e.lastWaveDma p m k n ≤ e.perWaveDma p := by
  have hactive := e.invocationsLast_le htcs (m := m) (k := k) (n := n)
  have hbytes : e.lastWaveBytes p m k n ≤ e.numTcs * e.fullBytes p :=
    (e.lastWaveBytes_le hm hk hn).trans (Nat.mul_le_mul_right _ hactive)
  unfold lastWaveDma perWaveDma
  refine add_le_add ?_ (by exact_mod_cast Nat.mul_le_mul_right _ hactive)
  rw [← MacEngine.seqCycles_mul]
  exact (MacEngine.Faster.refl e.toMacEngine).seqCycles_le hbytes

/-! ### The cycles of the waves -/

theorem lastWaveDma_nonneg : 0 ≤ e.lastWaveDma p m k n :=
  add_nonneg (e.seqCycles_nonneg _) (Nat.cast_nonneg _)

theorem perWaveDma_nonneg : 0 ≤ e.perWaveDma p :=
  add_nonneg (mul_nonneg (Nat.cast_nonneg _) (e.seqCycles_nonneg _)) (Nat.cast_nonneg _)

/-- The last of several waves is charged for what is transferred in it. -/
theorem le_waveCycles (htcs : 0 < e.numTcs) (hm : 0 < m) (hk : 0 < k) (hn : 0 < n)
    (hwaves : 2 ≤ e.waves m k n) :
    e.perWaveDma p + perWaveCompute p +
        ((e.waves m k n : ℚ) - 2) * max (perWaveCompute p : ℚ) (e.perWaveDma p) +
        max (perWaveCompute p : ℚ) (e.lastWaveDma p m k n) ≤
      e.waveCycles p m k n := by
  have hlast := max_le_max_left (perWaveCompute p : ℚ)
    (e.lastWaveDma_le htcs hm hk hn (p := p))
  unfold waveCycles
  dsimp only
  rw [if_neg (by omega)]
  split_ifs
  · linarith
  · exact le_rfl

/-- No wave takes longer than a whole one. -/
theorem waveCycles_le (htcs : 0 < e.numTcs) (hm : 0 < m) (hk : 0 < k) (hn : 0 < n) :
    e.waveCycles p m k n ≤
      e.perWaveDma p + perWaveCompute p +
        ((e.waves m k n : ℚ) - 1) * max (perWaveCompute p : ℚ) (e.perWaveDma p) := by
  have hdma := e.lastWaveDma_le htcs hm hk hn (p := p)
  have hlast := max_le_max_left (perWaveCompute p : ℚ) hdma
  unfold waveCycles
  dsimp only
  split_ifs with hone hfull
  · rw [hone, Nat.cast_one, sub_self, zero_mul, add_zero]
    exact add_le_add_left hdma _
  · exact le_rfl
  · linarith

/-- The transfers of all waves and the computation of one are not overlapped. -/
theorem transfers_le_waveCycles (htcs : 0 < e.numTcs) (hm : 0 < m) (hk : 0 < k) (hn : 0 < n) :
    ((e.waves m k n : ℚ) - 1) * e.perWaveDma p + e.lastWaveDma p m k n +
        perWaveCompute p ≤ e.waveCycles p m k n := by
  rcases e.waves_eq_one_or htcs hm hk hn with hone | ⟨htwo, hcast⟩
  · rw [waveCycles, if_pos hone, hone, Nat.cast_one, sub_self, zero_mul, zero_add]
  · have hsteady := mul_le_mul_of_nonneg_left
      (le_max_right (perWaveCompute p : ℚ) (e.perWaveDma p)) hcast
    have hlast := le_max_right (perWaveCompute p : ℚ) (e.lastWaveDma p m k n)
    have hle := e.le_waveCycles htcs hm hk hn htwo (p := p)
    linarith

/-- The computation of all waves is not overlapped. -/
theorem compute_le_waveCycles (htcs : 0 < e.numTcs) (hm : 0 < m) (hk : 0 < k) (hn : 0 < n) :
    ((e.waves m k n * perWaveCompute p : ℕ) : ℚ) ≤ e.waveCycles p m k n := by
  have hdma := e.perWaveDma_nonneg (p := p)
  have hlastDma := e.lastWaveDma_nonneg (p := p) (m := m) (k := k) (n := n)
  push_cast
  rcases e.waves_eq_one_or htcs hm hk hn with hone | ⟨htwo, hcast⟩
  · rw [waveCycles, if_pos hone, hone, Nat.cast_one, one_mul]
    linarith
  · have hsteady := mul_le_mul_of_nonneg_left
      (le_max_left (perWaveCompute p : ℚ) (e.perWaveDma p)) hcast
    have hlast := le_max_left (perWaveCompute p : ℚ) (e.lastWaveDma p m k n)
    have hle := e.le_waveCycles htcs hm hk hn htwo (p := p)
    linarith

/-- Stages that are at most a multiple of others take at most that multiple of their waves. -/
theorem waveCycles_le_mul {x : ℚ} {q : ℕ} (hx : 0 ≤ x) (hwaves : 0 < e.waves m k n)
    (hcompute : (perWaveCompute p : ℚ) ≤ x * perWaveCompute q)
    (hdma : e.perWaveDma p ≤ x * e.perWaveDma q)
    (hlast : e.lastWaveDma p m k n ≤ x * e.lastWaveDma q m k n) :
    e.waveCycles p m k n ≤ x * e.waveCycles q m k n := by
  have hmax : max (perWaveCompute p : ℚ) (e.perWaveDma p) ≤
      x * max (perWaveCompute q : ℚ) (e.perWaveDma q) := by
    rw [mul_max_of_nonneg _ _ hx]
    exact max_le_max hcompute hdma
  have hmaxLast : max (perWaveCompute p : ℚ) (e.lastWaveDma p m k n) ≤
      x * max (perWaveCompute q : ℚ) (e.lastWaveDma q m k n) := by
    rw [mul_max_of_nonneg _ _ hx]
    exact max_le_max hcompute hlast
  unfold waveCycles
  dsimp only
  split_ifs with hone
  · rw [mul_add]
    exact add_le_add hlast hcompute
  · have hone' : (0 : ℚ) ≤ (e.waves m k n : ℚ) - 1 := sub_nonneg.mpr (by exact_mod_cast hwaves)
    have hsteady := mul_le_mul_of_nonneg_left hmax hone'
    linarith
  · have htwo : 2 ≤ e.waves m k n := by omega
    have htwo' : (0 : ℚ) ≤ (e.waves m k n : ℚ) - 2 := sub_nonneg.mpr (by exact_mod_cast htwo)
    have hsteady := mul_le_mul_of_nonneg_left hmax htwo'
    linarith

/-! ### The estimates -/

theorem fields_valid (htcs : 0 < e.numTcs) (hmult : 0 < p) (hm : 0 < m) (hk : 0 < k)
    (hn : 0 < n) : (e.fields p m k n).Valid := by
  have hcompute : (e.waves m k n : ℤ) * perWaveCompute p ≤
      (e.fields p m k n).totalCycles := by
    refine Int.le_floor.mpr ?_
    exact_mod_cast e.compute_le_waveCycles htcs hm hk hn
  have hmacs : 0 < m * k * n * p := Nat.mul_pos (Nat.mul_pos (Nat.mul_pos hm hk) hn) hmult
  exact .of_compute_le rfl (by unfold fields; positivity) hcompute (Int.natCast_nonneg _)
    (MacEngine.rawCycles_nonneg _) hmacs rfl

theorem estimateWith_returns (htcs : 0 < e.numTcs) (hmult : 0 < p) (hm : 0 < m) (hk : 0 < k)
    (hn : 0 < n) : Returns (e.estimateWith p m k n) (e.fields p m k n) := by
  rw [estimateWith, if_neg htcs.ne']
  exact returns_new (e.fields_valid htcs hmult hm hk hn)

/-- An array that is smaller than a core divides by zero. -/
theorem estimateWith_of_zero (htcs : e.numTcs = 0) :
    e.estimateWith p m k n = .error .zeroDivisionError := by
  rw [estimateWith, if_pos htcs]

/-- The computation of all waves takes at least the ideal cycles. -/
theorem idealCycles_le (htcs : 0 < e.numTcs) :
    e.idealCycles (m * k * n * p) ≤ e.waves m k n * perWaveCompute p := by
  refine (ceilDiv_le_iff_le_mul e.peakMacsPerCycle_pos).mpr ?_
  have hrows : m * k ≤ 16 * 64 * ((m ⌈/⌉ 16) * (k ⌈/⌉ 64)) :=
    mul_le_mul_ceilDiv_mul (by decide) (by decide)
  have hmacs : m * k * n ≤ 16 * 64 * 16 * totalInvocations m k n := by
    calc m * k * n ≤ 16 * 64 * ((m ⌈/⌉ 16) * (k ⌈/⌉ 64)) * (16 * (n ⌈/⌉ 16)) :=
          Nat.mul_le_mul hrows (le_mul_ceilDiv (by decide))
      _ = 16 * 64 * 16 * totalInvocations m k n := by
          unfold totalInvocations subtileM subtileN subtileK
          ring
  have hwaves : totalInvocations m k n ≤ e.numTcs * e.waves m k n := le_mul_ceilDiv htcs
  have hcores : 256 * e.numTcs ≤ e.height * e.width := Nat.mul_div_le _ _
  have hpeak : e.height * e.width ≤ e.peakMacsPerCycle :=
    Nat.le_mul_of_pos_right _ e.opsPerMac_pos
  calc m * k * n * p
      ≤ 16 * 64 * 16 * (e.numTcs * e.waves m k n) * p :=
        Nat.mul_le_mul_right _ (hmacs.trans (Nat.mul_le_mul_left _ hwaves))
    _ = 256 * e.numTcs * (64 * p * e.waves m k n) := by ring
    _ ≤ e.peakMacsPerCycle * (e.waves m k n * perWaveCompute p) := by
        refine Nat.mul_le_mul (hcores.trans hpeak) ?_
        rw [Nat.mul_comm, perWaveCompute, Nat.mul_comm 64]
        exact Nat.mul_le_mul_left _ (Nat.mul_le_mul_left _ (by decide))

end TensorCoreEngine

end Engines

end NpuArc
