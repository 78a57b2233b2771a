import NpuArc.Engines.Creation
import NpuArc.Library.TwoStage

/-!
# The schedule of the waves

The waves of a product on the tensor cores are pieces of a pipeline of transfers and computations.
The estimate is the completion time of this pipeline as long as the last wave is charged for its own
invocations. A last wave in which all cores are active is charged for whole invocations instead,
although some of them may be the smaller ones at the edges of the product.
-/

namespace NpuArc

namespace Engines

namespace TensorCoreEngine

open Residency

variable (e : TensorCoreEngine) (m k n : ℕ)

/-- The invocations of a wave. -/
def activeIn (wave : ℕ) : ℕ :=
  if wave + 1 = e.waves m k n then e.invocationsLast m k n else e.numTcs

/-- The row, the depth and the column of an invocation in the grid of a product. -/
def coordinates (k n idx : ℕ) : ℕ × ℕ × ℕ :=
  (idx / ((n ⌈/⌉ subtileN) * (k ⌈/⌉ subtileK)), idx / (n ⌈/⌉ subtileN) % (k ⌈/⌉ subtileK),
    idx % (n ⌈/⌉ subtileN))

/-- The bytes of the invocations of the last wave, each with the size that the product leaves it. -/
def ownBytes : ℕ :=
  ∑ c ∈ Finset.range (e.invocationsLast m k n),
    let place := coordinates k n (e.numTcs * (e.waves m k n - 1) + c)
    e.bytesAt 1 m k n place.1 place.2.1 place.2.2

/-- The cycles of the transfers of a wave. -/
def waveTransfer (wave : ℕ) : ℚ :=
  if wave + 1 = e.waves m k n then
    e.seqCycles (e.ownBytes m k n) +
      (e.invocationsLast m k n * e.descriptorOverheadCycles : ℕ)
  else e.numTcs * e.seqCycles (e.fullBytes 1) + (e.numTcs * e.descriptorOverheadCycles : ℕ)

/-- When the pipeline of the waves is done. -/
def waveCompletion : ℚ :=
  completion ((List.range (e.waves m k n)).map fun wave =>
    (e.waveTransfer m k n wave, (perSubtileCompute : ℚ)))

/-- The estimate takes the time of the pipeline of the waves, and the waves contain each invocation
of the grid exactly once. -/
structure FollowsWaves (r : ResultFields) : Prop where
  total : r.totalCycles = ⌊e.waveCompletion m k n⌋
  on_grid : ∀ wave < e.waves m k n, ∀ c < e.activeIn m k n wave,
    (coordinates k n (e.numTcs * wave + c)).1 < m ⌈/⌉ subtileM ∧
      (coordinates k n (e.numTcs * wave + c)).2.1 < k ⌈/⌉ subtileK ∧
      (coordinates k n (e.numTcs * wave + c)).2.2 < n ⌈/⌉ subtileN
  once : ∀ i < m ⌈/⌉ subtileM, ∀ j < k ⌈/⌉ subtileK, ∀ l < n ⌈/⌉ subtileN, ∃! place : ℕ × ℕ,
    place.1 < e.waves m k n ∧ place.2 < e.activeIn m k n place.1 ∧
      coordinates k n (e.numTcs * place.1 + place.2) = (i, j, l)

/-- There is one wave, or the last wave leaves a core idle, or what it is charged beyond its own
transfers does not reach the next whole cycle. -/
def LastWaveExact : Prop :=
  e.waves m k n = 1 ∨ e.invocationsLast m k n ≠ e.numTcs ∨
    Int.fract (e.waveCompletion m k n) + (max (perSubtileCompute : ℚ) (e.waveTransfer m k n 0) -
      max (perSubtileCompute : ℚ) (e.waveTransfer m k n (e.waves m k n - 1))) < 1

variable {m k n}

/-! ### The grid -/

theorem numTcs_mul_waves_pred_lt (htcs : 0 < e.numTcs) (hm : 0 < m) (hk : 0 < k) (hn : 0 < n) :
    e.numTcs * (e.waves m k n - 1) < totalInvocations m k n :=
  mul_ceilDiv_sub_one_lt (totalInvocations_pos hm hk hn) htcs

/-- The invocations of the waves are numbered from zero. -/
theorem place_lt_iff (htcs : 0 < e.numTcs) (hm : 0 < m) (hk : 0 < k) (hn : 0 < n) {wave c : ℕ}
    (hc : c < e.numTcs) : (wave < e.waves m k n ∧ c < e.activeIn m k n wave) ↔
      e.numTcs * wave + c < totalInvocations m k n := by
  have hpos := e.waves_pos htcs hm hk hn
  have hbefore := e.numTcs_mul_waves_pred_lt htcs hm hk hn
  have htotal : totalInvocations m k n ≤ e.numTcs * e.waves m k n := le_mul_ceilDiv htcs
  unfold activeIn
  rcases lt_trichotomy (wave + 1) (e.waves m k n) with hlt | hlast | hbeyond
  · have hnext : e.numTcs * (wave + 1) ≤ e.numTcs * (e.waves m k n - 1) :=
      Nat.mul_le_mul_left _ (by omega)
    rw [Nat.mul_succ] at hnext
    rw [if_neg hlt.ne]
    exact iff_of_true ⟨by omega, hc⟩ (by omega)
  · have hwave : wave = e.waves m k n - 1 := by omega
    rw [if_pos hlast, invocationsLast, ← hwave]
    omega
  · have hall : e.numTcs * e.waves m k n ≤ e.numTcs * wave := Nat.mul_le_mul_left _ (by omega)
    exact iff_of_false (by omega) (by omega)

theorem activeIn_le (htcs : 0 < e.numTcs) (wave : ℕ) : e.activeIn m k n wave ≤ e.numTcs := by
  unfold activeIn
  split_ifs
  · exact e.invocationsLast_le htcs
  · exact le_rfl

/-- The coordinates of an invocation lie on the grid exactly if its number is one of the grid. -/
theorem coordinates_lt (hk : 0 < k) (hn : 0 < n) {idx : ℕ} (h : idx < totalInvocations m k n) :
    (coordinates k n idx).1 < m ⌈/⌉ subtileM ∧ (coordinates k n idx).2.1 < k ⌈/⌉ subtileK ∧
      (coordinates k n idx).2.2 < n ⌈/⌉ subtileN := by
  refine ⟨Nat.div_lt_of_lt_mul ?_, Nat.mod_lt _ (ceilDiv_pos hk subtileK_pos),
    Nat.mod_lt _ (ceilDiv_pos hn subtileN_pos)⟩
  calc idx < totalInvocations m k n := h
    _ = (n ⌈/⌉ subtileN) * (k ⌈/⌉ subtileK) * (m ⌈/⌉ subtileM) := by
        unfold totalInvocations
        ring

/-- The waves contain each invocation of the grid exactly once. -/
theorem existsUnique_place (htcs : 0 < e.numTcs) (hm : 0 < m) (hk : 0 < k) (hn : 0 < n) {i j l : ℕ}
    (hi : i < m ⌈/⌉ subtileM) (hj : j < k ⌈/⌉ subtileK) (hl : l < n ⌈/⌉ subtileN) :
    ∃! place : ℕ × ℕ, place.1 < e.waves m k n ∧ place.2 < e.activeIn m k n place.1 ∧
      coordinates k n (e.numTcs * place.1 + place.2) = (i, j, l) := by
  set idx := gridIndex (k ⌈/⌉ subtileK) (n ⌈/⌉ subtileN) i j l with hidx
  have hlt : idx < totalInvocations m k n := gridIndex_lt hi hj hl
  have hcoordinates : coordinates k n idx = (i, j, l) := by
    rw [coordinates, hidx, gridIndex_div_mul hj hl, gridIndex_div_mod hj hl, gridIndex_mod hl]
  have hsplit : e.numTcs * (idx / e.numTcs) + idx % e.numTcs = idx := Nat.div_add_mod _ _
  have hplace := (e.place_lt_iff htcs hm hk hn (Nat.mod_lt idx htcs)).mpr (hsplit.symm ▸ hlt)
  refine ⟨(idx / e.numTcs, idx % e.numTcs), ⟨hplace.1, hplace.2, by rw [hsplit, hcoordinates]⟩, ?_⟩
  rintro ⟨wave, c⟩ ⟨hwave, hc, hat⟩
  dsimp only at hwave hc hat
  -- The coordinates determine the number, and the number the place.
  have hsame : e.numTcs * wave + c = idx := by
    rw [← gridIndex_coordinates (b := k ⌈/⌉ subtileK) (c := n ⌈/⌉ subtileN)
      (e.numTcs * wave + c)]
    obtain ⟨hrow, hrest⟩ := Prod.mk.inj hat
    obtain ⟨hdepth, hcol⟩ := Prod.mk.inj hrest
    rw [hrow, hdepth, hcol]
  have hc' : c < e.numTcs := hc.trans_le (e.activeIn_le htcs wave)
  rw [← hsame, Nat.mul_add_div htcs, Nat.div_eq_of_lt hc', Nat.add_zero, Nat.mul_add_mod,
    Nat.mod_eq_of_lt hc']

/-! ### The pipeline -/

/-- What the code adds up for the last wave are the bytes of its own invocations. -/
theorem lastWaveBytes_eq_ownBytes (hm : 0 < m) (hk : 0 < k) (hn : 0 < n) :
    e.lastWaveBytes 1 m k n = e.ownBytes m k n := by
  rw [e.lastWaveBytes_eq hm hk hn, Finset.sum_Ico_eq_sum_range]
  rfl

theorem waveTransfer_last (hm : 0 < m) (hk : 0 < k) (hn : 0 < n) (hpos : 0 < e.waves m k n) :
    e.waveTransfer m k n (e.waves m k n - 1) = e.lastWaveDma 1 m k n := by
  rw [waveTransfer, if_pos (by omega), lastWaveDma, e.lastWaveBytes_eq_ownBytes hm hk hn]

theorem waveTransfer_before {wave : ℕ} (hwave : wave + 1 < e.waves m k n) :
    e.waveTransfer m k n wave = e.perWaveDma 1 := by
  rw [waveTransfer, if_neg hwave.ne, perWaveDma]

/-- The pipeline is done with a single wave, or with whole waves and the last one. -/
theorem waveCompletion_eq (htcs : 0 < e.numTcs) (hm : 0 < m) (hk : 0 < k) (hn : 0 < n) :
    e.waveCompletion m k n = if e.waves m k n = 1 then e.lastWaveDma 1 m k n + perSubtileCompute
      else pipelined (e.waves m k n - 1) (perSubtileCompute : ℚ) (e.perWaveDma 1) +
        max (perSubtileCompute : ℚ) (e.lastWaveDma 1 m k n) := by
  have hpos := e.waves_pos htcs hm hk hn
  have hlast := e.waveTransfer_last hm hk hn hpos
  obtain ⟨w, hw⟩ := Nat.exists_eq_add_of_lt hpos
  rw [Nat.zero_add] at hw
  rw [hw, Nat.add_sub_cancel] at hlast
  have hbefore : (List.range w).map (fun wave => (e.waveTransfer m k n wave,
      (perSubtileCompute : ℚ))) = List.replicate w (e.perWaveDma 1, (perSubtileCompute : ℚ)) := by
    refine List.eq_replicate_iff.mpr ⟨by rw [List.length_map, List.length_range], ?_⟩
    intro piece hpiece
    obtain ⟨wave, hwave, rfl⟩ := List.mem_map.mp hpiece
    rw [e.waveTransfer_before (by rw [hw]; exact Nat.succ_lt_succ (List.mem_range.mp hwave))]
  rw [waveCompletion, hw, List.range_succ, List.map_append, List.map_singleton, hlast, hbefore,
    Nat.add_sub_cancel]
  split_ifs with hone
  · obtain rfl : w = 0 := by omega
    exact completion_singleton e.lastWaveDma_nonneg
  · exact completion_replicate_append e.perWaveDma_nonneg (by omega)
      (e.lastWaveDma_le htcs hm hk hn)

/-- The estimate exceeds the pipeline by what a full last wave is charged beyond its own
transfers. -/
theorem waveCycles_eq (htcs : 0 < e.numTcs) (hm : 0 < m) (hk : 0 < k) (hn : 0 < n) :
    e.waveCycles 1 m k n = e.waveCompletion m k n +
      if e.waves m k n ≠ 1 ∧ e.invocationsLast m k n = e.numTcs then
        max (perSubtileCompute : ℚ) (e.perWaveDma 1) -
          max (perSubtileCompute : ℚ) (e.lastWaveDma 1 m k n)
      else 0 := by
  have hcompute : (perWaveCompute 1 : ℚ) = perSubtileCompute := by
    rw [perWaveCompute, Nat.one_mul]
  rw [e.waveCompletion_eq htcs hm hk hn, waveCycles]
  rw [hcompute]
  rcases e.waves_eq_one_or htcs hm hk hn with hone | ⟨htwo, -⟩
  · rw [if_pos hone, if_pos hone, if_neg (fun h => h.1 hone), add_zero]
  · have hone : e.waves m k n ≠ 1 := by omega
    have hcast : ((e.waves m k n - 1 - 1 : ℕ) : ℚ) = (e.waves m k n : ℚ) - 2 := by
      rw [Nat.sub_sub, Nat.cast_sub htwo]
      norm_num
    rw [if_neg hone, if_neg hone, pipelined, hcast]
    by_cases hfull : e.invocationsLast m k n = e.numTcs
    · rw [if_pos hfull, if_pos ⟨hone, hfull⟩]
      ring
    · rw [if_neg hfull, if_neg fun h => hfull h.2, add_zero]

/-! ### The estimates -/

theorem followsWaves_fields_iff (htcs : 0 < e.numTcs) (hm : 0 < m) (hk : 0 < k) (hn : 0 < n) :
    e.FollowsWaves m k n (e.fields 1 m k n) ↔ e.LastWaveExact m k n := by
  have hpos := e.waves_pos htcs hm hk hn
  have htotal : (e.fields 1 m k n).totalCycles = ⌊e.waveCompletion m k n⌋ ↔
      e.LastWaveExact m k n := by
    change ⌊e.waveCycles 1 m k n⌋ = _ ↔ _
    rw [e.waveCycles_eq htcs hm hk hn, LastWaveExact, e.waveTransfer_last hm hk hn hpos]
    by_cases hone : e.waves m k n = 1
    · rw [if_neg (fun h => h.1 hone), add_zero]
      exact iff_of_true rfl (Or.inl hone)
    by_cases hfull : e.invocationsLast m k n = e.numTcs
    · rw [if_pos ⟨hone, hfull⟩, e.waveTransfer_before (by omega), or_iff_right hone,
        or_iff_right (not_not_intro hfull)]
      have hnonneg := sub_nonneg.mpr (max_le_max_left (perSubtileCompute : ℚ)
        (e.lastWaveDma_le htcs hm hk hn (p := 1)))
      rw [Int.floor_eq_iff, Int.fract]
      constructor
      · rintro ⟨-, hlt⟩
        linarith
      · intro hlt
        exact ⟨by linarith [Int.floor_le (e.waveCompletion m k n)], by linarith⟩
    · rw [if_neg fun h => hfull h.2, add_zero]
      exact iff_of_true rfl (Or.inr (Or.inl hfull))
  rw [← htotal]
  refine ⟨fun h => h.total, fun h => ⟨h, fun wave hwave c hc => ?_, fun i hi j hj l hl =>
    e.existsUnique_place htcs hm hk hn hi hj hl⟩⟩
  have hc' : c < e.numTcs := hc.trans_le (e.activeIn_le htcs wave)
  exact coordinates_lt hk hn ((e.place_lt_iff htcs hm hk hn hc').mp ⟨hwave, hc⟩)

/-- The estimate follows the waves exactly when the last wave is charged for its own invocations. -/
theorem estimate_followsWaves_iff (htcs : 0 < e.numTcs) (hm : 0 < m) (hk : 0 < k) (hn : 0 < n) :
    (∃ r, e.estimate m k n = .ok r ∧ e.FollowsWaves m k n r.toResultFields) ↔
      e.LastWaveExact m k n :=
  (e.estimateWith_returns htcs Nat.one_pos hm hk hn).exists_iff.trans
    (e.followsWaves_fields_iff htcs hm hk hn)

/-- A square array of tensor cores at the default bandwidth. -/
theorem exists_squareCores (side : ℕ) :
    ∃ e : TensorCoreEngine,
      createEngine sampleBuiltins (HardwareConfigV2.squareArray "tensor_core" side).toConfig
          emptyGraph = .ok (.tensorCore e) ∧
        e.numTcs = (side + 1) * (side + 1) / 256 ∧ e.wBits = 4 ∧ e.aBits = 8 ∧
        e.effBwWeight = 46.08 := by
  obtain ⟨e, he, hparsed, htype⟩ :=
    HardwareConfigV2.exists_squareArray "tensor_core" side (by decide)
  cases e with
  | tensorCore e =>
    obtain ⟨hheight, hwidth, hwBits, haBits, -, -, hbw, -⟩ :=
      HardwareConfigV2.squareArray_parameters (e := e.toMacEngine) hparsed.mac
    refine ⟨e, he, ?_, hwBits, haBits, hbw⟩
    rw [numTcs, hheight, hwidth, subtileM, subtileN]
  | systolic e | osSystolic e | block e | wmma e | gmma e | inputStationary e | fsa e =>
    simp [Engine.engineType] at htype

/-- A product of a single invocation follows its wave. -/
theorem estimate_followsWaves_one :
    ∃ e : TensorCoreEngine,
      createEngine sampleBuiltins (HardwareConfigV2.squareArray "tensor_core" 15).toConfig
          emptyGraph = .ok (.tensorCore e) ∧
        ∃ r, e.estimate 16 16 16 = .ok r ∧ e.FollowsWaves 16 16 16 r.toResultFields := by
  obtain ⟨e, he, htcs, -⟩ := exists_squareCores 15
  have hcores : e.numTcs = 1 := htcs
  have hwaves : e.waves 16 16 16 = 1 := by
    rw [waves, hcores]
    decide
  have hexact : e.LastWaveExact 16 16 16 := Or.inl hwaves
  refine ⟨e, he, ?_⟩
  exact (e.estimate_followsWaves_iff (by omega) (by decide) (by decide) (by decide)).mpr hexact

/-- Of two waves on four cores the last one ends with an invocation of a single column, for which a
whole one is charged. -/
theorem edge_not_followed :
    ∃ e : TensorCoreEngine,
      createEngine sampleBuiltins (HardwareConfigV2.squareArray "tensor_core" 31).toConfig
          emptyGraph = .ok (.tensorCore e) ∧
        ¬∃ r, e.estimate 16 64 113 = .ok r ∧ e.FollowsWaves 16 64 113 r.toResultFields := by
  obtain ⟨e, he, htcs, hwBits, haBits, hbw⟩ := exists_squareCores 31
  refine ⟨e, he, fun h => ?_⟩
  have hcores : e.numTcs = 4 := htcs
  have hwaves : e.waves 16 64 113 = 2 := by
    rw [waves, hcores]
    decide
  have hlast : e.invocationsLast 16 64 113 = 4 := by
    rw [invocationsLast, hwaves, hcores]
    decide
  have hown : e.ownBytes 16 64 113 = 5664 := by
    rw [ownBytes, hlast, hwaves, hcores]
    simp only [bytesAt, hwBits, haBits]
    decide
  have hfull : e.fullBytes 1 = 1536 := by
    rw [fullBytes, hwBits, haBits]
    decide
  have hreturns := e.estimateWith_returns (by omega) Nat.one_pos (by decide) (by decide)
    (by decide) (p := 1) (m := 16) (k := 64) (n := 113)
  have hexact := (e.followsWaves_fields_iff (by omega) (by decide) (by decide) (by decide)).mp
    (hreturns.exists_iff.mp h)
  have hfirstTransfer : e.waveTransfer 16 64 113 0 =
      4 * (1536 / 46.08) + (4 * e.descriptorOverheadCycles : ℕ) := by
    rw [waveTransfer, hwaves, if_neg (by decide), hcores, hfull, MacEngine.seqCycles_eq, hbw]
    norm_num
  have hlastTransfer : e.waveTransfer 16 64 113 1 =
      5664 / 46.08 + (4 * e.descriptorOverheadCycles : ℕ) := by
    rw [waveTransfer, hwaves, if_pos rfl, hlast, hown, MacEngine.seqCycles_eq, hbw]
    norm_num
  rcases hexact with hone | hidle | hrest
  · rw [hwaves] at hone
    exact absurd hone (by decide)
  · exact hidle (hlast.trans hcores.symm)
  · have hcompute : (perSubtileCompute : ℚ) = 84 := by
      rw [perSubtileCompute, subtilePipelineFill, subtileOverheadCycles]
      norm_num
    have hdescriptors : (0 : ℚ) ≤ (4 * e.descriptorOverheadCycles : ℕ) := Nat.cast_nonneg _
    have hfract := Int.fract_nonneg (e.waveCompletion 16 64 113)
    rw [hwaves, hfirstTransfer, hlastTransfer, hcompute, max_eq_right (by norm_num; linarith),
      max_eq_right (by norm_num; linarith)] at hrest
    norm_num at hrest
    linarith

end TensorCoreEngine

end Engines

end NpuArc
