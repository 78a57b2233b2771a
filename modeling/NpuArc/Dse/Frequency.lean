import NpuArc.Cv.LayerWork
import NpuArc.Dse.Explorer
import NpuArc.Library.Rounding
import Mathlib.Tactic.FieldSimp

/-!
# The clock in evaluations

The throughput of an evaluation should be the clock over the cycles of an inference, and reading the
KV cache should take the same time at all clocks. For a language model the throughput is computed
from the clock, for a vision model from a clock of a gigahertz. The reads of an external memory are
counted by the clock, those of a memory on the die are not.
-/

namespace NpuArc

/-- Rounding to the nearest integer moves a number by at most a half. -/
theorem abs_roundHalfEven_sub_le (x : ℚ) : |(roundHalfEven x : ℚ) - x| ≤ 1 / 2 := by
  have hlow := Int.floor_le x
  have hhigh := Int.lt_floor_add_one x
  unfold roundHalfEven
  dsimp only
  rw [abs_le]
  split_ifs <;> push_cast <;> constructor <;> linarith

namespace Explorer

open Engines Residency Simulator

variable {py : Builtins} {est : Estimators} {c : Cv.CvConfig} {s : Selection}

theorem abs_roundDigits_sub_le (x : ℚ) : |roundDigits x 1 - x| ≤ 1 / 20 := by
  have hround := abs_le.mp (abs_roundHalfEven_sub_le (x * 10 ^ 1))
  unfold roundDigits
  rw [abs_le]
  constructor <;> linarith

/-! ### Throughput -/

/-- The cycles of an inference: of the trace of a vision model, or of all layers of a language
model. -/
def inferenceCycles (py : Builtins) (est : Estimators) (c : Cv.CvConfig) (s : Selection) :
    Except Failure ℤ :=
  if s.cvModel ≠ "" then (simulateCv py est c s.cvTrace).map (·.totalCycles)
  else do
    let spec ← getSpec s.modelAlias
    let layer ← simulateLayer py c.toHardwareConfig (some 1) (some spec.kvHeads)
      (some spec.headDim)
    .ok (layer.cycles * spec.layers)

/-- The rounding of the throughput, which is reported with a digit for language models only. -/
def reportedRounding (s : Selection) : ℚ := if s.cvModel ≠ "" then 0 else 1 / 20

/-- The throughput times the cycles of an inference is the clock, up to the rounding of the
throughput. -/
def MatchesClock (s : Selection) (freqMhz tokS : ℚ) (cycles : ℤ) : Prop :=
  |tokS * cycles - freqMhz * 1000000| ≤ reportedRounding s * cycles

/-- The tokens in a second are the clock over the cycles of all layers. -/
theorem tokSFromLayer_matches {layerCycles : ℤ} {numLayers : ℕ} {freqMhz tokS : ℚ}
    (hcv : s.cvModel = "") (h : tokSFromLayer layerCycles numLayers freqMhz = .ok tokS)
    (hpos : 0 < layerCycles * numLayers) :
    MatchesClock s freqMhz tokS (layerCycles * numLayers) := by
  unfold tokSFromLayer cyclesToMicroseconds at h
  obtain ⟨totalUs, hus, h⟩ := bind_eq_ok.mp h
  split_ifs at hus with hfreq
  cases hus
  cases h
  rw [not_le] at hfreq
  set cycles := layerCycles * numLayers
  have hcycles : (0 : ℚ) < cycles := by exact_mod_cast hpos
  rw [if_pos (div_pos hcycles hfreq), MatchesClock, reportedRounding, if_neg (not_not.mpr hcv)]
  have hround := abs_le.mp (abs_roundDigits_sub_le (1000000 / (cycles / freqMhz)))
  have hexact : 1000000 / (cycles / freqMhz) * cycles = freqMhz * 1000000 := by
    field_simp
  rw [← hexact, ← sub_mul, abs_mul, abs_of_pos hcycles]
  exact mul_le_mul_of_nonneg_right (abs_le.mpr hround) hcycles.le

/-- The images in a second are those of a clock of a gigahertz. -/
theorem fpsFromCycles_matches_iff {freqMhz : ℚ} {cycles : ℤ} (hcv : s.cvModel ≠ "")
    (hpos : 0 < cycles) :
    MatchesClock s freqMhz (fpsFromCycles cycles) cycles ↔ freqMhz = 1000 := by
  have hcycles : (0 : ℚ) < cycles := by exact_mod_cast hpos
  rw [MatchesClock, reportedRounding, if_pos hcv, fpsFromCycles, if_pos hpos,
    div_mul_cancel₀ _ hcycles.ne', zero_mul, abs_nonpos_iff]
  constructor <;> intro h <;> linarith

theorem require_eq_ok {α : Type} {key : String} {x : Option α} {a : α} :
    require key x = .ok a ↔ x = some a := by
  cases x with
  | none => simp [require]
  | some b => simp [require]

/-- An evaluation that returns has computed the cycles of an inference and the throughput. -/
theorem evaluateConfig_spec {batchM : ℕ} {ppa : PPA}
    (h : evaluateConfig py est c s batchM = .ok ppa) :
    (s.cvModel ≠ "" ∧ ∃ cycles, inferenceCycles py est c s = .ok cycles ∧
      ppa.tokS = fpsFromCycles cycles) ∨
    (s.cvModel = "" ∧ ∃ (layerCycles : ℤ) (numLayers : ℕ),
      inferenceCycles py est c s = .ok (layerCycles * numLayers) ∧
      tokSFromLayer layerCycles numLayers (frequencyMhz c.toHardwareConfig) = .ok ppa.tokS) := by
  unfold evaluateConfig at h
  obtain ⟨mac, hmac, h⟩ := bind_eq_ok.mp h
  obtain ⟨engineType, -, h⟩ := bind_eq_ok.mp h
  obtain ⟨freq, hfreq, h⟩ := bind_eq_ok.mp h
  obtain ⟨result, hresult, h⟩ := bind_eq_ok.mp h
  -- What follows only checks for the keys of the label.
  obtain ⟨-, -, h⟩ := bind_eq_ok.mp h
  obtain ⟨-, -, h⟩ := bind_eq_ok.mp h
  obtain ⟨-, -, h⟩ := bind_eq_ok.mp h
  obtain ⟨-, -, h⟩ := bind_eq_ok.mp h
  obtain ⟨-, -, h⟩ := bind_eq_ok.mp h
  cases h
  unfold evaluateModel at hresult
  have hclock : frequencyMhz c.toHardwareConfig = freq := by
    rw [frequencyMhz, require_eq_ok.mp hmac, Option.getD_some, require_eq_ok.mp hfreq]
    rfl
  by_cases hcv : s.cvModel = ""
  · rw [if_neg (not_not.mpr hcv)] at hresult
    refine Or.inr ⟨hcv, ?_⟩
    unfold evaluateLlm at hresult
    obtain ⟨spec, hspec, hresult⟩ := bind_eq_ok.mp hresult
    obtain ⟨layer, hlayer, hresult⟩ := bind_eq_ok.mp hresult
    obtain ⟨tokS, htokS, hresult⟩ := bind_eq_ok.mp hresult
    obtain ⟨area, -, hresult⟩ := bind_eq_ok.mp hresult
    obtain ⟨power, -, hresult⟩ := bind_eq_ok.mp hresult
    obtain ⟨prefill, -, hresult⟩ := bind_eq_ok.mp hresult
    obtain ⟨ttft, -, hresult⟩ := bind_eq_ok.mp hresult
    cases hresult
    refine ⟨layer.cycles, spec.layers, ?_, hclock ▸ htokS⟩
    rw [inferenceCycles, if_neg (not_not.mpr hcv), hspec, bind_eq_ok_left, hlayer,
      bind_eq_ok_left]
  · rw [if_pos hcv] at hresult
    refine Or.inl ⟨hcv, ?_⟩
    unfold evaluateCv at hresult
    obtain ⟨result, hrun, hresult⟩ := bind_eq_ok.mp hresult
    obtain ⟨area, -, hresult⟩ := bind_eq_ok.mp hresult
    obtain ⟨power, -, hresult⟩ := bind_eq_ok.mp hresult
    cases hresult
    refine ⟨result.totalCycles, ?_, rfl⟩
    rw [inferenceCycles, if_pos hcv, hrun]
    rfl

/-! ### Reading the KV cache -/

/-- A configuration with another clock. -/
def withFrequency (c : HardwareConfig) (freq : PosRat) : HardwareConfig :=
  { c with macEngine := some { c.macEngine.getD {} with frequencyMhz := some freq } }

/-- Reading the KV cache takes the same time at two clocks, but for a cycle. -/
def KvTimeKept (c : HardwareConfig) (batchM kvHeads headDim : ℕ) (freq freq' : PosRat) : Prop :=
  ∃ k k' : ℕ, computeKvCycles (withFrequency c freq) batchM kvHeads headDim = .ok k ∧
    computeKvCycles (withFrequency c freq') batchM kvHeads headDim = .ok k' ∧
    SameTime ((k : ℚ) / freq.val) (k' / freq'.val) freq.val freq'.val

/-- The bandwidth of the memory on the die, zero if there is none. -/
def onchipBandwidth (c : HardwareConfig) : ℚ := c.onChipMemory.bandwidthGbps.elim 0 (↑)

/-- The KV cache is written only, or it is in the external memory, or it is read from the die in at
most one cycle. -/
def KvClocked (c : HardwareConfig) (batchM kvHeads headDim : ℕ) : Prop :=
  1 < batchM ∨ onchipBandwidth c ≤ 0 ∨ (kvCacheBytes kvHeads headDim : ℚ) < 2 * onchipBandwidth c

/-- The bytes that are read from the external memory in a microsecond. -/
def kvBytesPerUs (c : HardwareConfig) (kvBytes : ℕ) : ℚ :=
  PosRat.orDefault c.memory.bandwidthGbps 51.2 * 1000 *
    UnitRat.orDefault c.memory.dramEfficiency 0.85 * kvDramEff c kvBytes

theorem kvDramEff_pos (c : HardwareConfig) (kvBytes : ℕ) : 0 < kvDramEff c kvBytes := by
  unfold kvDramEff
  dsimp only
  have hmb : (0 : ℚ) < max ((kvBytes : ℚ) / (1024 * 1024)) 0.001 := lt_max_of_lt_right (by norm_num)
  positivity

/-- Bytes at a rate by the clock, none if there is no rate. -/
theorem bytes_at_rate (bytes : ℚ) {bw eff dram freq : ℚ} (hbw : 0 < bw) (heff : 0 ≤ eff)
    (hdram : 0 < dram) (hfreq : 0 < freq) :
    (if bw * 1000 / freq * eff ≤ 0 ∨ dram ≤ 0 then 0
      else ⌊bytes / (bw * 1000 / freq * eff * dram)⌋₊) =
      ⌊bytes / (bw * 1000 * eff * dram) * freq⌋₊ := by
  rcases heff.eq_or_lt with hzero | heff
  · rw [← hzero]
    simp
  · have hrate : ¬(bw * 1000 / freq * eff ≤ 0 ∨ dram ≤ 0) := by
      rw [not_or, not_le, not_le]
      exact ⟨by positivity, hdram⟩
    have htime : bytes / (bw * 1000 / freq * eff * dram) =
        bytes / (bw * 1000 * eff * dram) * freq := by
      field_simp
    rw [if_neg hrate, htime]

/-- The reads of an external memory take the time of their bytes. -/
theorem computeKvCycles_external {c : HardwareConfig} {batchM kvHeads headDim : ℕ}
    (hbatch : ¬1 < batchM) (honchip : onchipBandwidth c ≤ 0) (freq : PosRat) :
    computeKvCycles (withFrequency c freq) batchM kvHeads headDim =
      .ok ⌊kvCacheBytes kvHeads headDim / kvBytesPerUs c (kvCacheBytes kvHeads headDim) *
        freq.val⌋₊ := by
  have hfreq : ¬frequencyMhz (withFrequency c freq) ≤ 0 := not_le.mpr freq.property
  have hnone : ¬0 < (withFrequency c freq).onChipMemory.bandwidthGbps.elim (0 : ℚ) (↑) :=
    not_lt.mpr honchip
  have hcount := bytes_at_rate (kvCacheBytes kvHeads headDim)
    (PosRat.orDefault_pos (x := c.memory.bandwidthGbps) (d := 51.2) (by norm_num))
    (UnitRat.orDefault_nonneg (x := c.memory.dramEfficiency) (d := 0.85) (by norm_num))
    (kvDramEff_pos c (kvCacheBytes kvHeads headDim)) freq.property
  unfold computeKvCycles
  dsimp only
  rw [if_neg hbatch, if_neg hnone, bandwidthGbpsToBytesPerCycle, if_neg hfreq, bind_eq_ok_left,
    ← apply_ite Except.ok]
  exact congrArg Except.ok hcount

/-- The reads of a memory on the die take the same number of cycles at all clocks. -/
theorem computeKvCycles_onchip {c : HardwareConfig} {batchM kvHeads headDim : ℕ}
    (hbatch : ¬1 < batchM) (honchip : 0 < onchipBandwidth c) (freq : PosRat) :
    computeKvCycles (withFrequency c freq) batchM kvHeads headDim =
      .ok ⌊(kvCacheBytes kvHeads headDim : ℚ) / onchipBandwidth c⌋₊ := by
  have hsome : 0 < (withFrequency c freq).onChipMemory.bandwidthGbps.elim (0 : ℚ) (↑) := honchip
  unfold computeKvCycles
  dsimp only
  rw [if_neg hbatch, if_pos hsome]
  rfl

theorem kvBytesPerUs_nonneg (c : HardwareConfig) (kvBytes : ℕ) : 0 ≤ kvBytesPerUs c kvBytes := by
  have hbw := PosRat.orDefault_pos (x := c.memory.bandwidthGbps) (d := 51.2) (by norm_num)
  have heff := UnitRat.orDefault_nonneg (x := c.memory.dramEfficiency) (d := 0.85) (by norm_num)
  have hdram := kvDramEff_pos c kvBytes
  unfold kvBytesPerUs
  positivity

/-- Reading the KV cache takes the same time at all clocks exactly when it is clocked. -/
theorem kvTimeKept_iff (c : HardwareConfig) (batchM kvHeads headDim : ℕ) :
    (∀ freq freq' : PosRat, KvTimeKept c batchM kvHeads headDim freq freq') ↔
      KvClocked c batchM kvHeads headDim := by
  unfold KvClocked
  by_cases hbatch : 1 < batchM
  · refine iff_of_true (fun freq freq' => ⟨0, 0, ?_, ?_, ?_⟩) (Or.inl hbatch)
    · rw [computeKvCycles, if_pos hbatch]
    · rw [computeKvCycles, if_pos hbatch]
    · exact (sameTime_fixed_iff 0).mpr zero_le_one _ _ freq.property freq'.property
  rw [or_iff_right hbatch]
  by_cases honchip : onchipBandwidth c ≤ 0
  · refine iff_of_true (fun freq freq' => ?_) (Or.inl honchip)
    refine ⟨_, _, computeKvCycles_external hbatch honchip freq,
      computeKvCycles_external hbatch honchip freq', ?_⟩
    exact sameTime_floor (div_nonneg (Nat.cast_nonneg _) (kvBytesPerUs_nonneg _ _)) freq.property
      freq'.property
  rw [or_iff_right honchip]
  rw [not_le] at honchip
  have hcount : ⌊(kvCacheBytes kvHeads headDim : ℚ) / onchipBandwidth c⌋₊ ≤ 1 ↔
      (kvCacheBytes kvHeads headDim : ℚ) < 2 * onchipBandwidth c := by
    rw [← Nat.lt_succ_iff, Nat.floor_lt (by positivity), div_lt_iff₀ honchip]
    norm_num
  rw [← hcount, ← sameTime_fixed_iff (α := ℚ)]
  constructor
  · intro h rate rate' hrate hrate'
    obtain ⟨k, k', hk, hk', hsame⟩ := h ⟨rate, hrate⟩ ⟨rate', hrate'⟩
    rw [computeKvCycles_onchip hbatch honchip] at hk hk'
    cases hk
    cases hk'
    exact hsame
  · intro h freq freq'
    exact ⟨_, _, computeKvCycles_onchip hbatch honchip freq,
      computeKvCycles_onchip hbatch honchip freq', h _ _ freq.property freq'.property⟩

/-! ### An evaluation -/

/-- The throughput of an inference matches the clock, and reading the KV cache takes the same time
at all clocks. An inference of no cycles has no throughput. -/
structure FrequencyConsistent (py : Builtins) (est : Estimators) (c : Cv.CvConfig) (s : Selection)
    (ppa : PPA) (batchM kvHeads headDim : ℕ) : Prop where
  throughput : ∀ cycles, inferenceCycles py est c s = .ok cycles → 0 < cycles →
    MatchesClock s (frequencyMhz c.toHardwareConfig) ppa.tokS cycles
  kvTime : ∀ freq freq' : PosRat,
    KvTimeKept c.toHardwareConfig batchM kvHeads headDim freq freq'

/-- A vision model runs at a gigahertz, and the KV cache is clocked. -/
structure ClockKept (py : Builtins) (est : Estimators) (c : Cv.CvConfig) (s : Selection)
    (batchM kvHeads headDim : ℕ) : Prop where
  vision : s.cvModel ≠ "" → frequencyMhz c.toHardwareConfig = 1000 ∨
    ∀ cycles, inferenceCycles py est c s = .ok cycles → cycles ≤ 0
  kv : KvClocked c.toHardwareConfig batchM kvHeads headDim

private theorem frequencyConsistent_of_run {batchM tokens kvHeads headDim : ℕ} {ppa : PPA}
    (h : evaluateConfig py est c s batchM = .ok ppa) :
    FrequencyConsistent py est c s ppa tokens kvHeads headDim ↔
      ClockKept py est c s tokens kvHeads headDim := by
  have hkv := kvTimeKept_iff c.toHardwareConfig tokens kvHeads headDim
  have hthroughput : (∀ cycles, inferenceCycles py est c s = .ok cycles → 0 < cycles →
      MatchesClock s (frequencyMhz c.toHardwareConfig) ppa.tokS cycles) ↔
      (s.cvModel ≠ "" → frequencyMhz c.toHardwareConfig = 1000 ∨
        ∀ cycles, inferenceCycles py est c s = .ok cycles → cycles ≤ 0) := by
    rcases evaluateConfig_spec h with ⟨hcv, cycles, hcycles, htokS⟩ |
      ⟨hcv, layerCycles, numLayers, hcycles, htokS⟩
    · simp only [hcycles, Except.ok.injEq, forall_eq', imp_iff_right hcv, htokS]
      rcases le_or_gt cycles 0 with hle | hpos
      · exact iff_of_true (fun hpos => absurd hpos (not_lt.mpr hle)) (Or.inr hle)
      · rw [imp_iff_right hpos, fpsFromCycles_matches_iff hcv hpos,
          or_iff_left (not_le.mpr hpos)]
    · simp only [hcycles, Except.ok.injEq, forall_eq']
      exact iff_of_true (tokSFromLayer_matches hcv htokS) fun hne => absurd hcv hne
  constructor
  · intro hconsistent
    exact ⟨hthroughput.mp hconsistent.throughput, hkv.mp hconsistent.kvTime⟩
  · intro hkept
    exact ⟨hthroughput.mpr hkept.vision, hkv.mpr hkept.kv⟩

/-- The clock of an evaluation is kept exactly when a vision model runs at a gigahertz and the KV
cache is in the external memory, or read from the die in at most one cycle. -/
theorem frequencyConsistent_iff {batchM tokens kvHeads headDim : ℕ} {ppa : PPA}
    (h : evaluateConfig py est c s batchM = .ok ppa) :
    FrequencyConsistent py est c s ppa tokens kvHeads headDim ↔
      ClockKept py est c s tokens kvHeads headDim :=
  frequencyConsistent_of_run h

/-! ### A vision model at half a gigahertz -/

/-- A configuration with a clock of half a gigahertz. -/
def slowConfig : Cv.CvConfig where
  macEngine := some
    { type := some "block"
      arrayHeight := some (Nat.succPNat 127)
      arrayWidth := some (Nat.succPNat 127)
      frequencyMhz := some ⟨500, by norm_num⟩
      weightPrecisionBits := some (Nat.succPNat 3) }
  optimizations := { weightCache := some false, dmaBwMultiplier := some ⟨1, one_pos⟩ }

/-- The trace of a residual connection. -/
def residualSelection : Selection where
  cvModel := "mobilenetv3"
  cvTrace := [Cv.residualEntry]

/-- The estimates of engines, with an area and a power of one. -/
def unitEstimators : Estimators where
  estimate := Cv.engineEstimate
  area _ _ := .ok 1
  power _ _ := .ok 1

/-- The evaluation succeeds, and an inference takes one cycle. -/
theorem slow_sample :
    (∃ ppa, evaluateConfig sampleBuiltins unitEstimators slowConfig residualSelection 1 =
      .ok ppa) ∧
      inferenceCycles sampleBuiltins unitEstimators slowConfig residualSelection = .ok 1 := by
  have hppa : (evaluateConfig sampleBuiltins unitEstimators slowConfig residualSelection
      1).toOption.isSome = true := by decide +kernel
  have hcycles : (inferenceCycles sampleBuiltins unitEstimators slowConfig
      residualSelection).toOption = some 1 := by decide +kernel
  obtain ⟨ppa, hppa⟩ := Option.isSome_iff_exists.mp hppa
  exact ⟨⟨ppa, toOption_eq_some.mp hppa⟩, toOption_eq_some.mp hcycles⟩

theorem frequencyConsistent_iff_slow :
    ∃ ppa, evaluateConfig sampleBuiltins unitEstimators slowConfig residualSelection 1 = .ok ppa ∧
      (FrequencyConsistent sampleBuiltins unitEstimators slowConfig residualSelection ppa 1 2 128 ↔
        ClockKept sampleBuiltins unitEstimators slowConfig residualSelection 1 2 128) := by
  obtain ⟨⟨ppa, hppa⟩, -⟩ := slow_sample
  exact ⟨ppa, hppa, frequencyConsistent_iff hppa⟩

/-- The throughput of a vision model at half a gigahertz is twice too high. -/
theorem slow_clock_doubled :
    ¬∀ (py : Builtins) (est : Estimators) (c : Cv.CvConfig) (s : Selection) (batchM tokens
      kvHeads headDim : ℕ) (ppa : PPA), evaluateConfig py est c s batchM = .ok ppa →
      FrequencyConsistent py est c s ppa tokens kvHeads headDim := by
  intro h
  obtain ⟨⟨ppa, hppa⟩, hcycles⟩ := slow_sample
  have hkept := (frequencyConsistent_of_run hppa).mp (h _ _ _ _ 1 1 2 128 ppa hppa)
  have hclock : frequencyMhz slowConfig.toHardwareConfig = 500 := rfl
  rcases hkept.vision (by decide) with hfreq | hnone
  · rw [hclock] at hfreq
    norm_num at hfreq
  · exact absurd (hnone 1 hcycles) (by decide)

end Explorer

end NpuArc
