import NpuArc.Cv.CvSim
import NpuArc.Library.Lists
import NpuArc.Scheduler.Metrics
import NpuArc.Simulator.Decode

/-!
# The explorer of the design space

A configuration is evaluated for a language model, from the cycles of one of its layers, or for a
vision model, from the cycles of its trace. A layer of a language model is a list of seven products,
with the special functions after two of them, and when a token is decoded the KV cache is read.
-/

namespace NpuArc

namespace Explorer

open Engines Residency Simulator

/-! ### Models -/

/-- The dimensions of a model. -/
structure ModelSpec where
  name : String
  qkvDim : ℕ
  hidden : ℕ
  intermediate : ℕ
  layers : ℕ
  numHeads : ℕ
  kvHeads : ℕ
  headDim : ℕ := 128
  modelType : String := "llm"
  deriving DecidableEq

/-- A vision model, whose layers come from a trace. -/
def ModelSpec.vision (name : String) : ModelSpec :=
  ⟨name, 0, 0, 0, 0, 0, 0, 0, "cv"⟩

/-- The known models. -/
def models : List ModelSpec :=
  [⟨"qwen2.5-1.5b", 1536, 1536, 8960, 28, 12, 2, 128, "llm"⟩,
    ⟨"qwen2.5-3b", 2048, 2048, 11008, 36, 16, 16, 128, "llm"⟩,
    ⟨"qwen2.5-7b", 3584, 3584, 18944, 28, 28, 4, 128, "llm"⟩,
    ⟨"qwen3-8b", 4096, 4096, 12288, 32, 32, 4, 128, "llm"⟩,
    ⟨"gemma-4-12b", 4096, 4096, 16384, 40, 16, 8, 256, "llm"⟩,
    .vision "mobilenetv3", .vision "resnet18", .vision "resnet50", .vision "vit-b16",
    .vision "yolov8n"]

/-- The model of an alias. -/
def getSpec (modelAlias : String) : Except Failure ModelSpec :=
  match models.find? fun spec => decide (spec.name = modelAlias) with
  | none =>
    .error (.valueError ("Unknown model alias: " ++ modelAlias ++ ". Known: " ++
      reprList (models.map (·.name))))
  | some spec => .ok spec

/-- The aliases of the language models. -/
def llmAliases : List String :=
  (models.filter fun spec => decide (spec.modelType = "llm")).map (·.name)

/-- The model whose layers are simulated by default. -/
def defaultLlmSpec : String := "qwen2.5-3b"

/-- The tokens in the KV cache. -/
def seqKv : ℕ := 2048

/-- The products of a layer. -/
def ModelSpec.layerTrace (spec : ModelSpec) (batchM : ℕ) : List Gemm :=
  let kv := spec.kvHeads * spec.headDim
  let mFfn := if 1 < batchM then batchM else 1
  [⟨batchM, spec.hidden, spec.qkvDim, 0, "Q_proj"⟩, ⟨batchM, spec.hidden, kv, 0, "K_proj"⟩,
    ⟨batchM, spec.hidden, kv, 0, "V_proj"⟩, ⟨batchM, spec.qkvDim, spec.hidden, 0, "O_proj"⟩,
    ⟨mFfn, spec.hidden, spec.intermediate, 0, "FFN_gate"⟩,
    ⟨mFfn, spec.hidden, spec.intermediate, 0, "FFN_up"⟩,
    ⟨mFfn, spec.intermediate, spec.hidden, 0, "FFN_down"⟩]

/-- The products of a layer of the model of an alias. -/
def generateTraceFromSpec (modelAlias : String) (batchM : ℕ := 1) : Except Failure (List Gemm) := do
  let spec ← getSpec modelAlias
  .ok (spec.layerTrace batchM)

/-! ### A layer -/

/-- The cycles of the special functions after a product. -/
def sfuCyclesAfter (opName : String) : ℕ :=
  if opName = "O_proj" then 33 else if opName = "FFN_down" then 8 else 0

/-- The clock of the engine. -/
def frequencyMhz (c : HardwareConfig) : ℚ :=
  PosRat.orDefault (c.macEngine.getD {}).frequencyMhz 1000

/-- The bytes of the keys and values of all tokens. -/
def kvCacheBytes (kvHeads headDim : ℕ) : ℕ := 2 * seqKv * kvHeads * headDim * 1

/-- The efficiency of reading the KV cache through its share of the buffers. -/
def kvDramEff (c : HardwareConfig) (kvBytes : ℕ) : ℚ :=
  let l2Kb := orDefault (c.sram.getD {}).l2SharedKb 2048
  let kvbufKb : ℕ := ⌊(l2Kb : ℚ) * 0.4⌋₊
  let kvMb : ℚ := kvBytes / (1024 * 1024)
  let kvbufMb : ℚ := kvbufKb / 1024
  let ratio := kvbufMb / max kvMb 0.001
  0.55 + 0.40 * ratio / (0.3 + ratio)

/-- The cycles in which the KV cache of a layer is read. -/
def computeKvCycles (c : HardwareConfig) (batchM : ℕ := 1) (kvHeads : ℕ := 0) (headDim : ℕ := 0) :
    Except Failure ℕ :=
  if 1 < batchM then .ok 0
  else
    let kvBytes := kvCacheBytes kvHeads headDim
    let onchipBw : ℚ := c.onChipMemory.bandwidthGbps.elim 0 (↑)
    if 0 < onchipBw then .ok ⌊(kvBytes : ℚ) / onchipBw⌋₊
    else do
      let bwRaw ← bandwidthGbpsToBytesPerCycle (PosRat.orDefault c.memory.bandwidthGbps 51.2)
        (frequencyMhz c)
      let effBw := bwRaw * UnitRat.orDefault c.memory.dramEfficiency 0.85
      let kvDramEff := kvDramEff c kvBytes
      if effBw ≤ 0 ∨ kvDramEff ≤ 0 then .ok 0
      else .ok ⌊(kvBytes : ℚ) / (effBw * kvDramEff)⌋₊

/-- Cycles and bytes of weights. -/
structure OpsTotals where
  cycles : ℤ := 0
  weightBytes : ℕ := 0
  deriving DecidableEq

/-- Add the estimate of a product, or of two that are merged, and what follows it. -/
def OpsTotals.add (t : OpsTotals) (result : EngineResult) (opName : String) : OpsTotals where
  cycles := t.cycles + result.totalCycles + sfuCyclesAfter opName
  weightBytes := t.weightBytes + result.weightBytes

/-- Whether a product is merged with the one after it. -/
def mergesByName (weightCache : Bool) (g next : Gemm) : Bool :=
  weightCache && decide (g.opName = "FFN_gate" ∧ next.opName = "FFN_up")

/-- Run through the products of a layer. -/
def opsLoop (e : Engine) (weightCache : Bool) : List Gemm → OpsTotals → Except Failure OpsTotals
  | [], t => .ok t
  | [g], t => do
    let result ← e.estimate g.m g.k g.n
    .ok (t.add result g.opName)
  | g :: next :: rest, t =>
    if mergesByName weightCache g next then do
      let result ← e.estimateWeightCachePair g.m g.k g.n
      opsLoop e weightCache rest (t.add result g.opName)
    else do
      let result ← e.estimate g.m g.k g.n
      opsLoop e weightCache (next :: rest) (t.add result g.opName)

/-- Whether a configuration caches the weights of gated layers. -/
def weightCache (c : HardwareConfig) : Bool := c.optimizations.weightCache.getD false

/-- The cycles and the bytes of weights of the products of a layer. -/
def simulateOps (py : Builtins) (c : HardwareConfig) (ops : List Gemm) :
    Except Failure OpsTotals := do
  let engine ← createEngine py c emptyGraph
  opsLoop engine (weightCache c) ops {}

/-- Simulate a layer of the default model. -/
def simulateLayer (py : Builtins) (c : HardwareConfig) (batchM kvHeads headDim : Option ℕ := none) :
    Except Failure OpsTotals := do
  let batchM := batchM.getD 1
  let spec ← getSpec defaultLlmSpec
  let kvHeads := kvHeads.getD spec.kvHeads
  let headDim := headDim.getD spec.headDim
  let trace ← generateTraceFromSpec defaultLlmSpec batchM
  let totals ← simulateOps py c trace
  let kvCycles ← computeKvCycles c batchM kvHeads headDim
  .ok { totals with cycles := totals.cycles + kvCycles }

/-- The cycles of a layer in which tokens are prefilled. -/
def simulatePrefill (py : Builtins) (c : HardwareConfig) (batchM : ℕ)
    (modelAlias : String := defaultLlmSpec) : Except Failure ℤ := do
  let _ ← getSpec modelAlias
  let trace ← generateTraceFromSpec modelAlias batchM
  let totals ← simulateOps py c trace
  .ok totals.cycles

/-! ### An evaluation -/

/-- The microseconds of some cycles. -/
def cyclesToMicroseconds (cycles : ℤ) (frequencyMhz : ℚ) : Except Failure ℚ :=
  if frequencyMhz ≤ 0 then
    .error (.valueError ("frequency_mhz must be > 0, got " ++ toString frequencyMhz))
  else .ok (cycles / frequencyMhz)

/-- Rounding to some digits after the decimal point. -/
def roundDigits (x : ℚ) (digits : ℕ) : ℚ := roundHalfEven (x * 10 ^ digits) / 10 ^ digits

/-- The milliseconds until the first token. -/
def ttftMsFromPrefill (prefillCycles : ℤ) (numLayers : ℕ) (freqMhz : ℚ) : Except Failure ℚ := do
  let us ← cyclesToMicroseconds (prefillCycles * numLayers) freqMhz
  .ok (roundDigits (us / 1000) 2)

/-- The tokens in a second. -/
def tokSFromLayer (layerCycles : ℤ) (numLayers : ℕ) (fMhz : ℚ) : Except Failure ℚ := do
  let totalUs ← cyclesToMicroseconds (layerCycles * numLayers) fMhz
  .ok (if 0 < totalUs then roundDigits (1000000 / totalUs) 1 else 0)

/-- The images in a second. -/
def fpsFromCycles (totalCycles : ℤ) : ℚ := if 0 < totalCycles then 1000000000 / totalCycles else 0

/-- The mean utilization of the depthwise convolutions. -/
def depthwiseUtil (layers : List Cv.LayerResult) : ℚ :=
  let utils := (layers.filter fun layer => decide (layer.type = "depthwise_conv")).map
    (·.mxuUtilPct)
  if utils = [] then 0 else utils.sum / utils.length

/-- What a run of the explorer evaluates. -/
structure Selection where
  cvModel : String := ""
  cvTrace : List Cv.TraceEntry := []
  modelAlias : String := defaultLlmSpec

/-- The estimates of area and power, and those of engines for any integers. -/
structure Estimators where
  estimate : Engine → ℤ → ℤ → ℤ → Except Failure EngineResult
  area : HardwareConfig → String → Except Failure ℚ
  power : HardwareConfig → String → Except Failure ℚ

/-- Performance, power and area. -/
structure PPA where
  tokS : ℚ
  areaMm2 : ℚ
  powerW : ℚ
  ttftMs : ℚ := 0
  sramSpillMb : ℚ := 0
  depthwiseUtilPct : ℚ := 0

namespace PPA

def efficiencyTokPerWatt (ppa : PPA) : ℚ := ppa.tokS / max ppa.powerW 0.1

def efficiencyTokPerMm2 (ppa : PPA) : ℚ := ppa.tokS / max ppa.areaMm2 0.1

end PPA

/-- A key of a dictionary that must be present. -/
def require {α : Type} (key : String) : Option α → Except Failure α
  | none => .error (.keyError key)
  | some a => .ok a

section Evaluation

variable (py : Builtins) (est : Estimators) (c : Cv.CvConfig)

/-- Simulate the selected vision model. -/
def simulateCv (trace : List Cv.TraceEntry) : Except Failure Cv.CvResult := do
  let engine ← createEngine py c.toHardwareConfig emptyGraph
  Cv.simulateCvWith (est.estimate engine) c none trace

/-- Evaluate a vision model. -/
def evaluateCv (s : Selection) (engineType : String) : Except Failure PPA := do
  let result ← simulateCv py est c s.cvTrace
  let area ← est.area c.toHardwareConfig engineType
  let power ← est.power c.toHardwareConfig engineType
  .ok
    { tokS := fpsFromCycles result.totalCycles
      areaMm2 := area
      powerW := power
      sramSpillMb := result.sramSpillMb
      depthwiseUtilPct := depthwiseUtil result.layers }

/-- Evaluate a language model. -/
def evaluateLlm (s : Selection) (engineType : String) (freq : ℚ) (batchM : ℕ) :
    Except Failure PPA := do
  let spec ← getSpec s.modelAlias
  let layer ← simulateLayer py c.toHardwareConfig (some 1) (some spec.kvHeads) (some spec.headDim)
  let tokS ← tokSFromLayer layer.cycles spec.layers freq
  let area ← est.area c.toHardwareConfig engineType
  let power ← est.power c.toHardwareConfig engineType
  let prefill ← simulatePrefill py c.toHardwareConfig batchM s.modelAlias
  let ttft ← ttftMsFromPrefill prefill spec.layers freq
  .ok { tokS := tokS, areaMm2 := area, powerW := power, ttftMs := ttft }

/-- Evaluate the selected model. -/
def evaluateModel (s : Selection) (engineType : String) (freq : ℚ) (batchM : ℕ) :
    Except Failure PPA :=
  if s.cvModel ≠ "" then evaluateCv py est c s engineType
  else evaluateLlm py est c s engineType freq batchM

/-- Evaluate a configuration, which must have the keys of its label. -/
def evaluateConfig (s : Selection) (batchM : ℕ := 1) : Except Failure PPA := do
  let mac ← require "mac_engine" c.macEngine
  let engineType ← require "type" mac.type
  let freq ← require "frequency_mhz" mac.frequencyMhz
  let ppa ← evaluateModel py est c s engineType freq batchM
  let _ ← require "array_height" mac.arrayHeight
  let _ ← require "array_width" mac.arrayWidth
  let _ ← require "weight_precision_bits" mac.weightPrecisionBits
  let _ ← require "weight_cache" c.optimizations.weightCache
  let _ ← require "dma_bw_multiplier" c.optimizations.dmaBwMultiplier
  .ok ppa

end Evaluation

end Explorer

end NpuArc
