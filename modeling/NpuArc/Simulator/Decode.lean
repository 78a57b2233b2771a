import NpuArc.Engines.Registry
import NpuArc.Simulator.ElementUnits
import NpuArc.Simulator.KvCache
import NpuArc.Simulator.Noc
import NpuArc.Simulator.Timeline

/-!
# Simulation of a decode step

The simulator runs through a trace of products. Each product is charged to the matrix unit, its
weights to the memory and the network, and what follows it to the other units, on a timeline and in
counters for its layer. With a weight cache, the two products of a gated layer are one.
-/

namespace NpuArc

namespace Simulator

open Engines Residency

/-- A product of a trace. -/
structure Gemm where
  m : ℕ
  k : ℕ
  n : ℕ
  layer : ℤ
  opName : String
  deriving DecidableEq

/-- The cycles of a layer by unit. -/
structure LayerBreakdown where
  layer : ℤ
  mxu : ℕ := 0
  sfu : ℕ := 0
  vector : ℕ := 0
  dmaWeight : ℕ := 0
  dmaEffective : ℕ := 0
  kvCache : ℕ := 0
  nocLatency : ℕ := 0
  total : ℕ := 0

/-- A report of a simulation. -/
structure SimulationReport where
  arrayHeight : ℕ
  arrayWidth : ℕ
  weightBits : ℕ
  freqMhz : ℕ
  engineType : String
  decodePerTokenUs : ℚ
  decodeTokPerS : ℚ
  decodeBreakdown : Dict String ℚ
  layerBreakdowns : List LayerBreakdown
  events : List TimelineEvent

/-- Cycles of a transfer that the computation does not hide, and those that it hides. -/
def estimateEffective (transferCycles computeCycles : ℕ) : ℕ × ℕ :=
  (transferCycles - computeCycles, min transferCycles computeCycles)

/-- The microseconds of some cycles. -/
def cyclesToMicroseconds (cycles frequencyMhz : ℕ) : Except Failure ℚ :=
  if frequencyMhz = 0 then
    .error (.valueError ("frequency_mhz must be > 0, got " ++ toString frequencyMhz))
  else .ok (cycles / frequencyMhz)

/-- The simulator. -/
structure NPUSimulator where
  config : SimulatorConfig
  fMhz : ℕ
  mxu : Engine
  sfu : SfuModel
  vector : VectorModel
  kv : KvCacheModel
  dram : DramModel
  noc : NocModel

/-- The timeline and the counters of the layers. -/
structure DecodeState where
  timeline : CoreTimeline := {}
  layerData : Dict ℤ LayerBreakdown := .empty

/-- Update the counters of a layer. -/
def DecodeState.charge (st : DecodeState) (layer : ℤ) (f : LayerBreakdown → LayerBreakdown) :
    DecodeState :=
  { st with layerData := st.layerData.modify layer f }

namespace NPUSimulator

/-- The simulator of a configuration, with the graph of the trace that its memory is planned for. -/
def create (py : Builtins) (c : SimulatorConfig) (graph : WorkloadGraph) :
    Except Failure NPUSimulator := do
  let tiers ← buildHierarchyFromConfig py c.toHardwareConfig
  let plan ← ofPlanner (buildMemoryAccessPlan py graph (hierarchyOf tiers) 1 .empty true)
  let mxu ← createEngine py c.toHardwareConfig graph
  let vector ← VectorModel.create c
  let kv ← KvCacheModel.create c tiers plan
  let dram ← DramModel.create c
  let kv ← kv.configureForModel 16 128 36 2048
  .ok
    { config := c
      fMhz := MacEngine.frequencyOf c.toHardwareConfig
      mxu := mxu
      sfu := SfuModel.create c
      vector := vector
      kv := kv
      dram := dram
      noc := NocModel.create c }

/-- Whether the weights of the products of a gated layer are cached together. -/
def weightCacheEnabled (sim : NPUSimulator) : Bool :=
  sim.config.optimizations.weightCache.getD false

/-- Whether a product is merged with the one after it. -/
def merges (sim : NPUSimulator) (g next : Gemm) : Bool :=
  sim.weightCacheEnabled && decide (g.opName = "FFN_gate" ∧ next.opName = "FFN_up" ∧
    next.m = g.m ∧ next.k = g.k ∧ next.layer = g.layer)

/-- The tokens of the context. -/
def totalTokens : ℕ := 128

/-- On the first product of a layer, load its window of the KV cache. -/
def enterLayer (sim : NPUSimulator) (layer : ℤ) (st : DecodeState) : Except Failure DecodeState :=
  if st.layerData.contains layer then .ok st
  else do
    let kvSwitch ← sim.kv.layerSwitchCost
    .ok
      { timeline := st.timeline.addKv "layer_switch" kvSwitch layer
        layerData := st.layerData.insert layer { layer := layer, kvCache := kvSwitch } }

/-- Charge a product to the matrix unit. -/
def chargeMxu (op : String) (result : EngineResult) (layer : ℤ) (st : DecodeState) : DecodeState :=
  let mxuCycles := result.totalCycles.toNat
  { st with timeline := st.timeline.addMxu op mxuCycles layer }.charge layer
    fun lb => { lb with mxu := lb.mxu + mxuCycles }

/-- Charge the weights of a product to the memory, and restore the instant at its end. -/
def chargeDma (label : String) (result : EngineResult) (layer : ℤ) (st : DecodeState) :
    DecodeState :=
  let dmaCycles := result.dmaCycles.toNat
  let mxuEnd := st.timeline.currentCycle
  let timeline := (st.timeline.addDmaParallel ("dma_weights " ++ label) dmaCycles layer
    ).setCurrentCycle mxuEnd
  let parts := estimateEffective dmaCycles result.computeCycles.toNat
  { st with timeline := timeline }.charge layer fun lb =>
    { lb with
      dmaEffective := lb.dmaEffective + parts.1
      dmaWeight := lb.dmaWeight + parts.2 }

/-- Charge the weights of a product to the network, and restore the instant at its end. -/
def chargeNoc (sim : NPUSimulator) (py : Builtins) (label : String) (result : EngineResult)
    (layer : ℤ) (st : DecodeState) : DecodeState :=
  let mxuEnd := st.timeline.currentCycle
  let nocCycles := sim.noc.estimateTransfer py result.weightBytes 0 0
  let timeline := (st.timeline.addNoc ("noc_weights " ++ label) nocCycles layer
    ).setCurrentCycle mxuEnd
  { st with timeline := timeline }.charge layer fun lb =>
    { lb with nocLatency := lb.nocLatency + nocCycles }

/-- Charge an operation to the unit of special functions. -/
def chargeSfu (op : String) (cycles : ℕ) (layer : ℤ) (st : DecodeState) : DecodeState :=
  { st with timeline := st.timeline.addSfu op cycles layer }.charge layer
    fun lb => { lb with sfu := lb.sfu + cycles }

/-- Charge an operation to the vector unit. -/
def chargeVector (op : String) (cycles : ℕ) (layer : ℤ) (st : DecodeState) : DecodeState :=
  { st with timeline := st.timeline.addVector op cycles layer }.charge layer
    fun lb => { lb with vector := lb.vector + cycles }

/-- Charge the softmax, the normalization and the rotation after the attention. -/
def chargeAttention (sim : NPUSimulator) (py : Builtins) (layer : ℤ) (st : DecodeState) :
    DecodeState :=
  let hidden := 2048
  let vecSoftmax := sim.vector.estimateSoftmaxVectorParts hidden
  let sfuSoftmax := sim.sfu.estimateSoftmaxDecomposed hidden
  let sfuCycles := vecSoftmax.maxReduce + sfuSoftmax.1 + vecSoftmax.sumReduce + sfuSoftmax.2 +
    sim.sfu.estimate py "layernorm" hidden + sim.sfu.estimate py "rope" (hidden * 2)
  let vecCycles := vecSoftmax.scaleSub + sim.vector.estimateResidualAdd py hidden
  chargeVector "attn_vec (sub+residual)" vecCycles layer
    (chargeSfu "attn_sfu (exp+div+ln+rope)" sfuCycles layer st)

/-- Charge the activation function and the normalization at the end of a layer. -/
def chargeFeedForward (sim : NPUSimulator) (py : Builtins) (layer : ℤ) (st : DecodeState) :
    DecodeState :=
  let intermediate := 11008
  let hidden := 2048
  let sfuCycles := sim.sfu.estimate py "gelu" intermediate + sim.sfu.estimate py "layernorm" hidden
  let vecCycles := sim.vector.estimateResidualAdd py hidden
  chargeVector "ffn_vec (residual)" vecCycles layer
    (chargeSfu "ffn_sfu (gelu+ln)" sfuCycles layer st)

/-- Charge what follows a product to the other units. -/
def chargeElements (sim : NPUSimulator) (py : Builtins) (g : Gemm) (st : DecodeState) :
    DecodeState :=
  if g.opName = "O_proj" then sim.chargeAttention py g.layer st
  else if g.opName = "FFN_down" then sim.chargeFeedForward py g.layer st
  else st

/-- Charge the access to the KV cache. -/
def chargeKv (sim : NPUSimulator) (layer : ℤ) (st : DecodeState) : Except Failure DecodeState := do
  let kvCycles ← sim.kv.estimatePerDecode totalTokens
  .ok ({ st with timeline := st.timeline.addKv "kv_access" kvCycles layer }.charge layer
    fun lb => { lb with kvCache := lb.kvCache + kvCycles })

/-- Add up the counters of a layer. -/
def updateTotal (layer : ℤ) (st : DecodeState) : DecodeState :=
  st.charge layer fun lb =>
    { lb with total := lb.mxu + lb.sfu + lb.vector + lb.kvCache + lb.dmaEffective }

/-- The dimensions of a product. -/
def shapeText (g : Gemm) (separator : String) : String :=
  toString g.m ++ separator ++ toString g.k ++ separator ++ toString g.n

/-- A product and the one after it as one, with the weights of both cached. -/
def pairStep (sim : NPUSimulator) (py : Builtins) (g : Gemm) (st : DecodeState) :
    Except Failure DecodeState := do
  let st ← sim.enterLayer g.layer st
  let result ← sim.mxu.estimateWeightCachePair g.m g.k g.n
  let st := chargeMxu ("Gate+Up (cache, " ++ shapeText g "×" ++ ", " ++
    toString result.numTiles ++ " dual-tiles)") result g.layer st
  let label := "Gate+Up " ++ shapeText g "x"
  let st := sim.chargeNoc py label result g.layer (chargeDma label result g.layer st)
  sim.chargeKv g.layer st

/-- A single product. -/
def singleStep (sim : NPUSimulator) (py : Builtins) (g : Gemm) (st : DecodeState) :
    Except Failure DecodeState := do
  let st ← sim.enterLayer g.layer st
  let result ← sim.mxu.estimate g.m g.k g.n
  let st := chargeMxu (g.opName ++ " (" ++ shapeText g "×" ++ ", " ++
    toString result.numTiles ++ "tiles)") result g.layer st
  let label := g.opName ++ " " ++ shapeText g "x"
  let st := sim.chargeNoc py label result g.layer (chargeDma label result g.layer st)
  let st ← sim.chargeKv g.layer (sim.chargeElements py g st)
  .ok (updateTotal g.layer st)

/-- Run through a trace. -/
def decodeLoop (sim : NPUSimulator) (py : Builtins) :
    List Gemm → DecodeState → Except Failure DecodeState
  | [], st => .ok st
  | [g], st => sim.singleStep py g st
  | g :: next :: rest, st =>
    if sim.merges g next then do
      let st ← sim.pairStep py g st
      sim.decodeLoop py rest st
    else do
      let st ← sim.singleStep py g st
      sim.decodeLoop py (next :: rest) st

/-- The report of a run, after the memory has been refreshed. -/
def report (sim : NPUSimulator) (st : DecodeState) : Except Failure SimulationReport := do
  let refreshCycles := sim.dram.addRefreshOverhead st.timeline.totalCycles
  let timeline := st.timeline.addKv "dram_refresh" refreshCycles (-1)
  let decodeUs ← cyclesToMicroseconds timeline.totalCycles sim.fMhz
  let mxu := sim.config.mxu.getD {}
  .ok
    { arrayHeight := orDefault mxu.arrayHeight 128
      arrayWidth := orDefault mxu.arrayWidth 128
      weightBits := orDefault mxu.weightPrecisionBits 4
      freqMhz := (truncate (PosRat.orDefault mxu.frequencyMhz 1000)).toNat
      engineType := sim.mxu.engineType
      decodePerTokenUs := decodeUs
      decodeTokPerS := if 0 < decodeUs then 1000000 / decodeUs else 0
      decodeBreakdown := (breakdownEvents timeline.events).mapValues fun _ (cycles : ℕ) =>
        (cycles : ℚ) / sim.fMhz
      layerBreakdowns := st.layerData.values.insertionSort fun a b => a.layer ≤ b.layer
      events := timeline.events }

/-- Simulate the decoding of a token. -/
def simulateDecode (sim : NPUSimulator) (py : Builtins) (trace : List Gemm) :
    Except Failure SimulationReport := do
  let st ← sim.decodeLoop py trace {}
  sim.report st

end NPUSimulator

end Simulator

end NpuArc
