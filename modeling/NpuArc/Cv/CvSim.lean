import NpuArc.Cv.CvTrace
import NpuArc.Engines.Registry
import NpuArc.Simulator.Config
import NpuArc.Workloads.Validate

/-!
# Simulation of vision traces

Each entry of a trace is charged to the engine, to the unit of special functions or to the vector
unit, or to none. The simulation adds up the cycles and the volume of the activations, of which the
buffers hold a part.
-/

namespace NpuArc

namespace Cv

open Engines Workloads Residency

/-- The configuration of a simulation. -/
structure CvConfig extends HardwareConfig where
  vector : Simulator.VectorSection := {}

/-- The elements that the vector unit processes in a cycle. -/
def CvConfig.vectorWidth (c : CvConfig) : ℕ+ := c.vector.width.getD (Nat.succPNat 127)

/-- The kilobytes of the buffers. -/
def CvConfig.sramKb (c : CvConfig) : ℕ :=
  let sram := c.sram.getD {}
  orDefault sram.l1PerCoreKb 512 + orDefault sram.l2SharedKb 2048

/-- The bytes of an activation. -/
def CvConfig.bytesPerElement (c : CvConfig) : ℚ := orDefault c.mac.activationPrecisionBits 8 / 8

/-- The types of the entries of the unit of special functions. -/
def sfuTypes : List String := ["hard_swish", "hard_sigmoid", "relu", "global_avg_pool"]

/-- The types of the entries of the vector unit. -/
def elementwiseTypes : List String := ["add", "mul"]

/-- Whether operators of a type are free or fused into others. -/
def isFreeOrFused (opType : String) : Bool :=
  decide (OperatorRegistry.default.check opType = .explicitlyFreeOrFused)

/-- What an entry is charged. -/
structure LayerResult where
  name : String
  type : String
  cycles : ℤ
  computeCycles : ℤ
  dmaCycles : ℚ
  macs : ℤ
  mxuUtilPct : ℚ

/-- The totals of a simulation. -/
structure CvTotals where
  totalCycles : ℤ := 0
  totalMacs : ℤ := 0
  totalDmaCycles : ℚ := 0
  totalActivationBytes : ℚ := 0
  layers : List LayerResult := []

/-- The result of a simulation. -/
structure CvResult where
  totalCycles : ℤ
  totalMacs : ℤ
  totalDmaCycles : ℚ
  sramSpillMb : ℚ
  layers : List LayerResult

/-- The bytes of the activations of an entry. -/
def estimateActivationBytes (entry : TraceEntry) (bytesPerElement : ℚ) : ℚ :=
  entry.inShape.elim (entry.m * entry.n * bytesPerElement) fun dims => dims.prod * bytesPerElement

section Entries

-- The estimate of an engine is given for any integers.
variable (estimate : ℤ → ℤ → ℤ → Except Failure EngineResult) (c : CvConfig)

/-- Simulate a matrix product. -/
def simulateConv (entry : TraceEntry) : Except Failure LayerResult := do
  let result ← estimate entry.m entry.k entry.n
  .ok
    { name := entry.name
      type := entry.type
      cycles := truncate (result.totalCycles + entry.im2colOverheadCycles)
      computeCycles := result.computeCycles
      dmaCycles := result.dmaCycles + entry.im2colOverheadCycles
      macs := entry.m * entry.k * entry.n
      mxuUtilPct := result.utilization * 100 }

/-- What an entry is charged that computes for some cycles without a matrix product. -/
def LayerResult.ofCycles (entry : TraceEntry) (cycles : ℤ) : LayerResult where
  name := entry.name
  type := entry.type
  cycles := cycles
  computeCycles := cycles
  dmaCycles := 0
  macs := 0
  mxuUtilPct := 0

/-- Simulate an entry of the unit of special functions. -/
def simulateSfu (entry : TraceEntry) : LayerResult := .ofCycles entry entry.sfuCycles

/-- Simulate an entry of the vector unit. -/
def simulateElementwise (entry : TraceEntry) (vectorWidth : ℕ+) : LayerResult :=
  let numElements := if 0 < entry.n then entry.m * entry.n else entry.m
  .ofCycles entry (max 1 ⌈(numElements : ℚ) / vectorWidth⌉)

/-- Simulate an entry that is fused into another one. -/
def simulateMetadata (entry : TraceEntry) : LayerResult := .ofCycles entry 0

/-- Simulate an entry. -/
def simulateEntry (entry : TraceEntry) : Except Failure LayerResult :=
  if entry.type ∈ ["pointwise_conv", "depthwise_conv", "gemm"] then simulateConv estimate entry
  else if entry.type ∈ sfuTypes then .ok (simulateSfu entry)
  else if entry.type ∈ elementwiseTypes then .ok (simulateElementwise entry c.vectorWidth)
  else if isFreeOrFused entry.type then .ok (simulateMetadata entry)
  else
    .error (.raised (.unsupportedOperatorError ("CV trace entry " ++ reprStr entry.name ++
      " uses unsupported operator " ++ reprStr entry.type) entry.type entry.name))

/-- The volume of the activations of an entry, zero if it is fused. -/
def activationBytes (entry : TraceEntry) : ℚ :=
  if isFreeOrFused entry.type then 0 else estimateActivationBytes entry c.bytesPerElement

/-- Simulate an entry and add it to the totals. -/
def addEntry (totals : CvTotals) (entry : TraceEntry) : Except Failure CvTotals := do
  let result ← simulateEntry estimate c entry
  .ok
    { totalCycles := totals.totalCycles + result.cycles
      totalMacs := totals.totalMacs + result.macs
      totalDmaCycles := totals.totalDmaCycles + result.dmaCycles
      totalActivationBytes := totals.totalActivationBytes + activationBytes c entry
      layers := totals.layers ++ [result] }

/-- The totals of a trace. -/
def simulateTrace (trace : List TraceEntry) : Except Failure CvTotals :=
  trace.foldlM (addEntry estimate c) {}

/-- The megabytes that the buffers do not hold, by a plan of the memory if there is one. -/
def sramSpillMb (spillBytesTotal : Option ℕ) (totals : CvTotals) : ℚ :=
  spillBytesTotal.elim
    (max 0 ((totals.totalActivationBytes / 1024 - c.sramKb) / 1024))
    fun bytes => bytes / (1024 * 1024)

/-- Simulate a trace with an engine and a plan of the memory. -/
def simulateCvWith (spillBytesTotal : Option ℕ) (trace : List TraceEntry) :
    Except Failure CvResult := do
  let totals ← simulateTrace estimate c trace
  .ok
    { totalCycles := totals.totalCycles
      totalMacs := totals.totalMacs
      totalDmaCycles := totals.totalDmaCycles
      sramSpillMb := sramSpillMb c spillBytesTotal totals
      layers := totals.layers }

end Entries

end Cv

end NpuArc
