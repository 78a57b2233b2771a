import NpuArc.Engines.MacEngine
import NpuArc.Simulator.Timeline

/-!
# The timeline of several cores

The layers of a model run on several cores one behind the other, and the activations of a layer go
through a FIFO to the core of the next one. The loop over the layers keeps the progress of each core
in picoseconds.
-/

namespace NpuArc

namespace Simulator

open Engines

/-- The FIFO between two cores. -/
structure FIFOConfig where
  widthBits : ℕ := 256
  latencyCycles : ℕ := 2

/-- The timelines of several cores. -/
structure MultiCoreTimeline where
  numCores : ℕ
  cores : List CoreTimeline
  fifo : FIFOConfig

/-- What is added to the progress of a core: the work of a layer, or the transfer behind it. -/
inductive Charge
  | work (core layer ps : ℕ)
  | transfer (core layer ps : ℕ)
  deriving DecidableEq

/-- The state of the loop over the layers, with a record of what was charged. -/
structure PipelineState where
  coreProgress : List ℕ
  nowPs : ℕ := 0
  fifoOverheadPs : ℕ := 0
  charges : List Charge := []

/-- The result of a pipeline. -/
structure PipelineResult where
  totalCycles : ℕ
  coreMax : ℕ
  fifoOverhead : ℕ
  fifoEffective : ℕ
  coreProgress : List ℕ
  charges : List Charge

namespace MultiCoreTimeline

/-- Timelines of cores with the default frequency. -/
def create (numCores : ℕ) (fifo : FIFOConfig) : MultiCoreTimeline where
  numCores := numCores
  cores := (List.range numCores).map fun i => { coreId := i }
  fifo := fifo

/-- The cycles in which some elements go through the FIFO. -/
def fifoTransferCycles (m : MultiCoreTimeline) (numElements : ℕ) (elementBytes : ℕ := 2) :
    Except Failure ℕ :=
  let bytesPerCycle := m.fifo.widthBits / 8
  let totalBytes := numElements * elementBytes
  if bytesPerCycle = 0 then .error .zeroDivisionError
  else .ok (totalBytes ⌈/⌉ bytesPerCycle + m.fifo.latencyCycles)

/-- The picoseconds of some cycles, rounded up. -/
def cyclesToPs (frequencyMhz : ℕ+) (cycles : ℕ) : ℕ := (cycles * 1000000) ⌈/⌉ (frequencyMhz : ℕ)

/-- The picoseconds in which some elements go through the FIFO. -/
def fifoTransferPs (m : MultiCoreTimeline) (numElements elementBytes : ℕ) (frequencyMhz : ℕ+) :
    Except Failure ℕ := do
  let cycles ← m.fifoTransferCycles numElements elementBytes
  .ok (cyclesToPs frequencyMhz cycles)

/-- The furthest progress of a core. -/
def maxProgress (coreProgress : List ℕ) : ℕ := coreProgress.foldl max 0

/-- The frequency of the first core. -/
def frequencyMhz (m : MultiCoreTimeline) : ℕ+ :=
  (m.cores.head?.map CoreTimeline.frequencyMhz).getD (Nat.succPNat 999)

/-- One layer of a pipeline. Its cycles are charged to the cores in turn, and its transfer to the
core that made the activations. -/
def pipelineStep (m : MultiCoreTimeline) (numLayers : ℕ) (perLayerCycles : List ℕ)
    (activationSize : ℕ) (st : PipelineState) (layerIdx : ℕ) : Except Failure PipelineState :=
  if m.numCores = 0 then .error .zeroDivisionError
  else
    let coreId := layerIdx % m.numCores
    let cycles := perLayerCycles.getD layerIdx 1000
    let workPs := cyclesToPs m.frequencyMhz cycles
    let coreProgress := st.coreProgress.modify coreId fun progress => max progress st.nowPs + workPs
    let worked : PipelineState :=
      { st with
        coreProgress := coreProgress
        nowPs := maxProgress coreProgress
        charges := st.charges ++ [.work coreId layerIdx workPs] }
    let nextCore := (layerIdx + 1) % m.numCores
    if nextCore ≠ coreId ∧ layerIdx + 1 < numLayers then do
      let fifoPs ← m.fifoTransferPs activationSize 2 m.frequencyMhz
      let coreProgress := worked.coreProgress.modify coreId fun progress => progress + fifoPs
      .ok
        { coreProgress := coreProgress
          nowPs := maxProgress coreProgress
          fifoOverheadPs := worked.fifoOverheadPs + fifoPs
          charges := worked.charges ++ [.transfer coreId layerIdx fifoPs] }
    else .ok worked

/-- Run the layers of a model on the cores. -/
def simulatePipeline (m : MultiCoreTimeline) (layerAssignments : List (List ℕ))
    (perLayerCycles : List ℕ) (activationSize : ℕ := 2560) : Except Failure PipelineResult := do
  let numLayers := (layerAssignments.map List.length).sum
  let st ← (List.range numLayers).foldlM
    (m.pipelineStep numLayers perLayerCycles activationSize)
    { coreProgress := List.replicate m.numCores 0 }
  let maxCorePs := maxProgress st.coreProgress
  let maxCoreCycles := maxCorePs * m.frequencyMhz / 1000000
  let transferCycles ← m.fifoTransferCycles activationSize
  .ok
    { totalCycles := maxCoreCycles
      coreMax := maxCoreCycles
      fifoOverhead := transferCycles * numLayers
      fifoEffective := maxCorePs * m.frequencyMhz / 1000000 - maxCoreCycles
      coreProgress := st.coreProgress
      charges := st.charges }

end MultiCoreTimeline

end Simulator

end NpuArc
