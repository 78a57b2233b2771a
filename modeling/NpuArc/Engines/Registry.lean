import NpuArc.Engines.Block
import NpuArc.Engines.Fsa
import NpuArc.Engines.Warps
import NpuArc.Engines.Stationary
import NpuArc.Engines.Systolic
import NpuArc.Engines.TensorCore

/-!
# The registry of engines

An engine is created from a configuration by the name of its type. Three of the engines read a
section of their own, which is checked before the memory is planned.
-/

namespace NpuArc

namespace Engines

open Residency

/-! ### Creation of the engines with sections of their own -/

/-- The cycles of a descriptor, which are not negative. -/
def parseDescriptorOverhead (c : HardwareConfig) : Except Failure ℕ :=
  let overhead := c.dmaDescriptorOverheadCycles.getD 5
  if overhead < 0 then
    .error (.valueError ("dma.descriptor_overhead_cycles must be >= 0, got " ++ toString overhead))
  else .ok overhead.toNat

/-- Tensor cores for a graph. -/
def TensorCoreEngine.init (py : Builtins) (c : HardwareConfig) (graph : WorkloadGraph) :
    Except Failure TensorCoreEngine := do
  let e ← MacEngine.parseConfig c
  let overhead ← parseDescriptorOverhead c
  let e ← e.planMemory py c graph
  .ok { toMacEngine := e, descriptorOverheadCycles := overhead }

/-- The cycles in which a fragment is dispatched, which are not negative. -/
def parseFragmentSerialization (c : HardwareConfig) : Except Failure ℕ :=
  let ser := c.wmmaFragmentSerializationCycles.elim 1600 truncate
  if ser < 0 then
    .error (.valueError ("wmma.fragment_serialization_cycles must be non-negative, got " ++
      toString ser))
  else .ok ser.toNat

/-- A warp engine for a graph. -/
def WmmaEngine.init (py : Builtins) (c : HardwareConfig) (graph : WorkloadGraph) :
    Except Failure WmmaEngine := do
  let e ← MacEngine.parseConfig c
  let ser ← parseFragmentSerialization c
  let e ← e.planMemory py c graph
  .ok { toMacEngine := e, fragmentSerializationCycles := ser }

/-- The share of the fill and drain of a group engine. -/
def parsePipelineScale (c : HardwareConfig) : Except Failure {x : ℚ // 0 < x ∧ x ≤ 1} :=
  let scale := c.gmmaPipelineScale.getD 0.05
  if h : 0 < scale ∧ scale ≤ 1 then .ok ⟨scale, h⟩
  else .error (.valueError ("gmma.pipeline_scale must be in (0, 1], got " ++ toString scale))

/-- A group engine for a graph. -/
def GmmaEngine.init (py : Builtins) (c : HardwareConfig) (graph : WorkloadGraph) :
    Except Failure GmmaEngine := do
  let e ← MacEngine.parseConfig c
  let scale ← parsePipelineScale c
  let e ← e.planMemory py c graph
  .ok
    { toMacEngine := e
      pipelineScale := scale.val
      pipelineScale_pos := scale.property.1
      pipelineScale_le := scale.property.2 }

/-! ### Engines -/

/-- An engine of any registered type. -/
inductive Engine
  | systolic (e : SystolicEngine)
  | osSystolic (e : OutputStationaryEngine)
  | block (e : BlockEngine)
  | tensorCore (e : TensorCoreEngine)
  | wmma (e : WmmaEngine)
  | gmma (e : GmmaEngine)
  | inputStationary (e : InputStationaryEngine)
  | fsa (e : FsaEngine)

namespace Engine

/-- The parameters that all engines share. -/
def mac : Engine → MacEngine
  | systolic e => e.toMacEngine
  | osSystolic e => e.toMacEngine
  | block e => e.toMacEngine
  | tensorCore e => e.toMacEngine
  | wmma e => e.toMacEngine
  | gmma e => e.toMacEngine
  | inputStationary e => e.toMacEngine
  | fsa e => e.toMacEngine

/-- The name of the type of an engine. -/
def engineType : Engine → String
  | systolic _ => "systolic"
  | osSystolic _ => "os_systolic"
  | block _ => "block"
  | tensorCore _ => "tensor_core"
  | wmma _ => "wmma"
  | gmma _ => "gmma"
  | inputStationary _ => "input_stationary"
  | fsa _ => "fsa"

/-- Estimate a product. -/
def estimate (e : Engine) (m k n : ℕ) : Except Failure EngineResult :=
  match e with
  | systolic e => e.estimate m k n
  | osSystolic e => e.estimate m k n
  | block e => e.estimate m k n
  | tensorCore e => e.estimate m k n
  | wmma e => e.estimate m k n
  | gmma e => e.estimate m k n
  | inputStationary e => e.estimate m k n
  | fsa e => e.estimate m k n

/-- Estimate a pair of products that share their activations. -/
def estimateWeightCachePair (e : Engine) (m k n : ℕ) : Except Failure EngineResult :=
  match e with
  | systolic e => e.estimateWeightCachePair m k n
  | osSystolic e => e.estimateWeightCachePair m k n
  | block e => e.estimateWeightCachePair m k n
  | tensorCore e => e.estimateWeightCachePair m k n
  | wmma e => e.estimateWeightCachePair m k n
  | gmma e => e.estimateWeightCachePair m k n
  | inputStationary e => e.estimateWeightCachePair m k n
  | fsa e => e.estimateWeightCachePair m k n

end Engine

/-- The names of the registered types. -/
def canonicalIds : List String :=
  ["systolic", "os_systolic", "block", "tensor_core", "wmma", "gmma", "input_stationary", "fsa"]

/-- Create an engine by the name of its type. -/
def createEngineByType (py : Builtins) (engineType : String) (c : HardwareConfig)
    (graph : WorkloadGraph) : Except Failure Engine :=
  match engineType with
  | "systolic" => (MacEngine.init py c graph).map fun e => .systolic ⟨e⟩
  | "os_systolic" => (MacEngine.init py c graph).map fun e => .osSystolic ⟨e⟩
  | "block" => (MacEngine.init py c graph).map fun e => .block ⟨e⟩
  | "tensor_core" => (TensorCoreEngine.init py c graph).map .tensorCore
  | "wmma" => (WmmaEngine.init py c graph).map .wmma
  | "gmma" => (GmmaEngine.init py c graph).map .gmma
  | "input_stationary" => (MacEngine.init py c graph).map fun e => .inputStationary ⟨e⟩
  | "fsa" => (MacEngine.init py c graph).map fun e => .fsa ⟨e⟩
  | _ =>
    .error (.raised (.configError ("Unknown engine type: " ++ reprStr engineType)
      "mac_engine.type"))

/-- The graph that is planned when none is given. -/
def emptyGraph : WorkloadGraph where
  nodes := []
  tensors := []
  nodeIds_nodup := List.nodup_nil
  tensorIds_nodup := List.nodup_nil
  producer_mem := List.forall_mem_nil _
  alias_mem := List.forall_mem_nil _

/-- Create the engine of a configuration. -/
def createEngine (py : Builtins) (c : HardwareConfig) (graph : WorkloadGraph) :
    Except Failure Engine :=
  createEngineByType py (c.mac.type.getD "block") c graph

end Engines

end NpuArc
