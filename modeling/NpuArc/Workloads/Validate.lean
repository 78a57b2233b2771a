import NpuArc.Workloads.Dimensions

/-!
# Pre-lowering validation

The validators that run on a workload graph before execution: structure, dimensions,
operators, and the lifetimes of tensors. An operator that is not in the registry is
unsupported.
-/

namespace NpuArc

namespace Workloads

variable {F : Type}

/-! ### The operator registry -/

/-- What the simulator knows about an operator type. -/
inductive OperatorDisposition
  | modeled
  | explicitlyFreeOrFused
  | unsupported
  deriving DecidableEq

/-- A single registry entry for an operator type. -/
structure OperatorEntry where
  opType : String
  disposition : OperatorDisposition
  deriving DecidableEq

/-- The operators with a cost model. -/
def modeledOps : List String :=
  ["gemm", "pointwise_conv", "depthwise_conv", "softmax", "layernorm", "rms_norm", "gelu", "relu",
    "hard_swish", "hard_sigmoid", "global_avg_pool", "max_pool", "add", "mul", "matmul", "conv"]

/-- The operators that are free because they are fused into another one. -/
def freeFusedOps : List String := ["reshape", "reduce_mean", "shape", "concat", "transpose"]

/-- The operators that must fail. -/
def unsupportedOps : List String :=
  ["gather", "scatter", "instance_norm", "group_norm", "batch_norm", "upsample"]

/-- Fail-closed operator registry. -/
structure OperatorRegistry where
  entries : Dict String OperatorEntry

namespace OperatorRegistry

/-- The registry with all built-in entries. -/
def default : OperatorRegistry where
  entries := .ofList
    ((modeledOps.map fun op => (op, ⟨op, .modeled⟩)) ++
      (freeFusedOps.map fun op => (op, ⟨op, .explicitlyFreeOrFused⟩)) ++
      (unsupportedOps.map fun op => (op, ⟨op, .unsupported⟩)))

/-- The disposition of an operator type. -/
def check (r : OperatorRegistry) (opType : String) : OperatorDisposition :=
  (r.entries.get? opType).elim .unsupported (·.disposition)

/-- The entry of an operator type that is supported. -/
def lookup (r : OperatorRegistry) (opType : String) : Except Error OperatorEntry :=
  let entry := (r.entries.get? opType).getD ⟨opType, .unsupported⟩
  if entry.disposition = .unsupported then
    .error (.unsupportedOperatorError ("operator " ++ reprStr opType ++ " is not supported")
      opType "")
  else .ok entry

theorem check_gemm : default.check "gemm" = .modeled := by decide +kernel

theorem lookup_relu : default.lookup "relu" = .ok ⟨"relu", .modeled⟩ := by
  have hentry : default.entries.get? "relu" = some ⟨"relu", .modeled⟩ := by decide +kernel
  rw [lookup, hentry]
  rfl

/-- Whether an operator is unsupported or unregistered. -/
def isUnsupported (r : OperatorRegistry) (opType : String) : Bool :=
  decide (r.check opType = .unsupported)

end OperatorRegistry

/-! ### The validators -/

namespace WorkloadGraphV1

/-- Verify the graph is a valid DAG with unique ids and consistent references. -/
def validateGraphDag (so : SetOrder) (g : WorkloadGraphV1 F) : Except Error Unit := do
  g.checkDuplicateIds
  g.checkDagCycles so
  g.checkTensorReferences
  g.checkAliasValidity

/-- Verify every operator type is registered and supported. -/
def validateOperators (g : WorkloadGraphV1 F) (registry : OperatorRegistry) :
    Except Error Unit :=
  g.nodes.forM fun node =>
    if registry.check node.opType = .unsupported then
      .error (.unsupportedOperatorError ("node " ++ reprStr node.nodeId ++
        " uses unsupported operator " ++ reprStr node.opType) node.opType node.nodeId)
    else .ok ()

/-- The producers of the tensors that have one, the graph input among them. -/
def lifetimeProducers (g : WorkloadGraphV1 F) : Dict String String :=
  g.tensors.foldl
    (fun map t => if t.producerNode ≠ "" then map.insert t.tensorId t.producerNode else map) .empty

/-- Verify that an output of a node is a known tensor that no other node produces. -/
def checkOutput (g : WorkloadGraphV1 F) (node : NodeSpec F) (out : String) : Except Error Unit :=
  if out ∉ g.tensorIds then
    .error (.configError ("node " ++ reprStr node.nodeId ++ " output " ++ reprStr out ++
      " is not a known tensor") ("nodes." ++ node.nodeId))
  else
    match g.lifetimeProducers.get? out with
    | some producer =>
      if producer ≠ "" ∧ producer ≠ node.nodeId then
        .error (.configError ("tensor " ++ reprStr out ++ " is listed as output of node " ++
          reprStr node.nodeId ++ " but producer_node is " ++ reprStr producer)
          ("nodes." ++ node.nodeId))
      else .ok ()
    | none => .ok ()

/-- Verify tensor lifetime declarations are internally consistent. -/
def validateTensorLifetime (g : WorkloadGraphV1 F) : Except Error Unit := do
  g.tensors.forM fun tensor => do
    if tensor.producerNode ≠ "" ∧ tensor.producerNode ∉ "input" :: g.nodeIds then
      throw (.configError ("tensor " ++ reprStr tensor.tensorId ++ " has unknown producer " ++
        reprStr tensor.producerNode) ("tensors." ++ tensor.tensorId))
    checkKnown ("input" :: g.nodeIds)
      (fun id => .configError ("tensor " ++ reprStr tensor.tensorId ++
        " has unknown consumer " ++ reprStr id) ("tensors." ++ tensor.tensorId)) tensor.consumedBy
  g.nodes.forM fun node => do
    checkKnown g.tensorIds
      (fun id => .configError ("node " ++ reprStr node.nodeId ++ " input " ++ reprStr id ++
        " is not a known tensor") ("nodes." ++ node.nodeId)) node.inputs
    node.outputs.forM (g.checkOutput node)
  g.nodes.forM fun node => node.outputs.forM fun out =>
    if out ∈ node.inputs then
      .error (.configError ("node " ++ reprStr node.nodeId ++ " has self-loop on tensor " ++
        reprStr out ++ " (tensor appears in both inputs and outputs)") ("nodes." ++ node.nodeId))
    else .ok ()

/-- Run all validation gates on a workload graph before execution. -/
def validateAll (so : SetOrder) (g : WorkloadGraphV1 F) (bindings : DimensionBindings)
    (registry : OperatorRegistry) : Except Error Unit := do
  g.validateGraphDag so
  g.validateDimensions bindings
  g.validateOperators registry
  g.validateTensorLifetime

end WorkloadGraphV1

end Workloads

end NpuArc
