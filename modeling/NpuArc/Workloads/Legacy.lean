import NpuArc.Workloads.Validate

/-!
# Lowering of legacy traces

A tuple trace of a language model and a dictionary trace of a vision model are lowered to
workload graphs. Each entry becomes a node that takes the output of the entry before it. The
legacy batch flag is merged into the dimension bindings.
-/

namespace NpuArc

namespace Workloads

variable {F : Type}

/-- Merge the legacy batch flag into explicit dimension bindings. -/
def applyLegacyBatchM (batchM : Option ℤ) (bindings : DimensionBindings) :
    Except Error DimensionBindings :=
  match batchM with
  | none => .ok bindings
  | some m =>
    if m ≠ 1 ∧ m ≠ 2 then
      .error (.configError s!"legacy --batch-m must be 1 or 2, got {m}" "batch_m")
    else
      let current := bindings.toDict
      if m = 1 then
        match (current.get? "active_sequences").filter fun v => decide (v ≠ 1) with
        | some v => .error (.configError
            s!"legacy --batch-m 1 conflicts with active_sequences={v}" "active_sequences")
        | none => { bindings.toBindingFields with activeSequences := some 1 }.validate
      else
        match (current.get? "token_block").filter fun v => decide (v ≠ 2) with
        | some v => .error (.configError
            s!"legacy --batch-m 2 conflicts with token_block={v}" "token_block")
        | none => { bindings.toBindingFields with tokenBlock := some 2 }.validate

/-- The nodes and tensors that the entries so far have been lowered to, and the output of the
last one. -/
structure Lowering (F : Type) where
  nodes : List (NodeSpec F) := []
  tensors : List TensorSpec := []
  prevOutput : Option String := none

/-- Add a node to the consumers of the tensors with an id. -/
def addConsumer (tensorId nodeId : String) (tensors : List TensorSpec) : List TensorSpec :=
  tensors.map fun t =>
    if t.tensorId = tensorId ∧ nodeId ∉ t.consumedBy then
      { t with consumedBy := t.consumedBy ++ [nodeId] }
    else t

/-! ### Tuple traces -/

/-- An entry of a tuple trace. -/
structure LlmEntry where
  m : ℤ
  k : ℤ
  n : ℤ
  layer : ℤ
  opName : String
  deriving Inhabited

/-- The id of the node of an entry. -/
def llmNodeId (entry : LlmEntry) (idx : ℕ) : String :=
  "n_" ++ entry.opName ++ "_" ++ toString idx

/-- The id of the node of the entry before an index. -/
def llmPrevNodeId (trace : List LlmEntry) (idx : ℕ) : String :=
  llmNodeId (trace.getD (idx - 1) default) (idx - 1)

/-- The activation of an entry. -/
def llmActivation (provenance : WorkloadProvenance) (entry : LlmEntry) (idx : ℕ)
    (producer : String) : TensorSpec where
  tensorId := "t_act_" ++ toString idx
  shape := [.fixed entry.m, .fixed entry.k]
  precision := .int8
  producerNode := producer
  consumedBy := [llmNodeId entry idx]
  provenance := some provenance

/-- The weight of an entry. -/
def llmWeight (provenance : WorkloadProvenance) (entry : LlmEntry) (idx : ℕ) : TensorSpec where
  tensorId := "t_weight_" ++ toString idx
  shape := [.fixed entry.k, .fixed entry.n]
  precision := .int4
  producerNode := "input"
  consumedBy := [llmNodeId entry idx]
  provenance := some provenance

/-- The output of an entry. -/
def llmOutput (provenance : WorkloadProvenance) (entry : LlmEntry) (idx : ℕ) : TensorSpec where
  tensorId := "t_out_" ++ toString idx
  shape := [.fixed entry.m, .fixed entry.n]
  precision := .int8
  producerNode := llmNodeId entry idx
  provenance := some provenance

/-- The node of an entry. -/
def llmNode (trace : List LlmEntry) (provenance : WorkloadProvenance) (entry : LlmEntry) (idx : ℕ)
    (actId : String) : NodeSpec F where
  nodeId := llmNodeId entry idx
  opType := "gemm"
  opLabel := entry.opName
  inputs := [actId, "t_weight_" ++ toString idx]
  outputs := ["t_out_" ++ toString idx]
  dependencies := if 0 < idx then [llmPrevNodeId trace idx] else []
  provenance := some provenance

/-- Lower one entry to a node in a linear chain, with its weight as a graph input. -/
def lowerLlmEntry (trace : List LlmEntry) (provenance : WorkloadProvenance) (s : Lowering F)
    (e : LlmEntry × ℕ) : Except Error (Lowering F) := do
  let (entry, idx) := e
  let act ← (llmActivation provenance entry idx
    (if s.prevOutput.isNone then "input" else llmPrevNodeId trace idx)).validate
  let weight ← (llmWeight provenance entry idx).validate
  let out ← (llmOutput provenance entry idx).validate
  let tensors := s.tensors ++ [act, weight, out]
  -- The output of the previous entry takes the place of the new activation.
  let (tensors, actId) := match s.prevOutput with
    | some prev =>
      (addConsumer prev (llmNodeId entry idx) (tensors.eraseIdx (tensors.length - 3)), prev)
    | none => (tensors, act.tensorId)
  let node ← (llmNode trace provenance entry idx actId).validate
  return { nodes := s.nodes ++ [node], tensors, prevOutput := some out.tensorId }

/-- Convert a legacy tuple trace into a workload graph. -/
def lowerLlmTupleTrace (so : SetOrder) (trace : List LlmEntry) (graphName : String)
    (batchM : Option ℤ) (bindings : Option DimensionBindings) :
    Except Error (WorkloadGraphV1 F × DimensionBindings) := do
  let effectiveBindings ← applyLegacyBatchM batchM (bindings.getD .unbound)
  let provenance : WorkloadProvenance := { source := "legacy:llm:" ++ graphName }
  let s ← trace.zipIdx.foldlM (lowerLlmEntry trace provenance) ({} : Lowering F)
  let graph ← WorkloadGraphV1.validate so
    { graphName, nodes := s.nodes, tensors := s.tensors, provenance := some provenance }
  return (graph, effectiveBindings)

/-! ### Dictionary traces -/

/-- The workload operators of the types of trace entries. -/
def cvTraceTypeMap : Dict String String :=
  .ofList
    [("pointwise_conv", "pointwise_conv"), ("depthwise_conv", "depthwise_conv"), ("gemm", "gemm"),
      ("hard_swish", "hard_swish"), ("hard_sigmoid", "hard_sigmoid"), ("relu", "relu"),
      ("global_avg_pool", "global_avg_pool"), ("add", "add"), ("mul", "mul"),
      ("reshape", "reshape"), ("shape", "shape"), ("concat", "concat"),
      ("reduce_mean", "reduce_mean")]

/-- An entry of a dictionary trace: the keys that the lowering reads, any of which may be
missing. -/
structure CvEntry (F : Type) where
  type : Option String := none
  name : Option String := none
  m : Option (PyData F) := none
  k : Option (PyData F) := none
  n : Option (PyData F) := none
  im2colOverheadCycles : Option (PyData F) := none
  sfuCycles : Option (PyData F) := none
  deriving Inhabited

namespace CvEntry

variable (entry : CvEntry F) (idx : ℕ)

/-- The type of an entry, empty if it has none. -/
def entryType : String := entry.type.getD ""

/-- The name of an entry in its own node, which defaults to its type and index. -/
def nodeName : String := entry.name.getD (entry.entryType ++ "_" ++ toString idx)

/-- The id of the node of an entry. -/
def nodeId : String := "n_" ++ entry.nodeName idx ++ "_" ++ toString idx

/-- The id under which the next entry depends on an entry, whose name defaults to another
string here. -/
def dependencyId : String :=
  "n_" ++ entry.name.getD ("op_" ++ toString idx) ++ "_" ++ toString idx

/-- The attributes of the node of an entry; `zero` is the float `0.0`. -/
def attributes (zero : F) : Dict String (PyData F) :=
  .ofList
    [("M", entry.m.getD (.int 0)), ("K", entry.k.getD (.int 0)), ("N", entry.n.getD (.int 0)),
      ("im2col_overhead_cycles", entry.im2colOverheadCycles.getD (.float zero)),
      ("sfu_cycles", entry.sfuCycles.getD (.int 0))]

end CvEntry

/-- The operators whose nodes get a weight tensor. -/
def weightedOps : List String := ["pointwise_conv", "depthwise_conv", "conv", "gemm"]

/-- The graph input of a trace. -/
def cvInput (provenance : WorkloadProvenance) (nodeId : String) : TensorSpec where
  tensorId := "t_input"
  shape := [.fixed 1, .fixed 3, .fixed 224, .fixed 224]
  precision := .int8
  layout := .nchw
  producerNode := "input"
  consumedBy := [nodeId]
  provenance := some provenance

/-- The weight of an entry. -/
def cvWeight (provenance : WorkloadProvenance) (nodeId : String) (idx : ℕ) : TensorSpec where
  tensorId := "t_weight_" ++ toString idx
  shape := [.fixed 1]
  precision := .int4
  producerNode := "input"
  consumedBy := [nodeId]
  provenance := some provenance

/-- The output of an entry. -/
def cvOutput (provenance : WorkloadProvenance) (nodeId : String) (idx : ℕ) : TensorSpec where
  tensorId := "t_out_" ++ toString idx
  shape := [.fixed 1]
  precision := .int8
  layout := .nchw
  producerNode := nodeId
  provenance := some provenance

/-- The node of an entry. -/
def cvNode (zero : F) (trace : List (CvEntry F)) (provenance : WorkloadProvenance)
    (entry : CvEntry F) (idx : ℕ) (workloadOp : String) (inputs : List String) : NodeSpec F where
  nodeId := entry.nodeId idx
  opType := workloadOp
  opLabel := entry.nodeName idx
  inputs := inputs
  outputs := ["t_out_" ++ toString idx]
  dependencies :=
    if 0 < idx then [(trace.getD (idx - 1) default).dependencyId (idx - 1)] else []
  attributes := entry.attributes zero
  provenance := some provenance

/-- The activation that a node takes: the previous output, or the graph input. -/
def cvActivation (provenance : WorkloadProvenance) (s : Lowering F) (nodeId : String) :
    Except Error (List TensorSpec × String) :=
  match s.prevOutput with
  | some prev => return (addConsumer prev nodeId s.tensors, prev)
  | none => do
    let act ← (cvInput provenance nodeId).validate
    return (s.tensors ++ [act], act.tensorId)

/-- The weight tensor of a conv or gemm layer. -/
def cvWeights (provenance : WorkloadProvenance) (workloadOp nodeId : String) (idx : ℕ) :
    Except Error (List TensorSpec) :=
  if workloadOp ∈ weightedOps then do
    let weight ← (cvWeight provenance nodeId idx).validate
    return [weight]
  else return []

/-- Lower one entry of a type that the registry supports. -/
def lowerCvEntry (registry : OperatorRegistry) (zero : F) (trace : List (CvEntry F))
    (provenance : WorkloadProvenance) (s : Lowering F) (e : CvEntry F × ℕ) :
    Except Error (Lowering F) := do
  let (entry, idx) := e
  match cvTraceTypeMap.get? entry.entryType with
  | none => throw (.unsupportedOperatorError ("legacy CV trace entry " ++
      reprStr (entry.nodeName idx) ++ " has unsupported type " ++ reprStr entry.entryType)
      entry.entryType (entry.nodeName idx))
  | some workloadOp =>
    let _ ← registry.lookup workloadOp
    let nodeId := entry.nodeId idx
    let (tensors, actId) ← cvActivation provenance s nodeId
    let weights ← cvWeights provenance workloadOp nodeId idx
    let out ← (cvOutput provenance nodeId idx).validate
    let node ← (cvNode zero trace provenance entry idx workloadOp
      (actId :: weights.map (·.tensorId))).validate
    return { nodes := s.nodes ++ [node], tensors := tensors ++ weights ++ [out],
             prevOutput := some out.tensorId }

/-- Bind an explicit image count unless the bindings have another one. -/
def bindImageCount (imageCount : Option ℤ) (bindings : DimensionBindings) :
    Except Error DimensionBindings :=
  match imageCount with
  | none => .ok bindings
  | some count =>
    match bindings.imageCount.filter fun v => decide (v ≠ count) with
    | some v => .error (.configError
        s!"image_count={count} conflicts with bindings.image_count={v}" "image_count")
    | none => { bindings.toBindingFields with imageCount := some count }.validate

/-- Convert a legacy dictionary trace into a workload graph. -/
def lowerCvDictTrace (so : SetOrder) (registry : OperatorRegistry) (zero : F)
    (trace : List (CvEntry F)) (graphName : String) (imageCount : Option ℤ)
    (bindings : Option DimensionBindings) :
    Except Error (WorkloadGraphV1 F × DimensionBindings) := do
  let bindings ← bindImageCount imageCount (bindings.getD .unbound)
  let provenance : WorkloadProvenance := { source := "legacy:cv:" ++ graphName }
  let s ← trace.zipIdx.foldlM (lowerCvEntry registry zero trace provenance) {}
  let graph ← WorkloadGraphV1.validate so
    { graphName, nodes := s.nodes, tensors := s.tensors, provenance := some provenance }
  return (graph, bindings)

end Workloads

end NpuArc
