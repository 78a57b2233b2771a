import NpuArc.Workloads.Validate

/-!
# Lowering of ONNX models

Graph inputs and initializers become tensors first, then the inputs and outputs of each node in
turn. Producers and consumers are filled in by a later pass. The shape of a value comes from
its last entry among the inputs, outputs, value infos and initializers.
-/

namespace NpuArc

namespace Workloads

variable {F : Type}

/-! ### Models -/

/-- A dimension of an ONNX shape; an unset field has its default. -/
structure OnnxDim where
  dimParam : String := ""
  dimValue : ℤ := 0

/-- A named value with its declared shape. -/
structure ValueInfo where
  name : String
  shape : List OnnxDim := []

/-- A constant tensor. -/
structure Initializer where
  name : String
  dims : List ℤ := []

/-- The value of an attribute of a node. -/
inductive AttributeValue (F : Type)
  | int (i : ℤ)
  | ints (l : List ℤ)
  | float (x : F)
  | floats (l : List F)
  | string (s : ByteArray)
  | other

/-- An operator of an ONNX graph. -/
structure OnnxNode (F : Type) where
  name : String := ""
  opType : String
  input : List String := []
  output : List String := []
  attributes : List (String × AttributeValue F) := []

/-- An ONNX graph. -/
structure OnnxGraph (F : Type) where
  input : List ValueInfo := []
  output : List ValueInfo := []
  valueInfo : List ValueInfo := []
  initializer : List Initializer := []
  node : List (OnnxNode F) := []

/-- An ONNX model with the versions of its operator sets. -/
structure OnnxModel (F : Type) where
  opsetImport : List ℤ := []
  graph : OnnxGraph F

/-- A model after shape inference, which adds the given value infos. -/
def inferShapes (inferred : OnnxModel F → List ValueInfo) (model : OnnxModel F) : OnnxModel F :=
  { model with
    graph := { model.graph with valueInfo := model.graph.valueInfo ++ inferred model } }

/-- The inputs of a node that are present. -/
def OnnxNode.inputs (node : OnnxNode F) : List String := node.input.filter fun x => decide (x ≠ "")

/-- The outputs of a node that are present. -/
def OnnxNode.outputs (node : OnnxNode F) : List String :=
  node.output.filter fun x => decide (x ≠ "")

/-- The name of a node, which defaults to its operator and index. -/
def OnnxNode.nodeName (node : OnnxNode F) (idx : ℕ) : String :=
  if node.name ≠ "" then node.name else node.opType ++ "_" ++ toString idx

/-! ### Shapes and attributes -/

/-- A dimension, preserving a symbolic name; an unspecified one is `1`. -/
def OnnxDim.lower (d : OnnxDim) : Dim :=
  if d.dimParam ≠ "" then .symbolic d.dimParam
  else if d.dimValue ≠ 0 then .fixed d.dimValue
  else .fixed 1

/-- The shape of a list of dimensions, if there is any. -/
def nonemptyShape (dims : List Dim) : Option (List Dim) := if dims.isEmpty then none else some dims

/-- Extract the shape of a value info. -/
def getShape (v : ValueInfo) : Option (List Dim) := nonemptyShape (v.shape.map (·.lower))

/-- The shapes that a graph declares, in the order in which they are looked at. -/
def declaredShapes (g : OnnxGraph F) : List (String × Option (List Dim)) :=
  (g.input ++ g.output ++ g.valueInfo).map (fun v => (v.name, getShape v)) ++
    g.initializer.map fun init => (init.name, nonemptyShape (init.dims.map .fixed))

/-- Build the lookup from names to shapes. -/
def buildValueInfoMap (g : OnnxGraph F) : Dict String (Option (List Dim)) :=
  .ofList (declaredShapes g)

/-- The value of an attribute, if its type is known. -/
def AttributeValue.parse : AttributeValue F → Except Error (Option (PyData F))
  | .int i => .ok (some (.int i))
  | .ints l => .ok (some (.list (l.map .int)))
  | .float x => .ok (some (.float x))
  | .floats l => .ok (some (.list (l.map .float)))
  | .string s =>
    match String.fromUTF8? s with
    | some text => .ok (some (.str text))
    | none => .error (.valueError "'utf-8' codec can't decode bytes")
  | .other => .ok none

/-- Convert node attributes to a plain dictionary. -/
def parseAttrs (node : OnnxNode F) : Except Error (Dict String (PyData F)) :=
  node.attributes.foldlM
    (fun attrs e => do
      match ← e.2.parse with
      | some v => return attrs.insert e.1 v
      | none => return attrs)
    .empty

/-! ### Operators -/

/-- The workload operators of the ONNX operators. -/
def onnxToWorkloadOps : List (String × String) :=
  [("Conv", "conv"), ("Gemm", "gemm"), ("MatMul", "matmul"), ("Relu", "relu"), ("Add", "add"),
    ("Mul", "mul"), ("MaxPool", "max_pool"), ("GlobalAveragePool", "global_avg_pool"),
    ("ReduceMean", "reduce_mean"), ("Softmax", "softmax"), ("LayerNormalization", "layernorm"),
    ("RMSNorm", "rms_norm"), ("Gelu", "gelu"), ("HardSwish", "hard_swish"),
    ("HardSigmoid", "hard_sigmoid"), ("Reshape", "reshape"), ("Concat", "concat"),
    ("Shape", "shape"), ("Transpose", "transpose"), ("Squeeze", "reshape"),
    ("Unsqueeze", "reshape")]

def onnxToWorkloadOp : Dict String String := .ofList onnxToWorkloadOps

/-- The error of a node whose operator is unsupported; its text needs the first opset version. -/
def unsupportedNode (node : OnnxNode F) (model : OnnxModel F) (path what op : String) : Error :=
  match model.opsetImport with
  | [] => .indexError "list index (0) out of range"
  | version :: _ => .unsupportedOperatorError ("ONNX node " ++ reprStr node.name ++ what ++
      reprStr op ++ s!" (opset {version}, path " ++ reprStr path ++ ")") op
      (if node.name ≠ "" then node.name else "<" ++ node.opType ++ ">")

/-- Map an operator to a workload operator that the built-in registry supports. -/
def mapOnnxOpType (node : OnnxNode F) (model : OnnxModel F) (path : String) :
    Except Error String :=
  match onnxToWorkloadOp.get? node.opType with
  | none => .error (unsupportedNode node model path " uses unsupported operator " node.opType)
  | some workloadOp =>
    if OperatorRegistry.default.isUnsupported workloadOp then
      .error (unsupportedNode node model path " maps to unsupported operator " workloadOp)
    else .ok workloadOp

/-! ### Lowering -/

/-- A tensor for a value, with its shape in the lookup or else a single element. -/
def onnxTensor (shapeMap : Dict String (Option (List Dim))) (provenance : WorkloadProvenance)
    (name : String) (isInitializer : Bool) : TensorSpec where
  tensorId := name
  shape := ((shapeMap.get? name).join).getD [.fixed 1]
  precision := .fp16
  layout := .nchw
  producerNode := if isInitializer then "input" else ""
  provenance := some provenance

/-- Add a tensor for a value unless there is one. -/
def ensureTensor (shapeMap : Dict String (Option (List Dim))) (provenance : WorkloadProvenance)
    (tensors : Dict String TensorSpec) (value : String × Bool) :
    Except Error (Dict String TensorSpec) :=
  if tensors.contains value.1 then .ok tensors
  else do
    let tensor ← (onnxTensor shapeMap provenance value.1 value.2).validate
    return tensors.insert value.1 tensor

/-- Lower a node after its tensors. -/
def lowerOnnxNode (registry : OperatorRegistry) (model : OnnxModel F) (path : String)
    (shapeMap : Dict String (Option (List Dim))) (provenance : WorkloadProvenance)
    (s : Dict String TensorSpec × List (NodeSpec F)) (e : OnnxNode F × ℕ) :
    Except Error (Dict String TensorSpec × List (NodeSpec F)) := do
  let (node, idx) := e
  let nodeName := node.nodeName idx
  let workloadOp ← mapOnnxOpType node model path
  -- An entry that the registry returns is supported.
  let _ ← registry.lookup workloadOp
  let tensors ← ((node.inputs ++ node.outputs).map fun x => (x, false)).foldlM
    (ensureTensor shapeMap provenance) s.1
  let attributes ← parseAttrs node
  let spec ← NodeSpec.validate
    { nodeId := nodeName
      opType := workloadOp
      opLabel := node.opType ++ ":" ++ nodeName
      inputs := node.inputs
      outputs := node.outputs
      attributes := attributes
      provenance := some provenance }
  return (tensors, s.2 ++ [spec])

/-- Fill in a node as the producer of its outputs and a consumer of its inputs. -/
def resolveNode (tensors : Dict String TensorSpec) (node : NodeSpec F) : Dict String TensorSpec :=
  let produced := node.outputs.foldl
    (fun tensors out => tensors.modify out fun t => { t with producerNode := node.nodeId }) tensors
  node.inputs.foldl
    (fun tensors inp => tensors.modify inp fun t =>
      if node.nodeId ∈ t.consumedBy then t
      else { t with consumedBy := t.consumedBy ++ [node.nodeId] })
    produced

/-- The names of the symbolic dimensions of some tensors. -/
def symbolNames (tensors : List TensorSpec) : List String :=
  ((tensors.flatMap fun t => t.shape.filterMap fun
    | .symbolic name => some name
    | .fixed _ => none).dedup).insertionSort (· ≤ ·)

/-- Lower an in-memory ONNX model. -/
def lowerOnnxModelToGraph (so : SetOrder) (inferred : OnnxModel F → List ValueInfo)
    (model : OnnxModel F) (graphName : String) (registry : OperatorRegistry) (path : String) :
    Except Error (WorkloadGraphV1 F) := do
  let model := inferShapes inferred model
  let shapeMap := buildValueInfoMap model.graph
  let provenance : WorkloadProvenance :=
    { source := "onnx:" ++ graphName
      referenceUri := if path ≠ "<buffer>" then some path else none }
  let tensors ← (model.graph.input.map fun v => (v.name, false)).foldlM
    (ensureTensor shapeMap provenance) .empty
  let tensors ← (model.graph.initializer.map fun init => (init.name, true)).foldlM
    (ensureTensor shapeMap provenance) tensors
  let (tensors, nodes) ← model.graph.node.zipIdx.foldlM
    (lowerOnnxNode registry model path shapeMap provenance) (tensors, [])
  let tensors := nodes.foldl resolveNode tensors
  WorkloadGraphV1.validate so
    { graphName
      nodes := nodes
      tensors := tensors.values
      symbols := (symbolNames tensors.values).map fun name =>
        { name, description := "ONNX symbolic dimension" }
      provenance := some provenance }

end Workloads

end NpuArc
