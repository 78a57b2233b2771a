import NpuArc.Contracts.Errors
import Mathlib.Algebra.BigOperators.Group.List.Basic
import Mathlib.Data.List.Nodup
import Mathlib.Data.PNat.Basic

/-!
# The workload graph

Nodes and tensors of the declarative graph schema, with the fields that the memory
planner reads. A graph carries the integrity checks that its construction makes on
these fields, so that looking up the id of one of its tensors finds that tensor.
-/

namespace NpuArc

/-- Numeric precision of an element. -/
inductive Precision
  | fp32
  | fp16
  | bf16
  | int8
  | int4
  | int2
  | mixedInt8Int4
  | mixedInt8Int8
  deriving DecidableEq

/-- A dimension of a shape: a positive integer or a named symbolic dimension. -/
inductive ShapeElement
  | fixed (size : ℕ+)
  | symbolic (name : String)
  deriving DecidableEq

/-- A tensor descriptor. `bytes` is `0` when the size is not yet computed from the
shape; the producer is `"input"` for a graph input and empty if there is none. -/
structure TensorSpec where
  tensorId : String
  shape : List ShapeElement
  precision : Precision := .fp16
  bytes : ℕ := 0
  producerNode : String := ""
  aliasOf : Option String := none
  deriving DecidableEq

/-- An operation node. -/
structure NodeSpec where
  nodeId : String
  opType : String
  deriving DecidableEq

/-- A workload graph that has passed its integrity checks. -/
structure WorkloadGraph where
  nodes : List NodeSpec := []
  tensors : List TensorSpec := []
  nodeIds_nodup : (nodes.map (·.nodeId)).Nodup
  tensorIds_nodup : (tensors.map (·.tensorId)).Nodup
  /-- A named producer is a node of the graph or the graph input. -/
  producer_mem : ∀ t ∈ tensors, t.producerNode = "" ∨ t.producerNode = "input" ∨
    t.producerNode ∈ nodes.map (·.nodeId)
  /-- A named alias is another tensor of the graph. -/
  alias_mem : ∀ t ∈ tensors, ∀ a, t.aliasOf = some a → a ≠ "" →
    a ∈ tensors.map (·.tensorId) ∧ a ≠ t.tensorId

namespace WorkloadGraph

/-- Look up a node by id. -/
def getNode (graph : WorkloadGraph) (nodeId : String) : Option NodeSpec :=
  graph.nodes.find? fun node => decide (node.nodeId = nodeId)

/-- Look up a tensor by id. -/
def getTensor (graph : WorkloadGraph) (tensorId : String) : Option TensorSpec :=
  graph.tensors.find? fun tensor => decide (tensor.tensorId = tensorId)

/-- Looking up the id of a tensor of the graph finds the tensor. -/
theorem getTensor_of_mem {graph : WorkloadGraph} {tensor : TensorSpec}
    (hmem : tensor ∈ graph.tensors) : graph.getTensor tensor.tensorId = some tensor := by
  cases hfind : graph.getTensor tensor.tensorId with
  | none =>
    have hnone := List.find?_eq_none.mp hfind tensor hmem
    simp at hnone
  | some other =>
    have hid : other.tensorId = tensor.tensorId := by
      simpa using List.find?_some hfind
    have hother : other ∈ graph.tensors := List.mem_of_find?_eq_some hfind
    rw [List.inj_on_of_nodup_map graph.tensorIds_nodup hother hmem hid]

theorem getTensor_eq_some {graph : WorkloadGraph} {tensorId : String} {tensor : TensorSpec} :
    graph.getTensor tensorId = some tensor ↔
      tensor ∈ graph.tensors ∧ tensor.tensorId = tensorId := by
  constructor
  · intro h
    exact ⟨List.mem_of_find?_eq_some h, by simpa using List.find?_some h⟩
  · rintro ⟨hmem, rfl⟩
    exact getTensor_of_mem hmem

end WorkloadGraph

end NpuArc
