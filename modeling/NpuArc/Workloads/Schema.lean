import NpuArc.Contracts.Canonical
import NpuArc.Library.Kahn
import NpuArc.Library.PyText
import NpuArc.Workloads.Graph

/-!
# The declarative workload graph schema

Tensors, nodes and graphs with all their fields, the checks of their construction, and the
topological order of the nodes. The edges of a graph come from the producers of tensors and
from the declared dependencies. A set of strings is iterated in an order that depends on the
hash seed of the process, which is a parameter here.
-/

namespace NpuArc

namespace Workloads

/-- Whether a string is empty up to white space. -/
def isBlank (s : String) : Bool := s.toList.all isSpace

/-- How the sets of strings are iterated that some elements have been added to. -/
structure SetOrder where
  iter : List String → List String
  nodup : ∀ l, (iter l).Nodup
  mem : ∀ l a, a ∈ iter l ↔ a ∈ l

/-! ### The records -/

/-- A single dimension of a shape: an integer or a named symbolic dimension. -/
inductive Dim
  | fixed (size : ℤ)
  | symbolic (name : String)
  deriving DecidableEq

/-- Tensor data layout. -/
inductive Layout
  | rowMajor
  | colMajor
  | nhwc
  | nchw
  | blocked
  deriving DecidableEq

/-- Audit trail for workload graph elements. -/
structure WorkloadProvenance where
  source : String
  referenceUri : Option String := none
  deriving DecidableEq

/-- A named symbolic axis for dimension binding. -/
structure SymbolicDim where
  name : String
  description : String := ""
  deriving DecidableEq

/-- Typed tensor descriptor with stable id, shape, and lifetime information. -/
structure TensorSpec where
  tensorId : String
  shape : List Dim
  precision : Precision := .fp16
  layout : Layout := .rowMajor
  bytes : ℤ := 0
  producerNode : String := ""
  consumedBy : List String := []
  aliasOf : Option String := none
  provenance : Option WorkloadProvenance := none
  deriving DecidableEq

/-- A single operation node. -/
structure NodeSpec (F : Type) where
  nodeId : String
  opType : String
  opLabel : String := ""
  inputs : List String := []
  outputs : List String := []
  dependencies : List String := []
  attributes : Dict String (PyData F) := .empty
  provenance : Option WorkloadProvenance := none

/-- Versioned workload graph. -/
structure WorkloadGraphV1 (F : Type) where
  version : String := "1"
  graphName : String := "unnamed"
  nodes : List (NodeSpec F) := []
  tensors : List TensorSpec := []
  symbols : List SymbolicDim := []
  constraints : Dict String (PyData F) := .empty
  provenance : Option WorkloadProvenance := none

variable {F : Type}

/-! ### Construction of tensors and nodes -/

/-- Validate a single shape element. -/
def validateShapeElement : Dim → Except Error Unit
  | .fixed n =>
    if n ≤ 0 then .error (.valueError s!"shape dimension must be positive, got {n}") else .ok ()
  | .symbolic name =>
    if isBlank name then .error (.valueError "symbolic dimension name must not be empty")
    else .ok ()

/-- A tensor that has passed the checks of its fields. -/
def TensorSpec.validate (t : TensorSpec) : Except Error TensorSpec := do
  if isBlank t.tensorId then throw (.valueError "tensor_id must not be empty")
  t.shape.forM validateShapeElement
  if t.bytes < 0 then throw (.valueError s!"bytes must be non-negative, got {t.bytes}")
  return t

/-- A node that has passed the checks of its fields. -/
def NodeSpec.validate (n : NodeSpec F) : Except Error (NodeSpec F) := do
  if isBlank n.nodeId then throw (.valueError "node_id must not be empty")
  if isBlank n.opType then throw (.valueError "op_type must not be empty")
  return n

theorem TensorSpec.validate_eq_ok {t t' : TensorSpec} : t.validate = .ok t' ↔
    t' = t ∧ isBlank t.tensorId = false ∧ (∀ d ∈ t.shape, validateShapeElement d = .ok ()) ∧
      0 ≤ t.bytes := by
  unfold TensorSpec.validate
  rw [← forM_eq_ok]
  cases hid : isBlank t.tensorId with
  | true =>
    refine iff_of_false (fun h => ?_) (by simp)
    cases h
  | false =>
    by_cases hbytes : t.bytes < 0
    · refine iff_of_false (fun h => ?_) (by omega)
      simp only [Bool.false_eq_true, if_false, if_pos hbytes] at h
      obtain ⟨_, -, h⟩ := bind_eq_ok.mp h
      cases h
    · simp only [Bool.false_eq_true, if_false, if_neg hbytes]
      refine bind_eq_ok.trans ⟨?_, ?_⟩
      · rintro ⟨_, hshape, h⟩
        cases h
        exact ⟨rfl, trivial, hshape, by omega⟩
      · rintro ⟨rfl, -, hshape, -⟩
        exact ⟨(), hshape, rfl⟩

theorem NodeSpec.validate_eq_ok {n n' : NodeSpec F} : n.validate = .ok n' ↔
    n' = n ∧ isBlank n.nodeId = false ∧ isBlank n.opType = false := by
  unfold NodeSpec.validate
  cases hid : isBlank n.nodeId with
  | true =>
    refine iff_of_false (fun h => ?_) (by simp)
    cases h
  | false =>
    cases hop : isBlank n.opType with
    | true =>
      refine iff_of_false (fun h => ?_) (by simp)
      cases h
    | false =>
      constructor
      · intro h
        cases h
        exact ⟨rfl, rfl, rfl⟩
      · rintro ⟨rfl, -, -⟩
        rfl

/-! ### Edges -/

/-- The adjacency sets and the in-degrees that are built from edges. -/
structure Links where
  inDegree : String → ℤ := fun _ => 0
  adj : String → List String := fun _ => []

/-- Add an edge unless it is there. -/
def Links.addEdge (s : Links) (e : String × String) : Links :=
  if e.2 ∈ s.adj e.1 then s
  else
    { inDegree := Function.update s.inDegree e.2 (s.inDegree e.2 + 1)
      adj := Function.update s.adj e.1 (s.adj e.1 ++ [e.2]) }

/-- The links of some edges. -/
def Links.ofEdges (edges : List (String × String)) : Links := edges.foldl Links.addEdge {}

namespace WorkloadGraphV1

/-- The ids of the nodes. -/
def nodeIds (g : WorkloadGraphV1 F) : List String := g.nodes.map (·.nodeId)

/-- The ids of the tensors. -/
def tensorIds (g : WorkloadGraphV1 F) : List String := g.tensors.map (·.tensorId)

/-- The producers of the tensors that have one; the graph input is none. -/
def producerMap (g : WorkloadGraphV1 F) : Dict String String :=
  g.tensors.foldl
    (fun map t =>
      if t.producerNode ≠ "" ∧ t.producerNode ≠ "input" then map.insert t.tensorId t.producerNode
      else map)
    .empty

/-- The edges into a node from the producers of its inputs. -/
def dataEdges (g : WorkloadGraphV1 F) (node : NodeSpec F) : List (String × String) :=
  node.inputs.filterMap fun inp =>
    (g.producerMap.get? inp).bind fun producer =>
      if producer ∈ g.nodeIds ∧ producer ≠ node.nodeId then some (producer, node.nodeId) else none

/-- The edges into a node from its declared dependencies. -/
def dependencyEdges (g : WorkloadGraphV1 F) (node : NodeSpec F) : List (String × String) :=
  node.dependencies.filterMap fun dep =>
    if dep ∈ g.nodeIds ∧ dep ≠ node.nodeId then some (dep, node.nodeId) else none

/-- A tensor that a node produces and consumes. -/
def selfLoop (g : WorkloadGraphV1 F) (node : NodeSpec F) : Option (String × String) :=
  (node.inputs.find? fun inp => decide (g.producerMap.get? inp = some node.nodeId)).map
    fun inp => (node.nodeId, inp)

/-- The start of the topological sort over some edges. -/
def sortStart (so : SetOrder) (g : WorkloadGraphV1 F) (edges : List (String × String)) :
    Kahn.State String :=
  let links := Links.ofEdges edges
  { degree := links.inDegree
    queue := (so.iter g.nodeIds).filter fun id => decide (links.inDegree id = 0) }

/-- The successors of a node in the order of their set. -/
def successors (so : SetOrder) (edges : List (String × String)) (id : String) : List String :=
  so.iter ((Links.ofEdges edges).adj id)

/-- The nodes in the order in which they leave the queue; each leaves it once. -/
def kahnOrder (so : SetOrder) (g : WorkloadGraphV1 F) (edges : List (String × String)) :
    List String :=
  Kahn.run (successors so edges) (so.iter g.nodeIds).length (sortStart so g edges)

/-! ### Integrity -/

/-- Reject an id that occurs before. -/
def checkDuplicates (what field : String) : List String → List String → Except Error Unit
  | _, [] => .ok ()
  | seen, id :: ids =>
    if id ∈ seen then .error (.configError (s!"duplicate {what}: " ++ reprStr id) field)
    else checkDuplicates what field (id :: seen) ids

/-- Verify that all node and tensor ids are unique. -/
def checkDuplicateIds (g : WorkloadGraphV1 F) : Except Error Unit := do
  checkDuplicates "node_id" "nodes" [] g.nodeIds
  checkDuplicates "tensor_id" "tensors" [] g.tensorIds

/-- Detect cycles in the dependency graph with a topological sort. -/
def checkDagCycles (so : SetOrder) (g : WorkloadGraphV1 F) : Except Error Unit :=
  if g.nodes.isEmpty then .ok ()
  else
    match g.nodes.findSome? g.selfLoop with
    | some (id, inp) =>
      .error (.configError ("graph contains a cycle: node " ++ reprStr id ++
        " produces and consumes tensor " ++ reprStr inp ++ " (self-loop)") "nodes")
    | none =>
      let edges := g.nodes.flatMap g.dataEdges ++ g.nodes.flatMap g.dependencyEdges
      if (g.kahnOrder so edges).length ≠ (so.iter g.nodeIds).length then
        let degree := Kahn.finalDegree (successors so edges) (so.iter g.nodeIds).length
          (g.sortStart so edges)
        let cycleNodes := (so.iter g.nodeIds).filter fun id => decide (0 < degree id)
        .error (.configError (s!"graph contains a cycle involving {cycleNodes.length} nodes (e.g. "
          ++ reprList ((cycleNodes.insertionSort (· ≤ ·)).take 5) ++ ")") "nodes")
      else .ok ()

/-- Verify that the ids of a list are known. -/
def checkKnown (known : List String) (error : String → Error) (ids : List String) :
    Except Error Unit :=
  ids.forM fun id => if id ∈ known then .ok () else .error (error id)

/-- Verify all tensor references in nodes and lifetimes. -/
def checkTensorReferences (g : WorkloadGraphV1 F) : Except Error Unit := do
  g.nodes.forM fun node => do
    checkKnown g.tensorIds
      (fun id => .configError ("node " ++ reprStr node.nodeId ++
        " references non-existent input tensor " ++ reprStr id)
        ("nodes." ++ node.nodeId ++ ".inputs")) node.inputs
    checkKnown g.tensorIds
      (fun id => .configError ("node " ++ reprStr node.nodeId ++
        " references non-existent output tensor " ++ reprStr id)
        ("nodes." ++ node.nodeId ++ ".outputs")) node.outputs
  g.tensors.forM fun tensor => do
    if tensor.producerNode ≠ "" ∧ tensor.producerNode ∉ "input" :: g.nodeIds then
      throw (.configError ("tensor " ++ reprStr tensor.tensorId ++
        " has non-existent producer_node " ++ reprStr tensor.producerNode)
        ("tensors." ++ tensor.tensorId ++ ".producer_node"))
    checkKnown ("input" :: g.nodeIds)
      (fun id => .configError ("tensor " ++ reprStr tensor.tensorId ++
        " has non-existent consumer " ++ reprStr id)
        ("tensors." ++ tensor.tensorId ++ ".consumed_by")) tensor.consumedBy

/-- Verify that an alias references another existing tensor. -/
def checkAliasValidity (g : WorkloadGraphV1 F) : Except Error Unit :=
  g.tensors.forM fun tensor =>
    match tensor.aliasOf with
    | none => .ok ()
    | some target =>
      if target = "" then .ok ()
      else if target ∉ g.tensorIds then
        .error (.configError ("tensor " ++ reprStr tensor.tensorId ++
          " aliases non-existent tensor " ++ reprStr target)
          ("tensors." ++ tensor.tensorId ++ ".alias_of"))
      else if target = tensor.tensorId then
        .error (.configError ("tensor " ++ reprStr tensor.tensorId ++ " cannot alias itself")
          ("tensors." ++ tensor.tensorId ++ ".alias_of"))
      else .ok ()

/-- Run full integrity validation. -/
def checkIntegrity (so : SetOrder) (g : WorkloadGraphV1 F) : Except Error Unit := do
  g.checkDuplicateIds
  g.checkDagCycles so
  g.checkTensorReferences
  g.checkAliasValidity

/-- A constructed graph; the error of a check is reported as a validation error, which is a
`ValueError`. -/
def validate (so : SetOrder) (g : WorkloadGraphV1 F) : Except Error (WorkloadGraphV1 F) := do
  if g.version ≠ "1" then
    throw (.valueError ("unsupported schema version: " ++ reprStr g.version ++ " (expected '1')"))
  match g.checkIntegrity so with
  | .ok () => return g
  | .error (.configError message _) => throw (.valueError message)
  | .error e => throw e

theorem validate_eq_ok {so : SetOrder} {g g' : WorkloadGraphV1 F} : g.validate so = .ok g' ↔
    g' = g ∧ g.version = "1" ∧ g.checkIntegrity so = .ok () := by
  unfold validate
  by_cases hversion : g.version = "1"
  · rw [if_neg (not_not_intro hversion)]
    cases hcheck : g.checkIntegrity so with
    | ok _ =>
      constructor
      · intro h
        cases h
        exact ⟨rfl, hversion, rfl⟩
      · rintro ⟨rfl, -, -⟩
        rfl
    | error e =>
      refine iff_of_false (fun h => ?_) (by simp)
      cases e <;> cases h
  · refine iff_of_false (fun h => ?_) fun h => hversion h.2.1
    rw [if_pos hversion] at h
    cases h

/-- Return node ids in topological order. -/
def topologicalOrder (so : SetOrder) (g : WorkloadGraphV1 F) : Except Error (List String) := do
  g.checkDagCycles so
  if g.nodes.isEmpty then return []
  return g.kahnOrder so (g.nodes.flatMap fun node => g.dataEdges node ++ g.dependencyEdges node)

end WorkloadGraphV1

end Workloads

end NpuArc
