import NpuArc.Contracts.ReadBack
import NpuArc.Workloads.TopologicalOrder

/-!
# Graphs as JSON

A graph is dumped to a mapping, written in canonical form, and read back with the checks of
its construction. The canonical form is meant for hashing, so it keeps of the free-form values
of a graph, the attributes of its nodes and its constraints, only what it keeps of any value.
The dump turns tuples and integer keys into lists and strings already; the canonical form does
the same, so the values are left to it.
-/

namespace NpuArc

namespace Workloads

variable {F : Type}

open PyData

/-! ### Dumping -/

def Dim.data : Dim → PyData F
  | .fixed size => .int size
  | .symbolic name => .str name

def precisionValue : Precision → String
  | .fp32 => "fp32"
  | .fp16 => "fp16"
  | .bf16 => "bf16"
  | .int8 => "int8"
  | .int4 => "int4"
  | .int2 => "int2"
  | .mixedInt8Int4 => "int8_int4"
  | .mixedInt8Int8 => "int8_int8"

def Layout.value : Layout → String
  | .rowMajor => "row_major"
  | .colMajor => "col_major"
  | .nhwc => "nhwc"
  | .nchw => "nchw"
  | .blocked => "blocked"

def WorkloadProvenance.fields (p : WorkloadProvenance) : List (String × PyData F) :=
  [("source", .str p.source), ("reference_uri", optionalData p.referenceUri)]

def provenanceData (p : Option WorkloadProvenance) : PyData F :=
  (p.map fun p => record p.fields).getD .null

def SymbolicDim.fields (d : SymbolicDim) : List (String × PyData F) :=
  [("name", .str d.name), ("description", .str d.description)]

def TensorSpec.fields (t : TensorSpec) : List (String × PyData F) :=
  [("tensor_id", .str t.tensorId), ("shape", .list (t.shape.map Dim.data)),
    ("precision", .str (precisionValue t.precision)), ("layout", .str t.layout.value),
    ("bytes", .int t.bytes), ("producer_node", .str t.producerNode),
    ("consumed_by", stringsData t.consumedBy), ("alias_of", optionalData t.aliasOf),
    ("provenance", provenanceData t.provenance)]

def NodeSpec.fields (n : NodeSpec F) : List (String × PyData F) :=
  [("node_id", .str n.nodeId), ("op_type", .str n.opType), ("op_label", .str n.opLabel),
    ("inputs", stringsData n.inputs), ("outputs", stringsData n.outputs),
    ("dependencies", stringsData n.dependencies), ("attributes", ofMembers n.attributes),
    ("provenance", provenanceData n.provenance)]

def WorkloadGraphV1.fields (g : WorkloadGraphV1 F) : List (String × PyData F) :=
  [("version", .str g.version), ("graph_name", .str g.graphName),
    ("nodes", .list (g.nodes.map fun n => record n.fields)),
    ("tensors", .list (g.tensors.map fun t => record t.fields)),
    ("symbols", .list (g.symbols.map fun d => record d.fields)),
    ("constraints", ofMembers g.constraints), ("provenance", provenanceData g.provenance)]

/-- Convert a workload graph to a plain mapping. -/
def graphToDict (g : WorkloadGraphV1 F) : PyData F := record g.fields

/-- The canonical JSON string of a graph. -/
def graphToJson (floatRepr : F → String) (g : WorkloadGraphV1 F) : Except Error String :=
  canonicalJsonBytes floatRepr (graphToDict g)

/-! ### Reading -/

def provenanceFields : List String := ["source", "reference_uri"]

def symbolFields : List String := ["name", "description"]

def tensorFields : List String :=
  ["tensor_id", "shape", "precision", "layout", "bytes", "producer_node",
    "consumed_by", "alias_of", "provenance"]

def nodeFields : List String :=
  ["node_id", "op_type", "op_label", "inputs", "outputs", "dependencies",
    "attributes", "provenance"]

def graphFields : List String :=
  ["version", "graph_name", "nodes", "tensors", "symbols", "constraints",
    "provenance"]

def asStr : PyData F → Option String
  | .str s => some s
  | _ => none

def asInt : PyData F → Option ℤ
  | .int n => some n
  | _ => none

def asList {α : Type} (read : PyData F → Option α) : PyData F → Option (List α)
  | .list l => l.mapM read
  | _ => none

def asOptional {α : Type} (read : PyData F → Option α) : PyData F → Option (Option α)
  | .null => some none
  | a => (read a).map some

def asMember (e : DictKey × PyData F) : Option (String × PyData F) :=
  match e.1 with
  | .str s => some (s, e.2)
  | .int _ => none

/-- A mapping whose keys are strings. -/
def asMembers : PyData F → Option (Dict String (PyData F))
  | .dict l => (l.mapM asMember).map Dict.ofList
  | _ => none

/-- The fields of a mapping, which has none besides the declared ones. -/
def fieldsOf (names : List String) (a : PyData F) : Option (Dict String (PyData F)) :=
  (asMembers a).filter fun d => d.keys.all fun k => decide (k ∈ names)

/-- Read a required field. -/
def field {α : Type} (d : Dict String (PyData F)) (name : String)
    (read : PyData F → Option α) : Option α :=
  (d.get? name).bind read

/-- Read a field that has a default. -/
def fieldOr {α : Type} (d : Dict String (PyData F)) (name : String)
    (read : PyData F → Option α) (default : α) : Option α :=
  match d.get? name with
  | some a => read a
  | none => some default

def dimOf : PyData F → Option Dim
  | .int size => some (.fixed size)
  | .str name => some (.symbolic name)
  | _ => none

def precisionOf (a : PyData F) : Option Precision :=
  (asStr a).bind fun s =>
    [Precision.fp32, .fp16, .bf16, .int8, .int4, .int2, .mixedInt8Int4, .mixedInt8Int8].find?
      fun p => decide (precisionValue p = s)

def layoutOf (a : PyData F) : Option Layout :=
  (asStr a).bind fun s =>
    [Layout.rowMajor, .colMajor, .nhwc, .nchw, .blocked].find? fun l => decide (l.value = s)

def provenanceOf (a : PyData F) : Option WorkloadProvenance := do
  let d ← fieldsOf provenanceFields a
  let source ← field d "source" asStr
  let referenceUri ← fieldOr d "reference_uri" (asOptional asStr) none
  return { source, referenceUri }

def symbolOf (a : PyData F) : Option SymbolicDim := do
  let d ← fieldsOf symbolFields a
  let name ← field d "name" asStr
  let description ← fieldOr d "description" asStr ""
  return { name, description }

def tensorOf (a : PyData F) : Option TensorSpec := do
  let d ← fieldsOf tensorFields a
  let tensorId ← field d "tensor_id" asStr
  let shape ← field d "shape" (asList dimOf)
  let precision ← fieldOr d "precision" precisionOf .fp16
  let layout ← fieldOr d "layout" layoutOf .rowMajor
  let bytes ← fieldOr d "bytes" asInt 0
  let producerNode ← fieldOr d "producer_node" asStr ""
  let consumedBy ← fieldOr d "consumed_by" (asList asStr) []
  let aliasOf ← fieldOr d "alias_of" (asOptional asStr) none
  let provenance ← fieldOr d "provenance" (asOptional provenanceOf) none
  some
    { tensorId, shape, precision, layout, bytes, producerNode, consumedBy, aliasOf, provenance }

def nodeOf (a : PyData F) : Option (NodeSpec F) := do
  let d ← fieldsOf nodeFields a
  let nodeId ← field d "node_id" asStr
  let opType ← field d "op_type" asStr
  let opLabel ← fieldOr d "op_label" asStr ""
  let inputs ← fieldOr d "inputs" (asList asStr) []
  let outputs ← fieldOr d "outputs" (asList asStr) []
  let dependencies ← fieldOr d "dependencies" (asList asStr) []
  let attributes ← fieldOr d "attributes" asMembers .empty
  let provenance ← fieldOr d "provenance" (asOptional provenanceOf) none
  return { nodeId, opType, opLabel, inputs, outputs, dependencies, attributes, provenance }

def graphOf (a : PyData F) : Option (WorkloadGraphV1 F) := do
  let d ← fieldsOf graphFields a
  let version ← fieldOr d "version" asStr "1"
  let graphName ← fieldOr d "graph_name" asStr "unnamed"
  let nodes ← fieldOr d "nodes" (asList nodeOf) []
  let tensors ← fieldOr d "tensors" (asList tensorOf) []
  let symbols ← fieldOr d "symbols" (asList symbolOf) []
  let constraints ← fieldOr d "constraints" asMembers .empty
  let provenance ← fieldOr d "provenance" (asOptional provenanceOf) none
  return { version, graphName, nodes, tensors, symbols, constraints, provenance }

/-- A graph that has passed all checks of its construction. -/
def WorkloadGraphV1.construct (so : SetOrder) (g : WorkloadGraphV1 F) :
    Except Error (WorkloadGraphV1 F) := do
  let nodes ← g.nodes.mapM NodeSpec.validate
  let tensors ← g.tensors.mapM TensorSpec.validate
  WorkloadGraphV1.validate so { g with nodes, tensors }

/-- Deserialize canonical JSON back into a validated graph. -/
def jsonToGraph (so : SetOrder) (float : String → F) (text : String) :
    Except Error (WorkloadGraphV1 F) := do
  let a ← jsonLoads float text
  let g ← (graphOf a).elim (.error (.valueError "validation error")) .ok
  g.construct so

/-! ### What comes back -/

section ReadBack

variable (float : String → F) (floatRepr : F → String)

theorem mapM_asMember (l : List (String × PyData F)) :
    (l.map fun e => (DictKey.str e.1, e.2)).mapM asMember = some l := by
  induction l with
  | nil => rfl
  | cons e l ih =>
    rw [List.map_cons, List.mapM_cons, ih]
    rfl

theorem asMembers_ofMembers (d : Dict String (PyData F)) : asMembers (ofMembers d) = some d := by
  have hext : ∀ d' : Dict String (PyData F), d'.entries = d.entries → d' = d := by
    rintro ⟨l, hl⟩ heq
    cases d
    dsimp only at heq
    subst heq
    rfl
  have hdict : Dict.ofList d.entries = d := hext _ (Dict.entries_ofList d.nodup)
  rw [ofMembers, asMembers, mapM_asMember, Option.map_some, hdict]

theorem readBack_ofMembers (d : Dict String (PyData F)) :
    readBack float floatRepr (ofMembers d) = ofMembers (membersBack float floatRepr
      (d.entries.map fun e => (.str e.1, e.2))) := by
  rw [ofMembers, readBack_dict]

/-- The fields of a record come back under their names. -/
theorem fieldsOf_readBack (l : List (String × PyData F)) (names : List String)
    (hnames : l.map Prod.fst = names) (hnodup : names.Nodup) :
    ∃ d, fieldsOf names (readBack float floatRepr (record l)) = some d ∧
      ∀ k, d.get? k = (l.lookup k).map (readBack float floatRepr) := by
  subst hnames
  have hget := get?_membersBack_record float floatRepr hnodup
  refine ⟨_, ?_, hget⟩
  rw [record, readBack_dict, fieldsOf, asMembers_ofMembers, Option.filter_some, if_pos]
  rw [List.all_eq_true]
  intro k hk
  obtain ⟨a, ha⟩ := Dict.mem_keys.mp hk
  rw [hget] at ha
  obtain ⟨b, hb, -⟩ := Option.map_eq_some_iff.mp ha
  obtain ⟨l₁, l₂, rfl, -⟩ := List.lookup_eq_some_iff.mp hb
  simp

/-- Elements that are read back make up a list that is read back. -/
theorem asList_readBack {α β : Type} {data : α → PyData F} {read : PyData F → Option β}
    {f : α → β} (h : ∀ x, read (readBack float floatRepr (data x)) = some (f x)) (l : List α) :
    asList read (readBack float floatRepr (.list (l.map data))) = some (l.map f) := by
  rw [readBack_list, asList]
  induction l with
  | nil => rfl
  | cons x l ih =>
    rw [List.map_cons, List.map_cons, List.mapM_cons, h x, ih]
    rfl

theorem asStrings_readBack (l : List String) :
    asList asStr (readBack float floatRepr (stringsData l)) = some l := by
  have hstr : ∀ s, asStr (readBack float floatRepr (.str s)) = some (id s) := fun s => by
    rw [readBack_str, asStr, id]
  have h := asList_readBack float floatRepr hstr l
  rwa [List.map_id] at h

theorem asOptional_readBack (o : Option String) :
    asOptional asStr (readBack float floatRepr (optionalData o)) = some o := by
  cases o with
  | none => rw [optionalData, Option.map_none, Option.getD_none, readBack_null, asOptional]
  | some s => rw [optionalData, Option.map_some, Option.getD_some, readBack_str]; rfl

theorem provenanceOf_readBack (p : WorkloadProvenance) :
    provenanceOf (readBack float floatRepr (record p.fields)) = some p := by
  obtain ⟨d, hd, hget⟩ := fieldsOf_readBack float floatRepr p.fields
    provenanceFields rfl (by decide)
  unfold provenanceOf
  rw [hd]
  simp [field, fieldOr, hget, WorkloadProvenance.fields, List.lookup_cons, asStr, asOptional_readBack]

theorem asProvenance_readBack (p : Option WorkloadProvenance) :
    asOptional provenanceOf (readBack float floatRepr (provenanceData p)) = some p := by
  cases p with
  | none => rw [provenanceData, Option.map_none, Option.getD_none, readBack_null, asOptional]
  | some p =>
    have hread := provenanceOf_readBack float floatRepr p
    rw [record, readBack_dict, ofMembers] at hread
    rw [provenanceData, Option.map_some, Option.getD_some, record, readBack_dict, ofMembers]
    simp only [asOptional, hread, Option.map_some]

theorem symbolOf_readBack (s : SymbolicDim) :
    symbolOf (readBack float floatRepr (record s.fields)) = some (id s) := by
  obtain ⟨d, hd, hget⟩ := fieldsOf_readBack float floatRepr s.fields
    symbolFields rfl (by decide)
  unfold symbolOf
  rw [hd]
  simp [field, fieldOr, hget, SymbolicDim.fields, List.lookup_cons, asStr]

theorem dimOf_readBack (d : Dim) : dimOf (readBack float floatRepr d.data) = some (id d) := by
  cases d with
  | fixed n => rw [Dim.data, readBack_int, dimOf, id]
  | symbolic s => rw [Dim.data, readBack_str, dimOf, id]

theorem precisionOf_value (p : Precision) :
    precisionOf (F := F) (.str (precisionValue p)) = some p := by
  cases p <;> rfl

theorem layoutOf_value (l : Layout) : layoutOf (F := F) (.str l.value) = some l := by
  cases l <;> rfl

/-- A tensor comes back as it was. -/
theorem tensorOf_readBack (t : TensorSpec) :
    tensorOf (readBack float floatRepr (record t.fields)) = some (id t) := by
  obtain ⟨d, hd, hget⟩ := fieldsOf_readBack float floatRepr t.fields
    tensorFields rfl (by decide)
  have hshape := asList_readBack float floatRepr (dimOf_readBack float floatRepr) t.shape
  rw [List.map_id] at hshape
  unfold tensorOf
  rw [hd]
  simp [field, fieldOr, hget, TensorSpec.fields, List.lookup_cons, asStr, asInt, hshape,
    asStrings_readBack, asOptional_readBack, asProvenance_readBack, precisionOf_value,
    layoutOf_value]

/-- A node whose free-form attributes have come back. -/
def NodeSpec.back (float : String → F) (floatRepr : F → String) (n : NodeSpec F) : NodeSpec F :=
  { n with
    attributes := membersBack float floatRepr
      (n.attributes.entries.map fun e => (.str e.1, e.2)) }

theorem nodeOf_readBack (n : NodeSpec F) :
    nodeOf (readBack float floatRepr (record n.fields)) = some (n.back float floatRepr) := by
  obtain ⟨d, hd, hget⟩ := fieldsOf_readBack float floatRepr n.fields
    nodeFields rfl (by decide)
  unfold nodeOf
  rw [hd]
  simp [field, fieldOr, hget, NodeSpec.fields, List.lookup_cons, asStr, asStrings_readBack,
    asProvenance_readBack, readBack_ofMembers, asMembers_ofMembers, NodeSpec.back]

/-- A graph whose free-form values have come back. -/
def WorkloadGraphV1.back (float : String → F) (floatRepr : F → String)
    (g : WorkloadGraphV1 F) : WorkloadGraphV1 F :=
  { g with
    nodes := g.nodes.map (NodeSpec.back float floatRepr)
    constraints := membersBack float floatRepr
      (g.constraints.entries.map fun e => (.str e.1, e.2)) }

theorem graphOf_readBack (g : WorkloadGraphV1 F) :
    graphOf (readBack float floatRepr (graphToDict g)) = some (g.back float floatRepr) := by
  obtain ⟨d, hd, hget⟩ := fieldsOf_readBack float floatRepr g.fields
    graphFields rfl (by decide)
  have hnodes := asList_readBack float floatRepr (nodeOf_readBack float floatRepr) g.nodes
  have htensors := asList_readBack float floatRepr (tensorOf_readBack float floatRepr) g.tensors
  have hsymbols := asList_readBack float floatRepr (symbolOf_readBack float floatRepr) g.symbols
  rw [List.map_id] at htensors hsymbols
  unfold graphOf graphToDict
  rw [hd]
  simp [fieldOr, hget, WorkloadGraphV1.fields, List.lookup_cons, asStr, hnodes, htensors, hsymbols,
    asProvenance_readBack, readBack_ofMembers, asMembers_ofMembers, WorkloadGraphV1.back]

end ReadBack

/-! ### The round trip -/

/-- Two nodes that are equal up to the order of the keys of their attributes. -/
structure NodeSpec.Same (n' n : NodeSpec F) : Prop where
  fields : { n' with attributes := n.attributes } = n
  attributes : (ofMembers n'.attributes).Same (ofMembers n.attributes)

/-- Two graphs that are equal up to the order of keys. -/
structure WorkloadGraphV1.Same (g' g : WorkloadGraphV1 F) : Prop where
  fields : { g' with nodes := g.nodes, constraints := g.constraints } = g
  nodes : List.Forall₂ NodeSpec.Same g'.nodes g.nodes
  constraints : (ofMembers g'.constraints).Same (ofMembers g.constraints)

/-- The free-form values of a graph are values of Python. -/
structure WorkloadGraphV1.Proper (g : WorkloadGraphV1 F) : Prop where
  attributes : ∀ n ∈ g.nodes, (ofMembers n.attributes).Proper
  constraints : (ofMembers g.constraints).Proper

/-- The free-form values of a graph hold no float, no tuple and no integer key. -/
structure WorkloadGraphV1.Plain (g : WorkloadGraphV1 F) : Prop where
  attributes : ∀ n ∈ g.nodes, (ofMembers n.attributes).Plain
  constraints : (ofMembers g.constraints).Plain

/-- The JSON string of a graph is read back as an equal graph. -/
def RoundTrips (so : SetOrder) (float : String → F) (floatRepr : F → String)
    (g : WorkloadGraphV1 F) : Prop :=
  ∃ text g', graphToJson floatRepr g = .ok text ∧ jsonToGraph so float text = .ok g' ∧ g'.Same g

section RoundTrip

variable {float : String → F} {floatRepr : F → String} {g : WorkloadGraphV1 F}

theorem mapM_validate {α : Type} {validate : α → Except Error α}
    (h : ∀ {x y}, validate x = .ok y → y = x) {l l' : List α} :
    l.mapM validate = .ok l' ↔ l' = l ∧ ∀ x ∈ l, validate x = .ok x := by
  rw [mapM_eq_ok]
  constructor
  · intro hl
    induction hl with
    | nil => exact ⟨rfl, by simp⟩
    | cons hx _ ih =>
      obtain rfl := h hx
      obtain ⟨rfl, hrest⟩ := ih
      exact ⟨rfl, List.forall_mem_cons.mpr ⟨hx, hrest⟩⟩
  · rintro ⟨rfl, hl⟩
    exact List.forall₂_same.mpr hl

theorem construct_eq_ok {so : SetOrder} {g' : WorkloadGraphV1 F} : g.construct so = .ok g' ↔
    g' = g ∧ (∀ n ∈ g.nodes, n.validate = .ok n) ∧ (∀ t ∈ g.tensors, t.validate = .ok t) ∧
      g.version = "1" ∧ g.checkIntegrity so = .ok () := by
  have hnode : ∀ {n n' : NodeSpec F}, n.validate = .ok n' → n' = n := fun h =>
    (NodeSpec.validate_eq_ok.mp h).1
  have htensor : ∀ {t t' : TensorSpec}, t.validate = .ok t' → t' = t := fun h =>
    (TensorSpec.validate_eq_ok.mp h).1
  unfold WorkloadGraphV1.construct
  constructor
  · intro h
    obtain ⟨nodes, hnodes, h⟩ := bind_eq_ok.mp h
    obtain ⟨tensors, htensors, h⟩ := bind_eq_ok.mp h
    obtain ⟨rfl, hvalid⟩ := (mapM_validate hnode).mp hnodes
    obtain ⟨rfl, hvalid'⟩ := (mapM_validate htensor).mp htensors
    obtain ⟨rfl, hversion, hcheck⟩ := WorkloadGraphV1.validate_eq_ok.mp h
    exact ⟨rfl, hvalid, hvalid', hversion, hcheck⟩
  · rintro ⟨rfl, hnodes, htensors, hversion, hcheck⟩
    refine bind_eq_ok.mpr ⟨_, (mapM_validate hnode).mpr ⟨rfl, hnodes⟩, ?_⟩
    refine bind_eq_ok.mpr ⟨_, (mapM_validate htensor).mpr ⟨rfl, htensors⟩, ?_⟩
    exact WorkloadGraphV1.validate_eq_ok.mpr ⟨rfl, hversion, hcheck⟩

theorem nodeIds_back : (g.back float floatRepr).nodeIds = g.nodeIds := by
  rw [WorkloadGraphV1.nodeIds, WorkloadGraphV1.nodeIds, WorkloadGraphV1.back, List.map_map]
  rfl

/-- Reading back changes nothing that the checks look at. -/
theorem checkIntegrity_back (so : SetOrder) :
    (g.back float floatRepr).checkIntegrity so = g.checkIntegrity so := by
  have hduplicates : (g.back float floatRepr).checkDuplicateIds = g.checkDuplicateIds := by
    unfold WorkloadGraphV1.checkDuplicateIds
    rw [nodeIds_back]
    rfl
  have hloops : (g.back float floatRepr).nodes.findSome? (g.back float floatRepr).selfLoop =
      g.nodes.findSome? g.selfLoop := by
    rw [WorkloadGraphV1.back, List.findSome?_map]
    rfl
  have hdata : (g.back float floatRepr).nodes.flatMap (g.back float floatRepr).dataEdges =
      g.nodes.flatMap g.dataEdges := by
    have hedge : ∀ n : NodeSpec F, (g.back float floatRepr).dataEdges
        (n.back float floatRepr) = g.dataEdges n := by
      intro n
      unfold WorkloadGraphV1.dataEdges
      rw [nodeIds_back]
      rfl
    change (g.nodes.map _).flatMap _ = _
    rw [List.flatMap_map]
    exact List.flatMap_congr fun n _ => hedge n
  have hdependencies : (g.back float floatRepr).nodes.flatMap
      (g.back float floatRepr).dependencyEdges = g.nodes.flatMap g.dependencyEdges := by
    have hedge : ∀ n : NodeSpec F, (g.back float floatRepr).dependencyEdges
        (n.back float floatRepr) = g.dependencyEdges n := by
      intro n
      unfold WorkloadGraphV1.dependencyEdges
      rw [nodeIds_back]
      rfl
    change (g.nodes.map _).flatMap _ = _
    rw [List.flatMap_map]
    exact List.flatMap_congr fun n _ => hedge n
  have hcycles : (g.back float floatRepr).checkDagCycles so = g.checkDagCycles so := by
    have hempty : (g.back float floatRepr).nodes.isEmpty = g.nodes.isEmpty := by
      rw [WorkloadGraphV1.back, List.isEmpty_map]
    have horder : ∀ edges, (g.back float floatRepr).kahnOrder so edges = g.kahnOrder so edges := by
      intro edges
      unfold WorkloadGraphV1.kahnOrder WorkloadGraphV1.sortStart
      rw [nodeIds_back]
    have hstart : ∀ edges, (g.back float floatRepr).sortStart so edges = g.sortStart so edges := by
      intro edges
      unfold WorkloadGraphV1.sortStart
      rw [nodeIds_back]
    unfold WorkloadGraphV1.checkDagCycles
    simp only [hempty, hloops, hdata, hdependencies, horder, hstart, nodeIds_back]
  have hreferences : (g.back float floatRepr).checkTensorReferences = g.checkTensorReferences := by
    have hforM : ∀ (l : List (NodeSpec F)) (check : NodeSpec F → Except Error Unit),
        (l.map (NodeSpec.back float floatRepr)).forM check =
          l.forM fun n => check (n.back float floatRepr) := by
      intro l check
      induction l with
      | nil => rfl
      | cons n l ih =>
        rw [List.map_cons, List.forM, List.forM, ih]
    unfold WorkloadGraphV1.checkTensorReferences
    rw [nodeIds_back]
    change ((g.nodes.map _).forM _ >>= _) = _
    rw [hforM]
    rfl
  unfold WorkloadGraphV1.checkIntegrity
  rw [hduplicates, hcycles, hreferences]
  rfl

/-- A constructed graph can be constructed again from what comes back of it. -/
theorem construct_back {so so' : SetOrder} (hg : g.construct so = .ok g) :
    (g.back float floatRepr).construct so' = .ok (g.back float floatRepr) := by
  obtain ⟨-, hnodes, htensors, hversion, hcheck⟩ := construct_eq_ok.mp hg
  refine construct_eq_ok.mpr ⟨rfl, ?_, htensors, hversion, ?_⟩
  · intro n hn
    obtain ⟨m, hm, rfl⟩ := List.mem_map.mp hn
    obtain ⟨-, hid, hop⟩ := NodeSpec.validate_eq_ok.mp (hnodes m hm)
    exact NodeSpec.validate_eq_ok.mpr ⟨rfl, hid, hop⟩
  · rw [checkIntegrity_back]
    -- The order of the sets decides no check.
    obtain ⟨_, hduplicates, hrest⟩ := bind_eq_ok.mp hcheck
    obtain ⟨_, hcycles, hrest⟩ := bind_eq_ok.mp hrest
    refine bind_eq_ok.mpr ⟨(), hduplicates, bind_eq_ok.mpr ⟨(), ?_, hrest⟩⟩
    exact WorkloadGraphV1.checkDagCycles_eq_ok.mpr
      (WorkloadGraphV1.checkDagCycles_eq_ok.mp hcycles)

theorem same_ofMembers_iff {d : Dict String (PyData F)} (hd : (ofMembers d).Proper) :
    (ofMembers (membersBack float floatRepr
      (d.entries.map fun e => (.str e.1, e.2)))).Same (ofMembers d) ↔ (ofMembers d).Plain := by
  rw [← same_readBack_iff float floatRepr hd, readBack_ofMembers]

theorem NodeSpec.same_back_iff {n : NodeSpec F} (hn : (ofMembers n.attributes).Proper) :
    (n.back float floatRepr).Same n ↔ (ofMembers n.attributes).Plain := by
  rw [← same_ofMembers_iff hn]
  exact ⟨fun h => h.attributes, fun h => ⟨rfl, h⟩⟩

theorem WorkloadGraphV1.same_back_iff (hg : g.Proper) :
    (g.back float floatRepr).Same g ↔ g.Plain := by
  have hnodes : List.Forall₂ NodeSpec.Same (g.back float floatRepr).nodes g.nodes ↔
      ∀ n ∈ g.nodes, (ofMembers n.attributes).Plain := by
    rw [WorkloadGraphV1.back, List.forall₂_map_left_iff, List.forall₂_same]
    exact forall₂_congr fun n hn => NodeSpec.same_back_iff (hg.attributes n hn)
  constructor
  · intro h
    exact ⟨hnodes.mp h.nodes, (same_ofMembers_iff hg.constraints).mp h.constraints⟩
  · intro h
    exact ⟨rfl, hnodes.mpr h.attributes, (same_ofMembers_iff hg.constraints).mpr h.constraints⟩

/-- The JSON string of a constructed graph is read back as what comes back of the graph. -/
theorem jsonToGraph_graphToJson {so so' : SetOrder} (hg : g.construct so = .ok g) {text : String}
    (htext : graphToJson floatRepr g = .ok text) :
    jsonToGraph so' float text = .ok (g.back float floatRepr) := by
  have hloads := jsonLoads_canonicalJsonBytes float htext
  rw [jsonToGraph, hloads, bind_eq_ok_left, graphOf_readBack]
  exact bind_eq_ok.mpr ⟨_, rfl, construct_back hg⟩

private theorem roundTrips_iff_same {so so' : SetOrder} (hg : g.construct so = .ok g) :
    RoundTrips so' float floatRepr g ↔ (g.back float floatRepr).Same g := by
  constructor
  · rintro ⟨text, g', htext, hg', hsame⟩
    rw [jsonToGraph_graphToJson hg htext] at hg'
    cases hg'
    exact hsame
  · intro hsame
    have htext : graphToJson floatRepr g = .ok _ := canonicalJsonBytes_dict _
    exact ⟨_, _, htext, jsonToGraph_graphToJson hg htext, hsame⟩

end RoundTrip

/-- The order of the elements themselves. -/
def sampleOrder : SetOrder := WorkloadGraphV1.lateOrder fun _ => false

/-- One convolution with an overhead in fractions of a cycle, as the trace adapter lowers it. -/
def overheadGraph : WorkloadGraphV1 ℚ where
  nodes := [{ nodeId := "n_conv_0", opType := "gemm",
              attributes := .ofList [("M", .int 1), ("im2col_overhead_cycles", .float (1 / 2))] }]

theorem construct_overheadGraph :
    overheadGraph.construct sampleOrder = .ok overheadGraph := by
  refine construct_eq_ok.mpr ⟨rfl, ?_, fun t ht => absurd ht List.not_mem_nil, rfl, rfl⟩
  intro n hn
  obtain rfl := List.mem_singleton.mp hn
  rfl

/-- What the attributes of the convolution and the constraints look like. -/
theorem overheadGraph_values : (∀ n ∈ overheadGraph.nodes, ofMembers n.attributes = .dict
      [(.str "M", .int 1), (.str "im2col_overhead_cycles", .float (1 / 2))]) ∧
    ofMembers overheadGraph.constraints = .dict [] := by
  constructor
  · intro n hn
    obtain rfl := List.mem_singleton.mp hn
    rfl
  · rfl

theorem overheadGraph_proper : overheadGraph.Proper := by
  constructor
  · intro n hn
    rw [overheadGraph_values.1 n hn]
    refine .dict (by decide) fun e he => ?_
    simp only [List.mem_cons, List.not_mem_nil, or_false] at he
    rcases he with rfl | rfl
    · exact .int 1
    · exact .float _
  · rw [overheadGraph_values.2]
    exact .dict List.nodup_nil fun e he => absurd he List.not_mem_nil

theorem overheadGraph_not_plain : ¬overheadGraph.Plain := by
  intro h
  have hattributes := h.attributes _ List.mem_cons_self
  rw [overheadGraph_values.1 _ List.mem_cons_self] at hattributes
  cases hattributes with
  | dict _ hvalues =>
  have hfloat := hvalues (.str "im2col_overhead_cycles", .float (1 / 2)) (by simp)
  cases hfloat

end Workloads

end NpuArc
