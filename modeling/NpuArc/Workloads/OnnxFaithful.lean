import NpuArc.Workloads.Onnx
import NpuArc.Workloads.Pipeline

/-!
# Faithful lowering of ONNX models

A model in SSA form is lowered to one node per operator, and producers and consumers are as in
the model. But names may clash, an initializer that is also a graph input keeps no mark, a value
with an empty dimension is rejected, and a symbolic dimension gets lost where a later entry of
its value declares another shape.
-/

namespace NpuArc

namespace Workloads

variable {F : Type}

/-! ### Tensors of values -/

section Ensure

variable (shapeMap : Dict String (Option (List Dim))) (provenance : WorkloadProvenance)

/-- A value whose tensor passes its checks. -/
def Acceptable (x : String) : Prop :=
  isBlank x = false ∧
    ∀ d ∈ ((shapeMap.get? x).join).getD [.fixed 1], validateShapeElement d = .ok ()

/-- The flag of the first entry of a value. -/
def firstFlag (values : List (String × Bool)) (x : String) : Option Bool :=
  (values.find? fun e => decide (e.1 = x)).map Prod.snd

/-- The tensors of some values, all of which are acceptable. -/
structure Ensured (values : List (String × Bool)) (tensors : Dict String TensorSpec) : Prop where
  get? : ∀ x, tensors.get? x =
    (firstFlag values x).map fun flag => onnxTensor shapeMap provenance x flag
  acceptable : ∀ e ∈ values, Acceptable shapeMap e.1

variable {shapeMap provenance} {values : List (String × Bool)} {tensors : Dict String TensorSpec}

theorem firstFlag_eq_none {x : String} : firstFlag values x = none ↔ x ∉ values.map Prod.fst := by
  rw [firstFlag, Option.map_eq_none_iff, List.find?_eq_none]
  constructor
  · intro h hx
    obtain ⟨e, he, rfl⟩ := List.mem_map.mp hx
    simpa using h e he
  · intro h e he heq
    exact h (List.mem_map.mpr ⟨e, he, of_decide_eq_true heq⟩)

theorem firstFlag_append (values values' : List (String × Bool)) (x : String) :
    firstFlag (values ++ values') x = (firstFlag values x).or (firstFlag values' x) := by
  rw [firstFlag, List.find?_append, firstFlag, firstFlag]
  cases values.find? fun e => decide (e.1 = x) with
  | none => rfl
  | some e => rfl

theorem ensured_empty : Ensured shapeMap provenance [] .empty where
  get? _ := rfl
  acceptable _ he := absurd he List.not_mem_nil

theorem onnxTensor_validate {x : String} {flag : Bool} {t : TensorSpec} :
    (onnxTensor shapeMap provenance x flag).validate = .ok t ↔
      t = onnxTensor shapeMap provenance x flag ∧ Acceptable shapeMap x := by
  rw [TensorSpec.validate_eq_ok]
  refine and_congr_right fun _ => and_congr_right fun _ => ?_
  exact and_iff_left (Int.le_refl 0)

/-- A value gets a tensor exactly if it is acceptable. -/
theorem Ensured.ensureTensor_eq_ok (h : Ensured shapeMap provenance values tensors)
    {e : String × Bool} {tensors' : Dict String TensorSpec} :
    ensureTensor shapeMap provenance tensors e = .ok tensors' →
      Ensured shapeMap provenance (values ++ [e]) tensors' := by
  intro hok
  unfold ensureTensor at hok
  have hcontains : tensors.contains e.1 = true ↔ e.1 ∈ values.map Prod.fst := by
    rw [Dict.contains, h.get?, Option.isSome_map, ← not_iff_not, ← firstFlag_eq_none]
    cases firstFlag values e.1 <;> simp
  have hone : ∀ x, firstFlag [e] x = if e.1 = x then some e.2 else none := by
    intro x
    rw [firstFlag, List.find?_singleton]
    by_cases hx : e.1 = x
    · simp [hx]
    · simp [hx]
  by_cases hmem : e.1 ∈ values.map Prod.fst
  · rw [if_pos (hcontains.mpr hmem)] at hok
    cases hok
    constructor
    · intro x
      rw [firstFlag_append, hone, h.get?]
      split_ifs with hx
      · subst hx
        cases hfirst : firstFlag values e.1 with
        | none => exact absurd hmem (firstFlag_eq_none.mp hfirst)
        | some flag => rfl
      · rw [Option.or_none]
    · intro e' he'
      rcases List.mem_append.mp he' with he' | he'
      · exact h.acceptable e' he'
      · obtain rfl := List.mem_singleton.mp he'
        obtain ⟨e'', he'', heq⟩ := List.mem_map.mp hmem
        rw [← heq]
        exact h.acceptable e'' he''
  · rw [if_neg fun hc => hmem (hcontains.mp hc)] at hok
    obtain ⟨t, ht, hok⟩ := bind_eq_ok.mp hok
    cases hok
    obtain ⟨rfl, hacceptable⟩ := onnxTensor_validate.mp ht
    constructor
    · intro x
      rw [Dict.get?_insert, firstFlag_append, hone, h.get?]
      by_cases hx : x = e.1
      · subst hx
        rw [if_pos rfl, if_pos rfl, firstFlag_eq_none.mpr hmem]
        rfl
      · rw [if_neg hx, if_neg (Ne.symm hx), Option.or_none]
    · intro e' he'
      rcases List.mem_append.mp he' with he' | he'
      · exact h.acceptable e' he'
      · obtain rfl := List.mem_singleton.mp he'
        exact hacceptable

theorem exists_ensureTensor (provenance : WorkloadProvenance) (tensors : Dict String TensorSpec)
    {e : String × Bool} (he : Acceptable shapeMap e.1) :
    ∃ tensors', ensureTensor shapeMap provenance tensors e = .ok tensors' := by
  unfold ensureTensor
  split_ifs
  · exact ⟨tensors, rfl⟩
  · rw [onnxTensor_validate.mpr ⟨rfl, he⟩]
    exact ⟨_, rfl⟩

/-- The tensors of further values. -/
theorem Ensured.foldlM_eq_ok (h : Ensured shapeMap provenance values tensors)
    {values' : List (String × Bool)} {tensors' : Dict String TensorSpec}
    (hok : values'.foldlM (ensureTensor shapeMap provenance) tensors = .ok tensors') :
    Ensured shapeMap provenance (values ++ values') tensors' := by
  induction values' generalizing values tensors with
  | nil =>
    cases hok
    rwa [List.append_nil]
  | cons e values' ih =>
    obtain ⟨tensors'', hstep, hok⟩ := bind_eq_ok.mp ((List.foldlM_cons ..).symm.trans hok)
    have hnext := ih (h.ensureTensor_eq_ok hstep) hok
    rwa [List.append_assoc] at hnext

theorem exists_foldlM_ensureTensor (provenance : WorkloadProvenance) {values' : List (String × Bool)}
    (hacceptable : ∀ e ∈ values', Acceptable shapeMap e.1) (tensors : Dict String TensorSpec) :
    ∃ tensors', values'.foldlM (ensureTensor shapeMap provenance) tensors = .ok tensors' := by
  induction values' generalizing tensors with
  | nil => exact ⟨tensors, rfl⟩
  | cons e values' ih =>
    obtain ⟨tensors'', hstep⟩ :=
      exists_ensureTensor provenance tensors (hacceptable e List.mem_cons_self)
    obtain ⟨tensors', hok⟩ := ih (fun e' he' => hacceptable e' (List.mem_cons_of_mem e he')) tensors''
    exact ⟨tensors', by rw [List.foldlM_cons, hstep]; exact hok⟩

end Ensure

/-! ### Producers and consumers -/

/-- What filling in a node does to the tensor of a value. -/
def touch (x : String) (t : TensorSpec) (node : NodeSpec F) : TensorSpec :=
  let t := if x ∈ node.outputs then { t with producerNode := node.nodeId } else t
  if x ∈ node.inputs ∧ node.nodeId ∉ t.consumedBy then
    { t with consumedBy := t.consumedBy ++ [node.nodeId] }
  else t

theorem resolveNode_eq (tensors : Dict String TensorSpec) (node : NodeSpec F) :
    resolveNode tensors node = tensors.mapValues fun x t => touch x t node := by
  let produce : TensorSpec → TensorSpec := fun t => { t with producerNode := node.nodeId }
  let consume : TensorSpec → TensorSpec := fun t =>
    if node.nodeId ∈ t.consumedBy then t
    else { t with consumedBy := t.consumedBy ++ [node.nodeId] }
  have hproduce : ∀ t, produce (produce t) = produce t := fun _ => rfl
  have hconsume : ∀ t, consume (consume t) = consume t := by
    intro t
    by_cases h : node.nodeId ∈ t.consumedBy
    · simp [consume, h]
    · simp [consume, h]
  change node.inputs.foldl (fun d k => d.modify k consume)
    (node.outputs.foldl (fun d k => d.modify k produce) tensors) = _
  rw [Dict.foldl_modify_eq_mapValues hproduce, Dict.foldl_modify_eq_mapValues hconsume]
  refine Dict.ext_get? (by simp) fun x => ?_
  rw [Dict.get?_mapValues, Dict.get?_mapValues, Dict.get?_mapValues, Option.map_map]
  congr 1
  funext t
  by_cases hout : x ∈ node.outputs
  · by_cases hinp : x ∈ node.inputs
    · simp only [Function.comp, touch, produce, consume, hout, hinp, if_true, true_and, ite_not]
    · simp only [Function.comp, touch, produce, hout, hinp, if_true, if_false, false_and]
  · by_cases hinp : x ∈ node.inputs
    · simp only [Function.comp, touch, consume, hout, hinp, if_true, if_false, true_and, ite_not]
    · simp only [Function.comp, touch, hout, hinp, if_false, false_and]

theorem get?_foldl_resolveNode (nodes : List (NodeSpec F)) (tensors : Dict String TensorSpec)
    (x : String) : (nodes.foldl resolveNode tensors).get? x =
      (tensors.get? x).map fun t => nodes.foldl (touch x) t := by
  induction nodes generalizing tensors with
  | nil => simp
  | cons node nodes ih =>
    rw [List.foldl_cons, ih, resolveNode_eq, Dict.get?_mapValues, Option.map_map]
    rfl

section Touch

variable {x : String} {nodes : List (NodeSpec F)} {t : TensorSpec}

theorem touch_rest (x : String) (t : TensorSpec) (node : NodeSpec F) :
    touch x t node = { t with producerNode := (touch x t node).producerNode,
                              consumedBy := (touch x t node).consumedBy } := by
  unfold touch
  dsimp only
  split_ifs <;> rfl

/-- Only the producer and the consumers of a tensor change. -/
theorem foldl_touch_rest (x : String) (nodes : List (NodeSpec F)) (t : TensorSpec) :
    nodes.foldl (touch x) t =
      { t with producerNode := (nodes.foldl (touch x) t).producerNode,
               consumedBy := (nodes.foldl (touch x) t).consumedBy } := by
  induction nodes generalizing t with
  | nil => rfl
  | cons node nodes ih =>
    rw [List.foldl_cons, ih, touch_rest]

theorem touch_producerNode (x : String) (t : TensorSpec) (node : NodeSpec F) :
    (touch x t node).producerNode = if x ∈ node.outputs then node.nodeId else t.producerNode := by
  unfold touch
  dsimp only
  split_ifs <;> rfl

theorem foldl_touch_producerNode_of_not_mem (h : ∀ node ∈ nodes, x ∉ node.outputs) :
    (nodes.foldl (touch x) t).producerNode = t.producerNode := by
  induction nodes generalizing t with
  | nil => rfl
  | cons node nodes ih =>
    rw [List.foldl_cons, ih fun n hn => h n (List.mem_cons_of_mem node hn), touch_producerNode,
      if_neg (h node List.mem_cons_self)]

/-- The producer of a value is the only node that outputs it. -/
theorem foldl_touch_producerNode_of_mem (hnodup : (nodes.flatMap (·.outputs)).Nodup)
    {node : NodeSpec F} (hnode : node ∈ nodes) (hx : x ∈ node.outputs) :
    (nodes.foldl (touch x) t).producerNode = node.nodeId := by
  induction nodes generalizing t with
  | nil => cases hnode
  | cons first nodes ih =>
    rw [List.flatMap_cons, List.nodup_append] at hnodup
    rw [List.foldl_cons]
    rcases List.mem_cons.mp hnode with rfl | hnode
    · rw [foldl_touch_producerNode_of_not_mem, touch_producerNode, if_pos hx]
      intro n hn hxn
      exact hnodup.2.2 x hx x (List.mem_flatMap.mpr ⟨n, hn, hxn⟩) rfl
    · exact ih hnodup.2.1 hnode

theorem mem_touch_consumedBy {id : String} {node : NodeSpec F} : id ∈ (touch x t node).consumedBy ↔
    id ∈ t.consumedBy ∨ node.nodeId = id ∧ x ∈ node.inputs := by
  have hproduced : (if x ∈ node.outputs then { t with producerNode := node.nodeId }
      else t).consumedBy = t.consumedBy := by
    split_ifs <;> rfl
  unfold touch
  dsimp only
  rw [hproduced]
  by_cases hinp : x ∈ node.inputs
  · by_cases hid : node.nodeId ∈ t.consumedBy
    · rw [if_neg fun h => h.2 hid, hproduced]
      constructor
      · exact Or.inl
      · rintro (h | ⟨rfl, -⟩)
        · exact h
        · exact hid
    · rw [if_pos ⟨hinp, hid⟩, List.mem_append, List.mem_singleton]
      simp only [hinp, and_true, eq_comm]
  · rw [if_neg fun h => hinp h.1, hproduced]
    simp [hinp]

/-- The consumers of a value are the nodes that take it. -/
theorem mem_foldl_touch_consumedBy {id : String} : id ∈ (nodes.foldl (touch x) t).consumedBy ↔
    id ∈ t.consumedBy ∨ ∃ node ∈ nodes, node.nodeId = id ∧ x ∈ node.inputs := by
  induction nodes generalizing t with
  | nil => simp
  | cons node nodes ih =>
    rw [List.foldl_cons, ih, mem_touch_consumedBy, List.exists_mem_cons_iff, or_assoc]

end Touch

/-! ### Models -/

/-- The values of a node. -/
def nodeValues (node : OnnxNode F) : List (String × Bool) :=
  (node.inputs ++ node.outputs).map fun x => (x, false)

namespace OnnxGraph

variable (g : OnnxGraph F)

/-- The values that get a tensor, with the mark of an initializer. -/
def values : List (String × Bool) :=
  g.input.map (fun v => (v.name, false)) ++ g.initializer.map (fun init => (init.name, true)) ++
    g.node.flatMap nodeValues

/-- The names of the nodes of the lowered graph. -/
def nodeNames : List String := g.node.zipIdx.map fun e => e.1.nodeName e.2

/-- The shape of a value: the last one that is declared, or else a single element. -/
def shapeOf (x : String) : List Dim :=
  ((Dict.lastOf (declaredShapes g) x).join).getD [.fixed 1]

/-- Static single assignment: a value is produced at most once, and before it is taken. -/
structure Ssa : Prop where
  outputs : (g.node.flatMap (·.outputs)).Nodup
  fresh : ∀ node ∈ g.node, ∀ x ∈ node.outputs,
    x ∉ g.input.map (·.name) ∧ x ∉ g.initializer.map (·.name)
  sorted : g.node.Pairwise fun a b => ∀ x ∈ a.inputs, x ∉ b.outputs
  irreflexive : ∀ node ∈ g.node, ∀ x ∈ node.inputs, x ∉ node.outputs

/-- Every operator is mapped to one that the registry supports. -/
def Supported (registry : OperatorRegistry) : Prop :=
  ∀ node ∈ g.node, ∃ op, onnxToWorkloadOp.get? node.opType = some op ∧
    ∃ entry, registry.lookup op = .ok entry

end OnnxGraph

/-- A node and the node that it is lowered to. -/
structure LowersTo (e : OnnxNode F × ℕ) (spec : NodeSpec F) : Prop where
  nodeId : spec.nodeId = e.1.nodeName e.2
  opType : onnxToWorkloadOp.get? e.1.opType = some spec.opType
  inputs : spec.inputs = e.1.inputs
  outputs : spec.outputs = e.1.outputs
  dependencies : spec.dependencies = []
  notBlank : isBlank spec.nodeId = false
  attributes : ∃ attributes, parseAttrs e.1 = .ok attributes

theorem mapOnnxOpType_eq_ok {node : OnnxNode F} {model : OnnxModel F} {path op : String} :
    mapOnnxOpType node model path = .ok op ↔ onnxToWorkloadOp.get? node.opType = some op := by
  have hsupported : ∀ e ∈ onnxToWorkloadOps, OperatorRegistry.default.isUnsupported e.2 = false := by
    decide +kernel
  unfold mapOnnxOpType
  cases hop : onnxToWorkloadOp.get? node.opType with
  | none => simp
  | some op' =>
    have hmem := Dict.mem_of_get?_ofList hop
    simp [hsupported _ hmem]

theorem onnxOp_notBlank {opType op : String} (h : onnxToWorkloadOp.get? opType = some op) :
    isBlank op = false := by
  have hall : ∀ e ∈ onnxToWorkloadOps, isBlank e.2 = false := by decide +kernel
  exact hall _ (Dict.mem_of_get?_ofList h)

section Nodes

variable {registry : OperatorRegistry} {model : OnnxModel F} {path : String}
  {shapeMap : Dict String (Option (List Dim))} {provenance : WorkloadProvenance}

theorem lowerOnnxNode_eq_ok {values : List (String × Bool)} {tensors : Dict String TensorSpec}
    (h : Ensured shapeMap provenance values tensors) {specs : List (NodeSpec F)}
    {e : OnnxNode F × ℕ} {s' : Dict String TensorSpec × List (NodeSpec F)}
    (hok : lowerOnnxNode registry model path shapeMap provenance (tensors, specs) e = .ok s') :
    Ensured shapeMap provenance (values ++ nodeValues e.1) s'.1 ∧
      ∃ spec, LowersTo e spec ∧ s'.2 = specs ++ [spec] := by
  obtain ⟨op, hop, hok⟩ := bind_eq_ok.mp hok
  obtain ⟨_, -, hok⟩ := bind_eq_ok.mp hok
  obtain ⟨tensors', htensors, hok⟩ := bind_eq_ok.mp hok
  obtain ⟨attributes, hattributes, hok⟩ := bind_eq_ok.mp hok
  obtain ⟨spec, hspec, hok⟩ := bind_eq_ok.mp hok
  cases hok
  obtain ⟨rfl, hblank, -⟩ := NodeSpec.validate_eq_ok.mp hspec
  exact ⟨h.foldlM_eq_ok htensors, _, ⟨rfl, mapOnnxOpType_eq_ok.mp hop, rfl, rfl, rfl, hblank,
    attributes, hattributes⟩, rfl⟩

variable (model path provenance) in
theorem exists_lowerOnnxNode {e : OnnxNode F × ℕ} (s : Dict String TensorSpec × List (NodeSpec F))
    (hop : ∃ op, onnxToWorkloadOp.get? e.1.opType = some op ∧
      ∃ entry, registry.lookup op = .ok entry)
    (hacceptable : ∀ x ∈ nodeValues e.1, Acceptable shapeMap x.1)
    (hblank : isBlank (e.1.nodeName e.2) = false) (hattributes : ∃ attrs, parseAttrs e.1 = .ok attrs) :
    ∃ s', lowerOnnxNode registry model path shapeMap provenance s e = .ok s' := by
  obtain ⟨op, hop, entry, hentry⟩ := hop
  obtain ⟨tensors, htensors⟩ := exists_foldlM_ensureTensor provenance hacceptable s.1
  obtain ⟨attrs, hattrs⟩ := hattributes
  refine ⟨_, bind_eq_ok.mpr ⟨op, mapOnnxOpType_eq_ok.mpr hop, bind_eq_ok.mpr ⟨entry, hentry,
    bind_eq_ok.mpr ⟨tensors, htensors, bind_eq_ok.mpr ⟨attrs, hattrs, bind_eq_ok.mpr ⟨_,
      NodeSpec.validate_eq_ok.mpr ⟨rfl, hblank, onnxOp_notBlank hop⟩, rfl⟩⟩⟩⟩⟩⟩

/-- The nodes that some operators are lowered to, and the tensors of their values. -/
theorem foldlM_lowerOnnxNode_eq_ok {values : List (String × Bool)}
    {tensors : Dict String TensorSpec} (h : Ensured shapeMap provenance values tensors)
    {specs : List (NodeSpec F)} {es : List (OnnxNode F × ℕ)}
    {s' : Dict String TensorSpec × List (NodeSpec F)}
    (hok : es.foldlM (lowerOnnxNode registry model path shapeMap provenance) (tensors, specs) =
      .ok s') :
    Ensured shapeMap provenance (values ++ es.flatMap fun e => nodeValues e.1) s'.1 ∧
      ∃ specs', List.Forall₂ LowersTo es specs' ∧ s'.2 = specs ++ specs' := by
  induction es generalizing values tensors specs with
  | nil =>
    cases hok
    exact ⟨by simpa using h, [], .nil, by simp⟩
  | cons e es ih =>
    obtain ⟨⟨tensors'', specs''⟩, hstep, hok⟩ := bind_eq_ok.mp ((List.foldlM_cons ..).symm.trans hok)
    obtain ⟨hensured, spec, hspec, rfl⟩ := lowerOnnxNode_eq_ok h hstep
    obtain ⟨hensured', specs', hspecs, heq⟩ := ih hensured hok
    refine ⟨?_, spec :: specs', .cons hspec hspecs, ?_⟩
    · rwa [List.append_assoc] at hensured'
    · rw [heq, List.append_assoc, List.singleton_append]

variable (model path provenance) in
theorem exists_foldlM_lowerOnnxNode {es : List (OnnxNode F × ℕ)}
    (s : Dict String TensorSpec × List (NodeSpec F))
    (hop : ∀ e ∈ es, ∃ op, onnxToWorkloadOp.get? e.1.opType = some op ∧
      ∃ entry, registry.lookup op = .ok entry)
    (hacceptable : ∀ e ∈ es, ∀ x ∈ nodeValues e.1, Acceptable shapeMap x.1)
    (hblank : ∀ e ∈ es, isBlank (e.1.nodeName e.2) = false)
    (hattributes : ∀ e ∈ es, ∃ attrs, parseAttrs e.1 = .ok attrs) :
    ∃ s', es.foldlM (lowerOnnxNode registry model path shapeMap provenance) s = .ok s' := by
  induction es generalizing s with
  | nil => exact ⟨s, rfl⟩
  | cons e es ih =>
    rw [List.forall_mem_cons] at hop hacceptable hblank hattributes
    obtain ⟨s'', hstep⟩ := exists_lowerOnnxNode model path provenance s hop.1 hacceptable.1
      hblank.1 hattributes.1
    obtain ⟨s', hok⟩ := ih s'' hop.2 hacceptable.2 hblank.2 hattributes.2
    exact ⟨s', by rw [List.foldlM_cons, hstep]; exact hok⟩

end Nodes

/-! ### Lowered graphs -/

theorem map_eq_of_forall₂ {α β γ : Type} {R : α → β → Prop} {f : α → γ} {f' : β → γ} {l : List α}
    {l' : List β} (h : List.Forall₂ R l l') (heq : ∀ a b, R a b → f' b = f a) :
    l'.map f' = l.map f := by
  induction h with
  | nil => rfl
  | cons hab _ ih => rw [List.map_cons, List.map_cons, heq _ _ hab, ih]

/-- A graph that a model is lowered to, before its construction is checked. -/
structure Lowered (og : OnnxGraph F) (g : WorkloadGraphV1 F) : Prop where
  nodes : List.Forall₂ LowersTo og.node.zipIdx g.nodes
  tensorIds : g.tensorIds.Nodup
  tensors : ∃ provenance, ∀ t, t ∈ g.tensors ↔ ∃ x flag, firstFlag og.values x = some flag ∧
    t = g.nodes.foldl (touch x) (onnxTensor (buildValueInfoMap og) provenance x flag)

namespace Lowered

variable {og : OnnxGraph F} {g : WorkloadGraphV1 F} (h : Lowered og g)

include h

theorem nodeIds_eq : g.nodeIds = og.nodeNames :=
  map_eq_of_forall₂ h.nodes fun _ _ hab => hab.nodeId

/-- The nodes take and output what the operators of the model do. -/
theorem map_values_eq : g.nodes.map (fun n => (n.inputs, n.outputs)) =
    og.node.map fun n => (n.inputs, n.outputs) := by
  have hmap : g.nodes.map (fun n => (n.inputs, n.outputs)) =
      og.node.zipIdx.map fun e => (e.1.inputs, e.1.outputs) :=
    map_eq_of_forall₂ h.nodes fun e n hab => by rw [hab.inputs, hab.outputs]
  rw [hmap]
  conv_rhs => rw [← List.zipIdx_map_fst 0 og.node, List.map_map]
  rfl

theorem exists_node {node : NodeSpec F} (hnode : node ∈ g.nodes) :
    ∃ n ∈ og.node, n.inputs = node.inputs ∧ n.outputs = node.outputs := by
  have hmem : (node.inputs, node.outputs) ∈ og.node.map fun n => (n.inputs, n.outputs) := by
    rw [← h.map_values_eq]
    exact List.mem_map_of_mem hnode
  obtain ⟨n, hn, heq⟩ := List.mem_map.mp hmem
  rw [Prod.mk.injEq] at heq
  exact ⟨n, hn, heq.1, heq.2⟩

theorem outputs_nodup (hssa : og.Ssa) : (g.nodes.flatMap (·.outputs)).Nodup := by
  have hflat := congrArg (List.flatMap Prod.snd) h.map_values_eq
  rw [List.flatMap_map, List.flatMap_map] at hflat
  rw [hflat]
  exact hssa.outputs

theorem sorted (hssa : og.Ssa) :
    g.nodes.Pairwise fun a b => ∀ x ∈ a.inputs, x ∉ b.outputs := by
  have hpairs : (og.node.map fun n => (n.inputs, n.outputs)).Pairwise fun a b =>
      ∀ x ∈ a.1, x ∉ b.2 := List.pairwise_map.mpr hssa.sorted
  rw [← h.map_values_eq] at hpairs
  exact List.pairwise_map.mp hpairs

/-- The tensor of a value: its shape, its producer and its consumers. -/
theorem tensor_spec (hssa : og.Ssa) {t : TensorSpec} (ht : t ∈ g.tensors) :
    ∃ flag, firstFlag og.values t.tensorId = some flag ∧ t.shape = og.shapeOf t.tensorId ∧
      t.aliasOf = none ∧
      (∀ node ∈ g.nodes, t.tensorId ∈ node.outputs → t.producerNode = node.nodeId) ∧
      ((∀ node ∈ g.nodes, t.tensorId ∉ node.outputs) →
        t.producerNode = if flag then "input" else "") ∧
      ∀ id, id ∈ t.consumedBy ↔ ∃ node ∈ g.nodes, node.nodeId = id ∧ t.tensorId ∈ node.inputs := by
  obtain ⟨provenance, hmem⟩ := h.tensors
  obtain ⟨x, flag, hflag, rfl⟩ := (hmem t).mp ht
  have hrest := foldl_touch_rest x g.nodes
    (onnxTensor (buildValueInfoMap og) provenance x flag)
  have hid := congrArg TensorSpec.tensorId hrest
  have hshape := congrArg TensorSpec.shape hrest
  have halias := congrArg TensorSpec.aliasOf hrest
  dsimp only [onnxTensor] at hid hshape halias
  rw [onnxTensor, hid]
  refine ⟨flag, hflag, ?_, halias, ?_, ?_, ?_⟩
  · rw [hshape, buildValueInfoMap, Dict.get?_ofList]
    rfl
  · intro node hnode hx
    exact foldl_touch_producerNode_of_mem (h.outputs_nodup hssa) hnode hx
  · intro hnone
    exact foldl_touch_producerNode_of_not_mem hnone
  · intro id
    rw [mem_foldl_touch_consumedBy]
    simp

/-- A value has a tensor. -/
theorem exists_tensor {x : String} (hx : x ∈ og.values.map Prod.fst) :
    ∃ t ∈ g.tensors, t.tensorId = x := by
  obtain ⟨provenance, hmem⟩ := h.tensors
  obtain ⟨flag, hflag⟩ := Option.ne_none_iff_exists'.mp (mt firstFlag_eq_none.mp (not_not_intro hx))
  refine ⟨_, (hmem _).mpr ⟨x, flag, hflag, rfl⟩, ?_⟩
  rw [foldl_touch_rest]
  rfl

theorem mem_values_of_tensor {t : TensorSpec} (ht : t ∈ g.tensors) :
    t.tensorId ∈ og.values.map Prod.fst := by
  obtain ⟨provenance, hmem⟩ := h.tensors
  obtain ⟨x, flag, hflag, rfl⟩ := (hmem t).mp ht
  rw [foldl_touch_rest]
  by_contra hnot
  rw [show (onnxTensor (buildValueInfoMap og) provenance x flag).tensorId = x from rfl] at hnot
  rw [firstFlag_eq_none.mpr hnot] at hflag
  cases hflag

theorem node_values {node : NodeSpec F} (hnode : node ∈ g.nodes) {x : String}
    (hx : x ∈ node.inputs ∨ x ∈ node.outputs) : x ∈ og.values.map Prod.fst := by
  obtain ⟨n, hn, hinputs, houtputs⟩ := h.exists_node hnode
  rw [← hinputs, ← houtputs, ← List.mem_append] at hx
  refine List.mem_map.mpr ⟨(x, false), ?_, rfl⟩
  refine List.mem_append_right _ (List.mem_flatMap.mpr ⟨n, hn, ?_⟩)
  exact List.mem_map_of_mem hx

/-- A producer that the sort knows outputs its value. -/
theorem exists_producer (hssa : og.Ssa) {x u : String} (hproducer : g.producerMap.get? x = some u) :
    ∃ node ∈ g.nodes, node.nodeId = u ∧ x ∈ node.outputs := by
  obtain ⟨t, ht, hne, rfl, rfl⟩ := (get?_foldl_producer h.tensorIds
    (fun t => t.producerNode ≠ "" ∧ t.producerNode ≠ "input")).mp hproducer
  obtain ⟨flag, -, -, -, hsome, hnone, -⟩ := h.tensor_spec hssa ht
  by_cases hex : ∃ node ∈ g.nodes, t.tensorId ∈ node.outputs
  · obtain ⟨node, hnode, hx⟩ := hex
    exact ⟨node, hnode, (hsome node hnode hx).symm, hx⟩
  · have hinitial := hnone fun node hnode hx => hex ⟨node, hnode, hx⟩
    cases flag with
    | false => exact absurd hinitial hne.1
    | true => exact absurd hinitial hne.2

theorem not_mem_outputs_of_mem_inputs (hssa : og.Ssa) {node : NodeSpec F} (hnode : node ∈ g.nodes)
    {x : String} (hx : x ∈ node.inputs) : x ∉ node.outputs := by
  obtain ⟨n, hn, hinputs, houtputs⟩ := h.exists_node hnode
  rw [← houtputs]
  exact hssa.irreflexive n hn x (hinputs ▸ hx)

theorem checkDagCycles_eq_ok (hssa : og.Ssa) (hnodup : g.nodeIds.Nodup) (so : SetOrder) :
    g.checkDagCycles so = .ok () := by
  refine WorkloadGraphV1.checkDagCycles_eq_ok.mpr (Or.inr ⟨?_, ?_⟩)
  · rw [List.findSome?_eq_none_iff]
    intro node hnode
    rw [WorkloadGraphV1.selfLoop, Option.map_eq_none_iff, List.find?_eq_none]
    intro inp hinp hloop
    obtain ⟨a, ha, hid, hout⟩ := h.exists_producer hssa (of_decide_eq_true hloop)
    have heq := List.inj_on_of_nodup_map hnodup ha hnode hid
    subst heq
    exact h.not_mem_outputs_of_mem_inputs hssa hnode hinp hout
  · refine ⟨fun v => g.nodeIds.idxOf v, fun u v huv => ?_⟩
    have hidx : ∀ k (hk : k < g.nodes.length), g.nodeIds.idxOf g.nodes[k].nodeId = k := by
      intro k hk
      have hget := hnodup.idxOf_getElem k (by rw [WorkloadGraphV1.nodeIds, List.length_map]; exact hk)
      simpa only [WorkloadGraphV1.nodeIds, List.getElem_map] using hget
    obtain ⟨b, hb, rfl, -, -, hcase⟩ := huv
    obtain ⟨e, -, hlowers⟩ := exists_mem_of_forall₂ h.nodes.flip hb
    rcases hcase with ⟨inp, hinp, hproducer⟩ | hdep
    · obtain ⟨a, ha, rfl, hout⟩ := h.exists_producer hssa hproducer
      obtain ⟨j, hj, rfl⟩ := List.mem_iff_getElem.mp ha
      obtain ⟨i, hi, rfl⟩ := List.mem_iff_getElem.mp hb
      dsimp only
      rw [hidx i hi, hidx j hj]
      rcases Nat.lt_trichotomy j i with hlt | rfl | hlt
      · exact hlt
      · exact absurd hout (h.not_mem_outputs_of_mem_inputs hssa hb hinp)
      · exact absurd hout (List.pairwise_iff_getElem.mp (h.sorted hssa) i j hi hj hlt inp hinp)
    · rw [hlowers.dependencies] at hdep
      cases hdep

/-- A lowered graph with distinct names passes the checks of its construction. -/
theorem checkIntegrity_eq_ok (hssa : og.Ssa) (hnodup : g.nodeIds.Nodup) (so : SetOrder) :
    g.checkIntegrity so = .ok () := by
  have hknown : ∀ node ∈ g.nodes, ∀ x, x ∈ node.inputs ∨ x ∈ node.outputs → x ∈ g.tensorIds := by
    intro node hnode x hx
    obtain ⟨t, ht, rfl⟩ := h.exists_tensor (h.node_values hnode hx)
    exact List.mem_map_of_mem ht
  refine bind_eq_ok.mpr ⟨(), ?_, bind_eq_ok.mpr ⟨(), h.checkDagCycles_eq_ok hssa hnodup so,
    bind_eq_ok.mpr ⟨(), ?_, ?_⟩⟩⟩
  · refine bind_eq_ok.mpr ⟨(), ?_, ?_⟩
    · exact WorkloadGraphV1.checkDuplicates_eq_ok.mpr ⟨hnodup, by simp⟩
    · exact WorkloadGraphV1.checkDuplicates_eq_ok.mpr ⟨h.tensorIds, by simp⟩
  · refine bind_eq_ok.mpr ⟨(), forM_eq_ok.mpr fun node hnode => ?_, forM_eq_ok.mpr fun t ht => ?_⟩
    · refine bind_eq_ok.mpr ⟨(), ?_, ?_⟩
      · exact WorkloadGraphV1.checkKnown_eq_ok.mpr fun x hx => hknown node hnode x (Or.inl hx)
      · exact WorkloadGraphV1.checkKnown_eq_ok.mpr fun x hx => hknown node hnode x (Or.inr hx)
    · obtain ⟨flag, -, -, -, hsome, hnone, hconsumers⟩ := h.tensor_spec hssa ht
      rw [if_neg]
      · refine WorkloadGraphV1.checkKnown_eq_ok.mpr fun id hid => List.mem_cons_of_mem _ ?_
        obtain ⟨node, hnode, rfl, -⟩ := (hconsumers id).mp hid
        exact List.mem_map_of_mem hnode
      · rintro ⟨hne, hnot⟩
        by_cases hex : ∃ node ∈ g.nodes, t.tensorId ∈ node.outputs
        · obtain ⟨node, hnode, hx⟩ := hex
          refine hnot (List.mem_cons_of_mem _ ?_)
          rw [hsome node hnode hx]
          exact List.mem_map_of_mem hnode
        · have hinitial := hnone fun node hnode hx => hex ⟨node, hnode, hx⟩
          cases flag with
          | false => exact hne hinitial
          | true => exact hnot (by rw [hinitial]; exact List.mem_cons_self)
  · refine forM_eq_ok.mpr fun t ht => ?_
    obtain ⟨-, -, -, halias, -⟩ := h.tensor_spec hssa ht
    rw [halias]

end Lowered

/-- Filled in tensors and nodes make a lowered graph. -/
theorem lowered_of_ensured {og : OnnxGraph F} {provenance : WorkloadProvenance}
    {tensors : Dict String TensorSpec}
    (h : Ensured (buildValueInfoMap og) provenance og.values tensors) {g : WorkloadGraphV1 F}
    (hnodes : List.Forall₂ LowersTo og.node.zipIdx g.nodes)
    (htensors : g.tensors = (g.nodes.foldl resolveNode tensors).values) : Lowered og g := by
  have hget : ∀ x t, (g.nodes.foldl resolveNode tensors).get? x = some t ↔
      ∃ flag, firstFlag og.values x = some flag ∧
        t = g.nodes.foldl (touch x) (onnxTensor (buildValueInfoMap og) provenance x flag) := by
    intro x t
    rw [get?_foldl_resolveNode, h.get?, Option.map_map, Option.map_eq_some_iff]
    exact exists_congr fun flag => and_congr_right fun _ => eq_comm
  refine ⟨hnodes, ?_, provenance, fun t => ?_⟩
  · have hkeys : (g.nodes.foldl resolveNode tensors).values.map (·.tensorId) =
        (g.nodes.foldl resolveNode tensors).keys := by
      rw [Dict.values, Dict.keys, List.map_map]
      refine List.map_congr_left fun e he => ?_
      obtain ⟨flag, -, heq⟩ := (hget e.1 e.2).mp (Dict.get?_eq_some.mpr he)
      rw [Function.comp, heq, foldl_touch_rest]
      rfl
    rw [WorkloadGraphV1.tensorIds, htensors, hkeys]
    exact Dict.keys_nodup _
  · rw [htensors, Dict.mem_values]
    exact exists_congr fun x => hget x t

section Lower

variable {so : SetOrder} {inferred : OnnxModel F → List ValueInfo} {model : OnnxModel F}
  {graphName : String} {registry : OperatorRegistry} {path : String} {g : WorkloadGraphV1 F}

theorem flatMap_zipIdx_nodeValues (l : List (OnnxNode F)) :
    (l.zipIdx.flatMap fun e => nodeValues e.1) = l.flatMap nodeValues := by
  conv_rhs => rw [← List.zipIdx_map_fst 0 l, List.flatMap_map]

/-- What a successful lowering tells about its model and its graph. -/
theorem lowerOnnxModelToGraph_eq_ok
    (hok : lowerOnnxModelToGraph so inferred model graphName registry path = .ok g) :
    Lowered (inferShapes inferred model).graph g ∧ g.nodeIds.Nodup ∧
      ∀ e ∈ (inferShapes inferred model).graph.values,
        Acceptable (buildValueInfoMap (inferShapes inferred model).graph) e.1 := by
  obtain ⟨tensors₁, h₁, hok⟩ := bind_eq_ok.mp hok
  obtain ⟨tensors₂, h₂, hok⟩ := bind_eq_ok.mp hok
  obtain ⟨⟨tensors₃, specs⟩, h₃, hok⟩ := bind_eq_ok.mp hok
  obtain ⟨rfl, -, hintegrity⟩ := WorkloadGraphV1.validate_eq_ok.mp hok
  have hensured := (ensured_empty.foldlM_eq_ok h₁).foldlM_eq_ok h₂
  obtain ⟨hensured, specs', hspecs, heq⟩ := foldlM_lowerOnnxNode_eq_ok hensured h₃
  rw [List.nil_append] at heq hensured
  dsimp only at heq
  subst heq
  rw [flatMap_zipIdx_nodeValues] at hensured
  obtain ⟨_, hduplicates, -⟩ := bind_eq_ok.mp hintegrity
  obtain ⟨_, hnodeIds, -⟩ := bind_eq_ok.mp hduplicates
  exact ⟨lowered_of_ensured hensured hspecs rfl,
    (WorkloadGraphV1.checkDuplicates_eq_ok.mp hnodeIds).1, hensured.acceptable⟩

/-- A model in SSA form is lowered if its names and values are acceptable. -/
theorem exists_lowerOnnxModelToGraph (hssa : (inferShapes inferred model).graph.Ssa)
    (hsupported : (inferShapes inferred model).graph.Supported registry)
    (hnodup : (inferShapes inferred model).graph.nodeNames.Nodup)
    (hblank : ∀ name ∈ (inferShapes inferred model).graph.nodeNames, isBlank name = false)
    (hattributes : ∀ node ∈ (inferShapes inferred model).graph.node,
      ∃ attrs, parseAttrs node = .ok attrs)
    (hacceptable : ∀ e ∈ (inferShapes inferred model).graph.values,
      Acceptable (buildValueInfoMap (inferShapes inferred model).graph) e.1) :
    ∃ g, lowerOnnxModelToGraph so inferred model graphName registry path = .ok g := by
  have hnode : ∀ e ∈ (inferShapes inferred model).graph.node.zipIdx,
      e.1 ∈ (inferShapes inferred model).graph.node := by
    intro e he
    rw [← List.zipIdx_map_fst 0 (inferShapes inferred model).graph.node]
    exact List.mem_map_of_mem he
  let shapeMap := buildValueInfoMap (inferShapes inferred model).graph
  let provenance : WorkloadProvenance :=
    { source := "onnx:" ++ graphName
      referenceUri := if path ≠ "<buffer>" then some path else none }
  obtain ⟨tensors₁, h₁⟩ := exists_foldlM_ensureTensor provenance
    (fun e he => hacceptable e (List.mem_append_left _ (List.mem_append_left _ he))) .empty
  obtain ⟨tensors₂, h₂⟩ := exists_foldlM_ensureTensor provenance
    (fun e he => hacceptable e (List.mem_append_left _ (List.mem_append_right _ he))) tensors₁
  obtain ⟨⟨tensors₃, specs⟩, h₃⟩ : ∃ s', (inferShapes inferred model).graph.node.zipIdx.foldlM
      (lowerOnnxNode registry (inferShapes inferred model) path shapeMap provenance)
      (tensors₂, []) = .ok s' := exists_foldlM_lowerOnnxNode _ path provenance (tensors₂, [])
    (fun e he => hsupported e.1 (hnode e he))
    (fun e he x hx => hacceptable x (List.mem_append_right _
      (List.mem_flatMap.mpr ⟨e.1, hnode e he, hx⟩)))
    (fun e he => hblank _ (List.mem_map_of_mem he))
    (fun e he => hattributes e.1 (hnode e he))
  have hensured := (ensured_empty.foldlM_eq_ok h₁).foldlM_eq_ok h₂
  obtain ⟨hensured, specs', hspecs, heq⟩ := foldlM_lowerOnnxNode_eq_ok hensured h₃
  rw [List.nil_append] at heq hensured
  dsimp only at heq
  subst heq
  rw [flatMap_zipIdx_nodeValues] at hensured
  refine ⟨_, bind_eq_ok.mpr ⟨tensors₁, h₁, bind_eq_ok.mpr ⟨tensors₂, h₂,
    bind_eq_ok.mpr ⟨(tensors₃, specs), h₃, WorkloadGraphV1.validate_eq_ok.mpr ⟨rfl, rfl, ?_⟩⟩⟩⟩⟩
  have hlowered : Lowered (inferShapes inferred model).graph
      { graphName, nodes := specs, tensors := (specs.foldl resolveNode tensors₃).values
        symbols := (symbolNames (specs.foldl resolveNode tensors₃).values).map fun name =>
          { name, description := "ONNX symbolic dimension" }
        provenance := some provenance } := lowered_of_ensured hensured hspecs rfl
  refine hlowered.checkIntegrity_eq_ok hssa ?_ so
  rw [hlowered.nodeIds_eq]
  exact hnodup

end Lower

/-! ### Faithfulness -/

/-- A graph that is faithful to an SSA model. -/
structure Faithful (og : OnnxGraph F) (g : WorkloadGraphV1 F) : Prop where
  nodes : List.Forall₂ (fun n node => onnxToWorkloadOp.get? n.opType = some node.opType ∧
    node.inputs = n.inputs ∧ node.outputs = n.outputs) og.node g.nodes
  nodeIds : g.nodeIds.Nodup
  tensors : ∀ node ∈ g.nodes, ∀ x, x ∈ node.inputs ∨ x ∈ node.outputs →
    ∃ t ∈ g.tensors, t.tensorId = x
  producers : ∀ t ∈ g.tensors, ∀ node ∈ g.nodes,
    t.producerNode = node.nodeId ↔ t.tensorId ∈ node.outputs
  consumers : ∀ t ∈ g.tensors, ∀ id,
    id ∈ t.consumedBy ↔ ∃ node ∈ g.nodes, node.nodeId = id ∧ t.tensorId ∈ node.inputs
  initializers : ∀ init ∈ og.initializer,
    ∃ t ∈ g.tensors, t.tensorId = init.name ∧ t.producerNode = "input"
  symbols : ∀ v ∈ og.input ++ og.output ++ og.valueInfo, ∀ (i : ℕ) (d : OnnxDim),
    v.shape[i]? = some d → d.dimParam ≠ "" →
      ∃ t ∈ g.tensors, t.tensorId = v.name ∧ t.shape[i]? = some (Dim.symbolic d.dimParam)

/-- An SSA model with supported operators is lowered to a faithful graph. -/
def LowersFaithfully (so : SetOrder) (inferred : OnnxModel F → List ValueInfo)
    (model : OnnxModel F) (graphName : String) (registry : OperatorRegistry) (path : String) : Prop :=
  model.graph.Ssa → model.graph.Supported registry →
    ∃ g, lowerOnnxModelToGraph so inferred model graphName registry path = .ok g ∧
      Faithful model.graph g

/-- A positive integer, or a symbol with a name. -/
def Dim.Valid : Dim → Prop
  | .fixed n => 0 < n
  | .symbolic name => isBlank name = false

/-- The models that are lowered faithfully: the names of the nodes are distinct, names are not
blank, shapes are valid, text attributes can be decoded, no initializer is a graph input, and a
named dimension is that of the last shape that is declared for its value. -/
structure Lowerable (inferred : OnnxModel F → List ValueInfo) (model : OnnxModel F) : Prop where
  nodup : model.graph.nodeNames.Nodup
  notBlank : ∀ name ∈ model.graph.nodeNames, isBlank name = false
  notInput : model.graph.initializer = [] ∨ "input" ∉ model.graph.nodeNames
  values : ∀ e ∈ model.graph.values, isBlank e.1 = false ∧
    ∀ d ∈ (inferShapes inferred model).graph.shapeOf e.1, d.Valid
  attributes : ∀ node ∈ model.graph.node, ∀ e ∈ node.attributes, ∀ s, e.2 = .string s →
    s.IsValidUTF8
  initializers : ∀ init ∈ model.graph.initializer, init.name ∉ model.graph.input.map (·.name)
  symbols : ∀ v ∈ model.graph.input ++ model.graph.output ++ model.graph.valueInfo,
    ∀ (i : ℕ) (d : OnnxDim), v.shape[i]? = some d → d.dimParam ≠ "" →
      v.name ∈ model.graph.values.map Prod.fst ∧
        ((inferShapes inferred model).graph.shapeOf v.name)[i]? = some (Dim.symbolic d.dimParam)

theorem validateShapeElement_eq_ok {d : Dim} : validateShapeElement d = .ok () ↔ d.Valid := by
  cases d with
  | fixed n =>
    rw [validateShapeElement, Dim.Valid]
    split_ifs with h
    · simp only [false_iff]
      omega
    · simp only [true_iff]
      omega
  | symbolic name =>
    rw [validateShapeElement, Dim.Valid]
    cases isBlank name <;> simp

theorem acceptable_iff {og : OnnxGraph F} {x : String} : Acceptable (buildValueInfoMap og) x ↔
    isBlank x = false ∧ ∀ d ∈ og.shapeOf x, d.Valid := by
  simp only [Acceptable, validateShapeElement_eq_ok, buildValueInfoMap, Dict.get?_ofList,
    OnnxGraph.shapeOf]

theorem parse_isOk {v : AttributeValue F} :
    (∃ o, v.parse = .ok o) ↔ ∀ s, v = .string s → s.IsValidUTF8 := by
  cases v with
  | string s =>
    rw [AttributeValue.parse, String.fromUTF8?]
    by_cases h : s.IsValidUTF8
    · rw [dif_pos h]
      exact iff_of_true ⟨_, rfl⟩ fun s' hs => by cases hs; exact h
    · rw [dif_neg h]
      refine iff_of_false ?_ fun hall => h (hall s rfl)
      rintro ⟨_, ho⟩
      cases ho
  | int i => exact iff_of_true ⟨_, rfl⟩ fun _ hs => by cases hs
  | ints l => exact iff_of_true ⟨_, rfl⟩ fun _ hs => by cases hs
  | float x => exact iff_of_true ⟨_, rfl⟩ fun _ hs => by cases hs
  | floats l => exact iff_of_true ⟨_, rfl⟩ fun _ hs => by cases hs
  | other => exact iff_of_true ⟨_, rfl⟩ fun _ hs => by cases hs

/-- The attributes of a node can be converted if its texts can be decoded. -/
theorem parseAttrs_isOk {node : OnnxNode F} : (∃ attrs, parseAttrs node = .ok attrs) ↔
    ∀ e ∈ node.attributes, ∀ s, e.2 = .string s → s.IsValidUTF8 := by
  unfold parseAttrs
  generalize node.attributes = l
  generalize (Dict.empty : Dict String (PyData F)) = attrs
  induction l generalizing attrs with
  | nil => exact iff_of_true ⟨attrs, rfl⟩ (by simp)
  | cons e l ih =>
    rw [List.forall_mem_cons, ← parse_isOk]
    cases he : e.2.parse with
    | error _ =>
      refine iff_of_false ?_ fun h => ?_
      · rintro ⟨_, h⟩
        rw [List.foldlM_cons, he] at h
        cases h
      · obtain ⟨⟨_, h⟩, -⟩ := h
        cases h
    | ok o =>
      rw [and_iff_right ⟨o, rfl⟩]
      cases o with
      | some v =>
        rw [← ih (attrs.insert e.1 v), List.foldlM_cons, he]
        rfl
      | none =>
        rw [← ih attrs, List.foldlM_cons, he]
        rfl

/-- The mark of a value tells whether it is an initializer that is no graph input. -/
theorem firstFlag_values {og : OnnxGraph F} {x : String} {flag : Bool}
    (h : firstFlag og.values x = some flag) :
    flag = true ↔ x ∉ og.input.map (·.name) ∧ x ∈ og.initializer.map (·.name) := by
  have hmap : ∀ (l : List String) (b : Bool), firstFlag (l.map fun y => (y, b)) x =
      if x ∈ l then some b else none := by
    intro l b
    induction l with
    | nil => rfl
    | cons y l ih =>
      rw [List.map_cons, ← List.singleton_append, firstFlag_append, ih]
      by_cases hy : y = x
      · simp [firstFlag, hy]
      · simp [firstFlag, hy, Ne.symm hy]
  have hnodes : og.node.flatMap nodeValues =
      (og.node.flatMap fun node => node.inputs ++ node.outputs).map fun y => (y, false) := by
    rw [List.map_flatMap]
    rfl
  have hinputs : og.input.map (fun v => (v.name, false)) =
      (og.input.map (·.name)).map fun y => (y, false) := by
    rw [List.map_map]
    rfl
  have hinits : og.initializer.map (fun init => (init.name, true)) =
      (og.initializer.map (·.name)).map fun y => (y, true) := by
    rw [List.map_map]
    rfl
  rw [OnnxGraph.values, firstFlag_append, firstFlag_append, hinputs, hinits, hnodes, hmap, hmap,
    hmap] at h
  split_ifs at h with h₁ h₂ h₃
  all_goals simp_all

section Main

variable {inferred : OnnxModel F → List ValueInfo} {model : OnnxModel F} {g : WorkloadGraphV1 F}

theorem ssa_inferShapes (h : model.graph.Ssa) : (inferShapes inferred model).graph.Ssa :=
  ⟨h.outputs, h.fresh, h.sorted, h.irreflexive⟩

theorem Lowered.not_output (h : Lowered (inferShapes inferred model).graph g)
    (hssa : model.graph.Ssa) {init : Initializer} (hinit : init ∈ model.graph.initializer) :
    ∀ node ∈ g.nodes, init.name ∉ node.outputs := by
  intro node hnode hx
  obtain ⟨n, hn, -, houtputs⟩ := h.exists_node hnode
  rw [← houtputs] at hx
  exact (hssa.fresh n hn init.name hx).2 (List.mem_map_of_mem hinit)

theorem initializer_mem_values {init : Initializer} (hinit : init ∈ model.graph.initializer) :
    init.name ∈ model.graph.values.map Prod.fst := by
  refine List.mem_map.mpr ⟨(init.name, true), ?_, rfl⟩
  exact List.mem_append_left _ (List.mem_append_right _ (List.mem_map_of_mem hinit))

theorem Lowerable.faithful (hcond : Lowerable inferred model)
    (h : Lowered (inferShapes inferred model).graph g) (hssa : model.graph.Ssa)
    (hnodup : g.nodeIds.Nodup) : Faithful model.graph g where
  nodes := by
    have hzip := h.nodes
    have hall : List.Forall₂ (fun e node => onnxToWorkloadOp.get? e.1.opType = some node.opType ∧
        node.inputs = e.1.inputs ∧ node.outputs = e.1.outputs) model.graph.node.zipIdx g.nodes :=
      hzip.imp fun e node hnode => ⟨hnode.opType, hnode.inputs, hnode.outputs⟩
    rw [← List.zipIdx_map_fst 0 model.graph.node, List.forall₂_map_left_iff]
    exact hall
  nodeIds := hnodup
  tensors node hnode x hx := h.exists_tensor (h.node_values hnode hx)
  producers t ht node hnode := by
    obtain ⟨flag, hflag, -, -, hsome, hnone, -⟩ := h.tensor_spec (ssa_inferShapes hssa) ht
    have hid : node.nodeId ∈ model.graph.nodeNames :=
      h.nodeIds_eq ▸ List.mem_map_of_mem hnode
    constructor
    · intro hproducer
      by_cases hex : ∃ a ∈ g.nodes, t.tensorId ∈ a.outputs
      · obtain ⟨a, ha, hx⟩ := hex
        have heq := (hsome a ha hx).symm.trans hproducer
        rwa [← List.inj_on_of_nodup_map hnodup ha hnode heq]
      · have hinitial := hnone fun a ha hx => hex ⟨a, ha, hx⟩
        rw [hproducer] at hinitial
        cases flag with
        | false =>
          have hblank := hcond.notBlank _ hid
          rw [hinitial] at hblank
          cases hblank
        | true =>
          have hmem := ((firstFlag_values hflag).mp rfl).2
          rcases hcond.notInput with hnil | hnot
          · change _ ∈ model.graph.initializer.map _ at hmem
            rw [hnil] at hmem
            cases hmem
          · rw [hinitial] at hid
            exact absurd hid hnot
    · exact hsome node hnode
  consumers t ht := by
    obtain ⟨_, -, -, -, -, -, hconsumers⟩ := h.tensor_spec (ssa_inferShapes hssa) ht
    exact hconsumers
  initializers init hinit := by
    obtain ⟨t, ht, hid⟩ := h.exists_tensor (initializer_mem_values hinit)
    obtain ⟨flag, hflag, -, -, -, hnone, -⟩ := h.tensor_spec (ssa_inferShapes hssa) ht
    rw [hid] at hflag hnone
    have htrue : flag = true := (firstFlag_values hflag).mpr
      ⟨hcond.initializers init hinit, List.mem_map_of_mem hinit⟩
    have hproducer := hnone (h.not_output hssa hinit)
    rw [htrue] at hproducer
    exact ⟨t, ht, hid, hproducer⟩
  symbols v hv i d hd hparam := by
    obtain ⟨hmem, hshape⟩ := hcond.symbols v hv i d hd hparam
    obtain ⟨t, ht, hid⟩ := h.exists_tensor hmem
    obtain ⟨_, -, ht', -⟩ := h.tensor_spec (ssa_inferShapes hssa) ht
    refine ⟨t, ht, hid, ?_⟩
    rw [ht', hid]
    exact hshape

/-- A model with a faithful graph is one that can be lowered. -/
theorem Faithful.lowerable (hfaithful : Faithful model.graph g)
    (h : Lowered (inferShapes inferred model).graph g) (hssa : model.graph.Ssa)
    (hacceptable : ∀ e ∈ (inferShapes inferred model).graph.values,
      Acceptable (buildValueInfoMap (inferShapes inferred model).graph) e.1) :
    Lowerable inferred model where
  nodup := h.nodeIds_eq ▸ hfaithful.nodeIds
  notBlank name hname := by
    change name ∈ (inferShapes inferred model).graph.nodeNames at hname
    rw [← h.nodeIds_eq] at hname
    obtain ⟨node, hnode, rfl⟩ := List.mem_map.mp hname
    obtain ⟨e, -, hlowers⟩ := exists_mem_of_forall₂ h.nodes.flip hnode
    exact hlowers.notBlank
  notInput := by
    rw [or_iff_not_imp_left]
    intro hne hname
    obtain ⟨init, hinit⟩ := List.exists_mem_of_ne_nil _ hne
    obtain ⟨t, ht, hid, hproducer⟩ := hfaithful.initializers init hinit
    change "input" ∈ (inferShapes inferred model).graph.nodeNames at hname
    rw [← h.nodeIds_eq] at hname
    obtain ⟨node, hnode, hnodeId⟩ := List.mem_map.mp hname
    have hout := (hfaithful.producers t ht node hnode).mp (hproducer.trans hnodeId.symm)
    rw [hid] at hout
    exact h.not_output hssa hinit node hnode hout
  values e he := acceptable_iff.mp (hacceptable e he)
  attributes node hnode := by
    obtain ⟨i, hi, rfl⟩ := List.mem_iff_getElem.mp hnode
    have hzip : (model.graph.node[i], i) ∈ model.graph.node.zipIdx := by
      rw [List.mk_mem_zipIdx_iff_getElem?]
      exact List.getElem?_eq_getElem hi
    obtain ⟨spec, -, hlowers⟩ := exists_mem_of_forall₂ h.nodes hzip
    exact parseAttrs_isOk.mp hlowers.attributes
  initializers init hinit hinput := by
    obtain ⟨t, ht, hid, hproducer⟩ := hfaithful.initializers init hinit
    obtain ⟨flag, hflag, -, -, -, hnone, -⟩ := h.tensor_spec (ssa_inferShapes hssa) ht
    rw [hid] at hflag hnone
    rw [hnone (h.not_output hssa hinit)] at hproducer
    cases flag with
    | false => exact absurd hproducer (by decide)
    | true => exact ((firstFlag_values hflag).mp rfl).1 hinput
  symbols v hv i d hd hparam := by
    obtain ⟨t, ht, hid, hshape⟩ := hfaithful.symbols v hv i d hd hparam
    obtain ⟨_, -, ht', -⟩ := h.tensor_spec (ssa_inferShapes hssa) ht
    rw [ht', hid] at hshape
    exact ⟨hid ▸ h.mem_values_of_tensor ht, hshape⟩

/-- An SSA model with supported operators is lowered faithfully exactly when its names are
distinct and valid and no mark and no symbolic dimension gets lost. -/
theorem lowersFaithfully_iff (so : SetOrder) (inferred : OnnxModel F → List ValueInfo)
    (model : OnnxModel F) (graphName : String) (registry : OperatorRegistry) (path : String) :
    LowersFaithfully so inferred model graphName registry path ↔
      (model.graph.Ssa → model.graph.Supported registry → Lowerable inferred model) := by
  refine forall_congr' fun hssa => forall_congr' fun hsupported => ?_
  constructor
  · rintro ⟨g, hok, hfaithful⟩
    obtain ⟨hlowered, -, hacceptable⟩ := lowerOnnxModelToGraph_eq_ok hok
    exact hfaithful.lowerable hlowered hssa hacceptable
  · intro hcond
    obtain ⟨g, hok⟩ : ∃ g, lowerOnnxModelToGraph so inferred model graphName registry path = .ok g :=
      exists_lowerOnnxModelToGraph (ssa_inferShapes hssa) hsupported hcond.nodup hcond.notBlank
        (fun node hnode => parseAttrs_isOk.mpr (hcond.attributes node hnode))
        (fun e he => acceptable_iff.mpr (hcond.values e he))
    obtain ⟨hlowered, hnodup, -⟩ := lowerOnnxModelToGraph_eq_ok hok
    exact ⟨g, hok, hcond.faithful hlowered hssa hnodup⟩

end Main

/-- An initializer that is also a graph input is not marked. -/
theorem initializer_unmarked : ∃ model : OnnxModel ℚ, model.graph.Ssa ∧
    model.graph.Supported .default ∧
    ¬LowersFaithfully (WorkloadGraphV1.lateOrder fun _ => false) (fun _ => []) model "onnx" .default
      "<buffer>" := by
  let model : OnnxModel ℚ :=
    { graph :=
        { input := [{ name := "w" }]
          initializer := [{ name := "w" }]
          node := [{ opType := "Relu", input := ["w"], output := ["y"] }] } }
  have hssa : model.graph.Ssa :=
    { outputs := by decide, fresh := by decide, sorted := by decide, irreflexive := by decide }
  have hsupported : model.graph.Supported .default := by
    intro node hnode
    obtain rfl := List.mem_singleton.mp hnode
    exact ⟨"relu", by decide, ⟨"relu", .modeled⟩, OperatorRegistry.lookup_relu⟩
  refine ⟨model, hssa, hsupported, fun h => ?_⟩
  obtain ⟨g, hok, hfaithful⟩ := h hssa hsupported
  obtain ⟨hlowered, -, hacceptable⟩ := lowerOnnxModelToGraph_eq_ok hok
  have hcond := hfaithful.lowerable hlowered hssa hacceptable
  exact hcond.initializers _ List.mem_cons_self List.mem_cons_self

end Workloads

end NpuArc
