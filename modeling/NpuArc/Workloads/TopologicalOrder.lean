import NpuArc.Workloads.Validate

/-!
# Topological order of validated graphs

The sort respects the producers of tensors and the declared dependencies on other nodes. It
skips a dependency on an unknown node or on the node itself, and an output whose tensor names
no producer has no edge. Such an output is ordered before its consumers only where the levels
of the nodes happen to say so, since the nodes of one level come in any order of their set.
-/

namespace NpuArc

namespace Workloads

variable {F : Type}

/-! ### Links -/

namespace Links

variable {edges : List (String × String)} {u v : String}

theorem ofEdges_concat (edges : List (String × String)) (e : String × String) :
    ofEdges (edges ++ [e]) = (ofEdges edges).addEdge e := by
  rw [ofEdges, List.foldl_append, List.foldl_cons, List.foldl_nil, ofEdges]

theorem mem_adj : v ∈ (ofEdges edges).adj u ↔ (u, v) ∈ edges := by
  induction edges using List.reverseRecOn with
  | nil => simp [ofEdges]
  | append_singleton edges e ih =>
    rw [ofEdges_concat, List.mem_append, List.mem_singleton, ← ih, addEdge]
    obtain ⟨a, b⟩ := e
    split_ifs with hold
    · constructor
      · exact Or.inl
      · rintro (h | h)
        · exact h
        · cases h
          exact hold
    · by_cases hu : u = a
      · subst hu
        simp
      · simp [hu]

theorem adj_nodup (u : String) : ((ofEdges edges).adj u).Nodup := by
  induction edges using List.reverseRecOn with
  | nil => simp [ofEdges]
  | append_singleton edges e ih =>
    rw [ofEdges_concat, addEdge]
    split_ifs with hold
    · exact ih
    · by_cases hu : u = e.1
      · subst hu
        simp only [Function.update_self]
        rw [← List.concat_eq_append]
        exact ih.concat hold
      · simpa [hu] using ih

/-- The in-degree of a node is the number of its predecessors. -/
theorem inDegree_eq {nodes : List String} (hnodup : nodes.Nodup)
    (hsource : ∀ e ∈ edges, e.1 ∈ nodes) (v : String) : (ofEdges edges).inDegree v =
      (nodes.countP fun u => decide (v ∈ (ofEdges edges).adj u) : ℕ) := by
  simp only [mem_adj]
  induction edges using List.reverseRecOn with
  | nil => simp [ofEdges]
  | append_singleton edges e ih =>
    obtain ⟨a, b⟩ := e
    have ih := ih fun e he => hsource e (List.mem_append_left _ he)
    have ha : a ∈ nodes := hsource (a, b) (by simp)
    rw [ofEdges_concat, addEdge]
    split_ifs with hold
    · rw [mem_adj] at hold
      rw [ih]
      congr 1
      refine List.countP_congr fun u _ => ?_
      simp only [decide_eq_true_iff, List.mem_append, List.mem_singleton]
      refine (or_iff_left_of_imp ?_).symm
      intro h
      cases h
      exact hold
    · rw [mem_adj] at hold
      by_cases hv : v = b
      · subst hv
        have hcount := Kahn.Graph.countP_or_eq hnodup ha
          (p := fun u => decide ((u, v) ∈ edges)) (by simp [hold])
        have hnew : nodes.countP (fun u => decide ((u, v) ∈ edges ++ [(a, v)])) =
            nodes.countP (fun u => decide ((u, v) ∈ edges)) + 1 := by
          rw [← hcount]
          refine List.countP_congr fun u _ => ?_
          simp
        simp only [Function.update_self, ih, hnew]
        push_cast
        rfl
      · simp only [Function.update_of_ne hv, ih]
        congr 1
        refine List.countP_congr fun u _ => ?_
        simp [hv]

end Links

/-! ### The edges of a graph -/

/-- The producers that some tensors of a graph with distinct tensor ids name. -/
theorem get?_foldl_producer {tensors : List TensorSpec}
    (hnodup : (tensors.map (·.tensorId)).Nodup) (p : TensorSpec → Prop) [DecidablePred p]
    {id producer : String} :
    (tensors.foldl (fun map t => if p t then map.insert t.tensorId t.producerNode else map)
      (Dict.empty : Dict String String)).get? id = some producer ↔
      ∃ t ∈ tensors, p t ∧ t.tensorId = id ∧ t.producerNode = producer := by
  have hfold : tensors.foldl (fun map t => if p t then map.insert t.tensorId t.producerNode else map)
      (Dict.empty : Dict String String) =
      Dict.ofList ((tensors.filter fun t => decide (p t)).map fun t =>
        (t.tensorId, t.producerNode)) := by
    rw [Dict.ofList, List.foldl_map, List.foldl_filter]
    simp only [decide_eq_true_iff]
  have hkeys : (((tensors.filter fun t => decide (p t)).map fun t =>
      (t.tensorId, t.producerNode)).map Prod.fst).Nodup := by
    rw [List.map_map]
    exact hnodup.sublist (List.filter_sublist.map _)
  rw [hfold]
  constructor
  · intro h
    obtain ⟨t, ht, heq⟩ := List.mem_map.mp (Dict.mem_of_get?_ofList h)
    obtain ⟨ht, hp⟩ := List.mem_filter.mp ht
    cases heq
    exact ⟨t, ht, of_decide_eq_true hp, rfl, rfl⟩
  · rintro ⟨t, ht, hp, rfl, rfl⟩
    exact Dict.get?_ofList_of_mem hkeys
      (List.mem_map.mpr ⟨t, List.mem_filter.mpr ⟨ht, decide_eq_true hp⟩, rfl⟩)

namespace WorkloadGraphV1

variable {g : WorkloadGraphV1 F} {so : SetOrder} {u v : String}

/-- The edges that the sort knows: from the producers of inputs, and from the dependencies on
other nodes. -/
def Edge (g : WorkloadGraphV1 F) (u v : String) : Prop :=
  ∃ node ∈ g.nodes, node.nodeId = v ∧ u ∈ g.nodeIds ∧ u ≠ v ∧
    ((∃ inp ∈ node.inputs, g.producerMap.get? inp = some u) ∨ u ∈ node.dependencies)

theorem mem_dataEdges {node : NodeSpec F} {e : String × String} : e ∈ g.dataEdges node ↔
    e.2 = node.nodeId ∧ e.1 ∈ g.nodeIds ∧ e.1 ≠ node.nodeId ∧
      ∃ inp ∈ node.inputs, g.producerMap.get? inp = some e.1 := by
  unfold dataEdges
  rw [List.mem_filterMap]
  constructor
  · rintro ⟨inp, hinp, h⟩
    obtain ⟨producer, hproducer, h⟩ := Option.bind_eq_some_iff.mp h
    split_ifs at h with hmem
    cases h
    exact ⟨rfl, hmem.1, hmem.2, inp, hinp, hproducer⟩
  · rintro ⟨hnode, hid, hne, inp, hinp, hproducer⟩
    refine ⟨inp, hinp, Option.bind_eq_some_iff.mpr ⟨e.1, hproducer, ?_⟩⟩
    rw [if_pos ⟨hid, hne⟩, ← hnode]

theorem mem_dependencyEdges {node : NodeSpec F} {e : String × String} :
    e ∈ g.dependencyEdges node ↔
      e.2 = node.nodeId ∧ e.1 ∈ g.nodeIds ∧ e.1 ≠ node.nodeId ∧ e.1 ∈ node.dependencies := by
  unfold dependencyEdges
  rw [List.mem_filterMap]
  constructor
  · rintro ⟨dep, hdep, h⟩
    split_ifs at h with hmem
    cases h
    exact ⟨rfl, hmem.1, hmem.2, hdep⟩
  · rintro ⟨hnode, hid, hne, hdep⟩
    refine ⟨e.1, hdep, ?_⟩
    rw [if_pos ⟨hid, hne⟩, ← hnode]

/-- A list of the edges of a graph. -/
def ListsEdges (g : WorkloadGraphV1 F) (edges : List (String × String)) : Prop :=
  ∀ u v, (u, v) ∈ edges ↔ g.Edge u v

private theorem edge_iff : g.Edge u v ↔
    ∃ node ∈ g.nodes, (u, v) ∈ g.dataEdges node ∨ (u, v) ∈ g.dependencyEdges node := by
  unfold Edge
  simp only [mem_dataEdges, mem_dependencyEdges]
  refine exists_congr fun node => and_congr_right fun _ => ?_
  constructor
  · rintro ⟨rfl, hu, hne, h | h⟩
    · exact Or.inl ⟨rfl, hu, hne, h⟩
    · exact Or.inr ⟨rfl, hu, hne, h⟩
  · rintro (⟨rfl, hu, hne, h⟩ | ⟨rfl, hu, hne, h⟩)
    · exact ⟨rfl, hu, hne, Or.inl h⟩
    · exact ⟨rfl, hu, hne, Or.inr h⟩

theorem listsEdges_check (g : WorkloadGraphV1 F) :
    g.ListsEdges (g.nodes.flatMap g.dataEdges ++ g.nodes.flatMap g.dependencyEdges) := by
  intro u v
  rw [edge_iff, List.mem_append, List.mem_flatMap, List.mem_flatMap, ← exists_or]
  refine exists_congr fun node => ?_
  rw [and_or_left]

theorem listsEdges_order (g : WorkloadGraphV1 F) : g.ListsEdges
    (g.nodes.flatMap fun node => g.dataEdges node ++ g.dependencyEdges node) := by
  intro u v
  rw [edge_iff, List.mem_flatMap]
  simp only [List.mem_append]

theorem Edge.mem (h : g.Edge u v) : u ∈ g.nodeIds ∧ v ∈ g.nodeIds := by
  obtain ⟨node, hnode, rfl, hu, -⟩ := h
  exact ⟨hu, List.mem_map_of_mem hnode⟩

/-! ### The sort -/

/-- The graph that the sort runs on. -/
def sortGraph (so : SetOrder) (g : WorkloadGraphV1 F) {edges : List (String × String)}
    (hedges : g.ListsEdges edges) : Kahn.Graph String where
  nodes := so.iter g.nodeIds
  successors := successors so edges
  nodes_nodup := so.nodup _
  successors_nodup _ := so.nodup _
  successors_mem u v h := by
    rw [successors, so.mem, Links.mem_adj, hedges] at h
    rw [so.mem, so.mem]
    exact h.mem

variable {edges : List (String × String)} (hedges : g.ListsEdges edges)

theorem mem_successors : v ∈ (sortGraph so g hedges).successors u ↔ g.Edge u v := by
  change v ∈ so.iter _ ↔ _
  rw [so.mem, Links.mem_adj, hedges]

variable (so) in
theorem sortGraph_edge : (sortGraph so g hedges).Edge = g.Edge := by
  funext u v
  exact propext (mem_successors hedges)

theorem kahnOrder_eq : g.kahnOrder so edges = (sortGraph so g hedges).order := by
  have hdegree : ∀ v, (Links.ofEdges edges).inDegree v =
      ((sortGraph so g hedges).missing [] v : ℤ) := by
    intro v
    rw [Links.inDegree_eq (so.nodup g.nodeIds) fun e he =>
      (so.mem _ _).mpr ((hedges e.1 e.2).mp he).mem.1, Kahn.Graph.missing]
    congr 1
    refine List.countP_congr fun u _ => ?_
    simp only [Bool.and_eq_true, decide_eq_true_iff, List.not_mem_nil, not_false_iff, and_true]
    exact (so.mem _ _).symm
  have hstart : g.sortStart so edges = (sortGraph so g hedges).start := by
    unfold sortStart Kahn.Graph.start
    simp only [Kahn.State.mk.injEq]
    refine ⟨funext hdegree, ?_⟩
    refine List.filter_congr fun v _ => ?_
    rw [hdegree]
  rw [kahnOrder, hstart]
  rfl

include hedges in
/-- A complete sort respects the edges. -/
theorem precedes_kahnOrder (hperm : (g.kahnOrder so edges).Perm (so.iter g.nodeIds))
    (huv : g.Edge u v) : Precedes (g.kahnOrder so edges) u v := by
  have hmem := huv.mem
  have hrespects := (sortGraph so g hedges).order_respects
  rw [← kahnOrder_eq] at hrespects
  have hrelated : (g.kahnOrder so edges).Pairwise fun a b => ¬g.Edge b a :=
    hrespects.imp fun h hedge => h ((mem_successors hedges).mpr hedge)
  refine precedes_of_pairwise hrelated ?_ ?_ ?_ huv
  · exact hperm.mem_iff.mpr ((so.mem _ _).mpr hmem.1)
  · exact hperm.mem_iff.mpr ((so.mem _ _).mpr hmem.2)
  · obtain ⟨_, _, _, _, hne, _⟩ := huv
    exact hne

include hedges in
theorem kahnOrder_nodup : (g.kahnOrder so edges).Nodup := by
  rw [kahnOrder_eq hedges]
  exact (Kahn.Graph.order_nodup_mem _).1

variable (so) in
include hedges in
/-- The sort is complete exactly when the edges have a ranking. -/
theorem kahnOrder_complete : (g.kahnOrder so edges).Perm (so.iter g.nodeIds) ↔
    ∃ rank : String → ℕ, ∀ u v, g.Edge u v → rank u < rank v := by
  constructor
  · intro hperm
    exact ⟨fun v => (g.kahnOrder so edges).idxOf v, fun u v huv =>
      (precedes_kahnOrder hedges hperm huv).idxOf_lt (kahnOrder_nodup hedges)⟩
  · rintro ⟨rank, hrank⟩
    rw [kahnOrder_eq hedges]
    exact Kahn.Graph.order_perm_of_rank rank fun u v h =>
      hrank u v ((mem_successors hedges).mp h)

/-- The edges of a graph have a ranking. -/
def Ranked (g : WorkloadGraphV1 F) : Prop :=
  ∃ rank : String → ℕ, ∀ u v, g.Edge u v → rank u < rank v

/-- The cycle check accepts the graphs without self-loops whose edges have a ranking, whatever
the order of the sets. -/
theorem checkDagCycles_eq_ok : g.checkDagCycles so = .ok () ↔
    g.nodes = [] ∨ g.nodes.findSome? g.selfLoop = none ∧ g.Ranked := by
  unfold checkDagCycles
  by_cases hnodes : g.nodes = []
  · simp [hnodes]
  · rw [if_neg (by simpa using hnodes), or_iff_right hnodes]
    cases hloop : g.nodes.findSome? g.selfLoop with
    | some loop => simp
    | none =>
      have hcomplete := kahnOrder_complete so (listsEdges_check g)
      have hlength : (g.kahnOrder so (g.nodes.flatMap g.dataEdges ++
          g.nodes.flatMap g.dependencyEdges)).length = (so.iter g.nodeIds).length ↔ g.Ranked := by
        rw [Ranked, ← hcomplete, kahnOrder_eq (listsEdges_check g)]
        exact Kahn.Graph.order_perm_iff
      simp only [true_and]
      rw [← hlength]
      split_ifs with h
      · simp [h]
      · simpa using h

/-- The edges that the topological sort adds one after the other. -/
def sortEdges (g : WorkloadGraphV1 F) : List (String × String) :=
  g.nodes.flatMap fun node => g.dataEdges node ++ g.dependencyEdges node

/-- A graph that passes the cycle check has the order of the sort. -/
theorem topologicalOrder_eq_ok (h : g.checkDagCycles so = .ok ()) :
    g.topologicalOrder so = .ok (g.kahnOrder so g.sortEdges) := by
  unfold topologicalOrder
  rw [h, bind_eq_ok_left]
  cases hnodes : g.nodes with
  | cons node nodes =>
    rw [sortEdges, hnodes]
    rfl
  | nil =>
    have hids : so.iter g.nodeIds = [] := by
      rw [List.eq_nil_iff_forall_not_mem]
      intro a ha
      rw [so.mem, nodeIds, hnodes] at ha
      cases ha
    have horder : g.kahnOrder so g.sortEdges = [] := by
      rw [kahnOrder, hids]
      rfl
    rw [horder]
    rfl

theorem ranked_of_check (h : g.checkDagCycles so = .ok ()) : g.Ranked := by
  rcases checkDagCycles_eq_ok.mp h with hnodes | ⟨-, hranked⟩
  · refine ⟨fun _ => 0, fun u v huv => ?_⟩
    obtain ⟨node, hnode, -⟩ := huv
    rw [hnodes] at hnode
    cases hnode
  · exact hranked

theorem checkDuplicates_eq_ok {what field : String} {seen ids : List String} :
    checkDuplicates what field seen ids = .ok () ↔ ids.Nodup ∧ ∀ id ∈ ids, id ∉ seen := by
  induction ids generalizing seen with
  | nil => simp [checkDuplicates]
  | cons id ids ih =>
    rw [checkDuplicates, List.nodup_cons]
    split_ifs with hseen
    · simp [hseen]
    · rw [ih]
      simp only [List.mem_cons, not_or]
      grind

/-! ### What validation tells -/

/-- What the order of the nodes needs of a validated graph. -/
structure Validated (g : WorkloadGraphV1 F) : Prop where
  nodeIds : g.nodeIds.Nodup
  tensorIds : g.tensorIds.Nodup
  ranked : g.Ranked
  /-- A tensor that a node outputs has no other producer. -/
  output : ∀ node ∈ g.nodes, ∀ out ∈ node.outputs, ∀ t ∈ g.tensors, t.tensorId = out →
    t.producerNode = "" ∨ t.producerNode = node.nodeId
  /-- No node consumes its own output. -/
  noLoop : ∀ node ∈ g.nodes, ∀ out ∈ node.outputs, out ∉ node.inputs

theorem validated_of_validateAll {bindings : DimensionBindings} {registry : OperatorRegistry}
    (h : g.validateAll so bindings registry = .ok ()) :
    g.checkDagCycles so = .ok () ∧ g.Validated := by
  obtain ⟨_, hdag, h⟩ := bind_eq_ok.mp h
  obtain ⟨_, -, h⟩ := bind_eq_ok.mp h
  obtain ⟨_, -, h⟩ := bind_eq_ok.mp h
  obtain ⟨_, hduplicates, hdag⟩ := bind_eq_ok.mp hdag
  obtain ⟨_, hcycles, -⟩ := bind_eq_ok.mp hdag
  obtain ⟨_, hnodeIds, htensorIds⟩ := bind_eq_ok.mp hduplicates
  obtain ⟨_, -, h⟩ := bind_eq_ok.mp h
  obtain ⟨_, houtputs, hloops⟩ := bind_eq_ok.mp h
  have htensors := (checkDuplicates_eq_ok.mp htensorIds).1
  refine ⟨hcycles, (checkDuplicates_eq_ok.mp hnodeIds).1, htensors, ranked_of_check hcycles,
    ?_, ?_⟩
  · intro node hnode out hout t ht hid
    obtain ⟨_, -, hnodeOutputs⟩ := bind_eq_ok.mp (forM_eq_ok.mp houtputs node hnode)
    have hcheck := forM_eq_ok.mp hnodeOutputs out hout
    by_contra hother
    rw [not_or] at hother
    have hproducer : g.lifetimeProducers.get? out = some t.producerNode :=
      (get?_foldl_producer htensors (fun t => t.producerNode ≠ "")).mpr
        ⟨t, ht, hother.1, hid, rfl⟩
    unfold checkOutput at hcheck
    rw [hproducer] at hcheck
    dsimp only at hcheck
    rw [if_pos hother] at hcheck
    split_ifs at hcheck
  · intro node hnode out hout hinp
    have hcheck := forM_eq_ok.mp (forM_eq_ok.mp hloops node hnode) out hout
    rw [if_pos hinp] at hcheck
    cases hcheck

/-- Whether a graph is accepted does not depend on the order of the sets. -/
theorem validateAll_congr (so so' : SetOrder) (bindings : DimensionBindings)
    (registry : OperatorRegistry) (h : g.validateAll so bindings registry = .ok ()) :
    g.validateAll so' bindings registry = .ok () := by
  obtain ⟨_, hdag, h⟩ := bind_eq_ok.mp h
  obtain ⟨_, hduplicates, hdag⟩ := bind_eq_ok.mp hdag
  obtain ⟨_, hcycles, hdag⟩ := bind_eq_ok.mp hdag
  refine bind_eq_ok.mpr ⟨(), bind_eq_ok.mpr ⟨(), hduplicates, bind_eq_ok.mpr ⟨(), ?_, hdag⟩⟩, h⟩
  exact checkDagCycles_eq_ok.mpr (checkDagCycles_eq_ok.mp hcycles)

/-! ### Sound orders -/

/-- A topological order as declared: all nodes, each after its dependencies and after the
nodes that output its inputs. -/
structure Ordered (g : WorkloadGraphV1 F) (order : List String) : Prop where
  perm : order.Perm g.nodeIds
  dependencies : ∀ node ∈ g.nodes, ∀ dep ∈ node.dependencies, Precedes order dep node.nodeId
  dataflow : ∀ a ∈ g.nodes, ∀ out ∈ a.outputs, ∀ b ∈ g.nodes, b.nodeId ≠ a.nodeId →
    out ∈ b.inputs → Precedes order a.nodeId b.nodeId

/-- A node depends on another one, by declaration or because it takes its output. -/
def DependsOn (g : WorkloadGraphV1 F) (u v : String) : Prop :=
  ∃ b ∈ g.nodes, b.nodeId = v ∧
    (u ∈ b.dependencies ∨ ∃ a ∈ g.nodes, a.nodeId = u ∧ ∃ out ∈ a.outputs, out ∈ b.inputs)

/-- Some node depends on itself, directly or through others. -/
def HasCycle (g : WorkloadGraphV1 F) : Prop := ∃ v, Relation.TransGen g.DependsOn v v

/-- An accepted graph has a topological order as declared, and no cycle. -/
def OrdersSoundly (g : WorkloadGraphV1 F) (bindings : DimensionBindings)
    (registry : OperatorRegistry) : Prop :=
  ∀ so, g.validateAll so bindings registry = .ok () →
    (∃ order, g.topologicalOrder so = .ok order ∧ g.Ordered order) ∧ ¬g.HasCycle

/-- What the sort does not look at is in order anyway: every dependency names another node,
and where a node outputs a tensor without a producer, every chain of edges to it is outdone
by a longer one to each other consumer. -/
structure Declared (g : WorkloadGraphV1 F) : Prop where
  dependencies : ∀ node ∈ g.nodes, ∀ dep ∈ node.dependencies,
    dep ∈ g.nodeIds ∧ dep ≠ node.nodeId
  dataflow : ∀ a ∈ g.nodes, ∀ out ∈ a.outputs, ∀ b ∈ g.nodes, b.nodeId ≠ a.nodeId →
    out ∈ b.inputs → g.producerMap.get? out = none →
      ∀ n, Kahn.Graph.ChainTo g.Edge n a.nodeId → Kahn.Graph.ChainTo g.Edge (n + 1) b.nodeId

theorem Validated.perm (h : g.Validated) :
    (g.kahnOrder so g.sortEdges).Perm g.nodeIds := by
  have hiter : (so.iter g.nodeIds).Perm g.nodeIds := by
    rw [List.perm_ext_iff_of_nodup (so.nodup _) h.nodeIds]
    exact so.mem _
  exact ((kahnOrder_complete so (listsEdges_order g)).mpr h.ranked).trans hiter

/-- The sort respects the edges of a validated graph. -/
theorem Validated.precedes (h : g.Validated) (huv : g.Edge u v) :
    Precedes (g.kahnOrder so g.sortEdges) u v :=
  precedes_kahnOrder (listsEdges_order g) ((kahnOrder_complete so (listsEdges_order g)).mpr h.ranked)
    huv

/-- The sort of a graph with levels is sorted by them. -/
theorem kahnOrder_sorted {level : String → ℕ} (hlevel : Kahn.Graph.IsLevel g.Edge level) :
    (g.kahnOrder so g.sortEdges).Pairwise fun a b => level a ≤ level b := by
  have hedges := listsEdges_order g
  change g.ListsEdges g.sortEdges at hedges
  rw [kahnOrder_eq hedges]
  apply Kahn.Graph.order_sorted
  rwa [sortGraph_edge so]

/-- A consumer of an output has an edge from its producer, or the tensor has none. -/
theorem Validated.edge_or_none (h : g.Validated) {a b : NodeSpec F} (ha : a ∈ g.nodes)
    {out : String} (hout : out ∈ a.outputs) (hb : b ∈ g.nodes) (hne : b.nodeId ≠ a.nodeId)
    (hinp : out ∈ b.inputs) : g.Edge a.nodeId b.nodeId ∨ g.producerMap.get? out = none := by
  cases hproducer : g.producerMap.get? out with
  | none => exact Or.inr rfl
  | some producer =>
    left
    obtain ⟨t, ht, hp, hid, heq⟩ := (get?_foldl_producer h.tensorIds
      (fun t => t.producerNode ≠ "" ∧ t.producerNode ≠ "input")).mp hproducer
    have hnode := (h.output a ha out hout t ht hid).resolve_left hp.1
    rw [heq] at hnode
    subst hnode
    exact ⟨b, hb, rfl, List.mem_map_of_mem ha, Ne.symm hne, Or.inl ⟨out, hinp, hproducer⟩⟩

variable (so) in
theorem Validated.ordered (h : g.Validated) (hdeclared : g.Declared) :
    g.Ordered (g.kahnOrder so g.sortEdges) where
  perm := h.perm
  dependencies node hnode dep hdep := by
    obtain ⟨hid, hne⟩ := hdeclared.dependencies node hnode dep hdep
    exact h.precedes ⟨node, hnode, rfl, hid, hne, Or.inr hdep⟩
  dataflow a ha out hout b hb hne hinp := by
    rcases h.edge_or_none ha hout hb hne hinp with hedge | hnone
    · exact h.precedes hedge
    · obtain ⟨rank, hrank⟩ := h.ranked
      obtain ⟨level, hlevel⟩ := Kahn.Graph.exists_isLevel hrank
      have hlt := hlevel.lt_iff.mpr (hdeclared.dataflow a ha out hout b hb hne hinp hnone)
      refine precedes_of_pairwise (R := fun a b => level a < level b)
        ((kahnOrder_sorted hlevel).imp fun hle => Nat.not_lt.mpr hle) ?_ ?_ (Ne.symm hne) hlt
      · exact h.perm.mem_iff.mpr (List.mem_map_of_mem ha)
      · exact h.perm.mem_iff.mpr (List.mem_map_of_mem hb)

/-- A graph with an order as declared has no cycle. -/
theorem Validated.no_cycle (h : g.Validated) {order : List String} (hordered : g.Ordered order) :
    ¬g.HasCycle := by
  have hnodup : order.Nodup := hordered.perm.nodup_iff.mpr h.nodeIds
  have hlt : ∀ u v, g.DependsOn u v → order.idxOf u < order.idxOf v := by
    rintro u v ⟨b, hb, rfl, hdep | ⟨a, ha, rfl, out, hout, hinp⟩⟩
    · exact (hordered.dependencies b hb u hdep).idxOf_lt hnodup
    · refine (hordered.dataflow a ha out hout b hb ?_ hinp).idxOf_lt hnodup
      intro hid
      have hab := List.inj_on_of_nodup_map h.nodeIds hb ha hid
      subst hab
      exact h.noLoop b hb out hout hinp
  rintro ⟨v, hcycle⟩
  have hchain : ∀ w, Relation.TransGen g.DependsOn v w → order.idxOf v < order.idxOf w := by
    intro w hw
    induction hw with
    | single huv => exact hlt _ _ huv
    | tail _ huv ih => exact ih.trans (hlt _ _ huv)
  exact Nat.lt_irrefl _ (hchain v hcycle)

/-! ### Where the order goes wrong -/

/-- The order in which some strings come last. -/
def lateOrder (late : String → Bool) : SetOrder where
  iter l := (l.dedup.filter fun a => !late a) ++ l.dedup.filter late
  nodup l := by
    rw [List.nodup_append]
    refine ⟨l.nodup_dedup.filter _, l.nodup_dedup.filter _, ?_⟩
    rintro a ha b hb rfl
    have hearly := (List.mem_filter.mp ha).2
    have hlate := (List.mem_filter.mp hb).2
    simp [hlate] at hearly
  mem l a := by
    simp only [List.mem_append, List.mem_filter, List.mem_dedup]
    cases late a <;> simp

theorem lateOrder_pairwise (late : String → Bool) (l : List String) :
    ((lateOrder late).iter l).Pairwise fun a b => late a = true → late b = true := by
  unfold lateOrder
  rw [List.pairwise_append]
  refine ⟨?_, ?_, ?_⟩
  · apply List.pairwise_of_forall_mem_list
    intro a ha b _ hlate
    have hearly := (List.mem_filter.mp ha).2
    simp [hlate] at hearly
  · apply List.pairwise_of_forall_mem_list
    exact fun a _ b hb _ => (List.mem_filter.mp hb).2
  · exact fun a _ b hb _ => (List.mem_filter.mp hb).2

/-- If every order of the sets puts one node before another one, then it has a lower level. -/
theorem level_lt_of_precedes {level : String → ℕ} (hlevel : Kahn.Graph.IsLevel g.Edge level)
    (h : ∀ so, Precedes (g.kahnOrder so g.sortEdges) u v) : level u < level v := by
  classical
  obtain ⟨p, hclimb, htop⟩ := hlevel.exists_climb u
  let so := lateOrder fun a => decide (∃ i ≤ level u, a = p i)
  have hlast : ∀ l, Kahn.Graph.ClimbLast p (level u) (so.iter l) := by
    intro l
    refine (lateOrder_pairwise _ l).imp fun hab ha => ?_
    exact of_decide_eq_true (hab (decide_eq_true ha))
  have hedges := listsEdges_order g
  change g.ListsEdges g.sortEdges at hedges
  have hprecedes := h so
  rw [kahnOrder_eq hedges] at hprecedes
  rw [← sortGraph_edge so hedges] at hlevel hclimb
  exact hprecedes.of_pairwise (Kahn.Graph.order_lastOfLevel hlevel hclimb (hlast _)
    fun _ => hlast _) (level u) (Nat.le_refl _) htop.symm

/-- An accepted graph has a sound order, whatever the order of the sets, exactly when every
dependency names another node and the outputs without a producer are in order anyway. -/
theorem ordersSoundly_iff (g : WorkloadGraphV1 F) (bindings : DimensionBindings)
    (registry : OperatorRegistry) : g.OrdersSoundly bindings registry ↔
      ∀ so, g.validateAll so bindings registry = .ok () → g.Declared := by
  constructor
  · intro h so hok
    obtain ⟨-, hvalidated⟩ := validated_of_validateAll hok
    have hordered : ∀ so, g.Ordered (g.kahnOrder so g.sortEdges) := by
      intro so'
      have hok' := validateAll_congr so so' bindings registry hok
      obtain ⟨⟨order, horder, hordered⟩, -⟩ := h so' hok'
      rw [topologicalOrder_eq_ok (validated_of_validateAll hok').1] at horder
      cases horder
      exact hordered
    constructor
    · intro node hnode dep hdep
      have hprecedes := (hordered so).dependencies node hnode dep hdep
      refine ⟨(hordered so).perm.mem_iff.mp hprecedes.mem.1, fun heq => ?_⟩
      rw [heq] at hprecedes
      exact Nat.lt_irrefl _ (hprecedes.idxOf_lt ((hordered so).perm.nodup_iff.mpr hvalidated.nodeIds))
    · intro a ha out hout b hb hne hinp _
      obtain ⟨rank, hrank⟩ := hvalidated.ranked
      obtain ⟨level, hlevel⟩ := Kahn.Graph.exists_isLevel hrank
      exact hlevel.lt_iff.mp (level_lt_of_precedes hlevel fun so' =>
        (hordered so').dataflow a ha out hout b hb hne hinp)
  · intro h so hok
    obtain ⟨hcycles, hvalidated⟩ := validated_of_validateAll hok
    have hordered := hvalidated.ordered so (h so hok)
    exact ⟨⟨_, topologicalOrder_eq_ok hcycles, hordered⟩, hvalidated.no_cycle hordered⟩

/-- A dependency on a node that does not exist is accepted. -/
theorem ghost_dependency : ∃ b : DimensionBindings, ¬OrdersSoundly (F := ℚ)
    { nodes := [{ nodeId := "a", opType := "gemm", dependencies := ["ghost"] }] } b .default := by
  refine ⟨{ checked := rfl }, fun h => ?_⟩
  obtain ⟨⟨order, -, hordered⟩, -⟩ := h (lateOrder fun _ => false) (by
    refine bind_eq_ok.mpr ⟨(), rfl, bind_eq_ok.mpr ⟨(), rfl, bind_eq_ok.mpr ⟨(), ?_, rfl⟩⟩⟩
    refine forM_eq_ok.mpr fun node hnode => ?_
    obtain rfl := List.mem_singleton.mp hnode
    rw [OperatorRegistry.check_gemm]
    rfl)
  have hprecedes := hordered.dependencies _ List.mem_cons_self "ghost" List.mem_cons_self
  have hghost := hordered.perm.mem_iff.mp hprecedes.mem.1
  revert hghost
  decide

end WorkloadGraphV1

end Workloads

end NpuArc
