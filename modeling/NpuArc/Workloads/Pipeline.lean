import NpuArc.Workloads.TopologicalOrder

/-!
# Pipelines

In a pipeline, each node takes the output of the node before it and some graph inputs of its
own. A graph that realizes a pipeline passes all structural checks, and its topological order
is the order of the stages, whatever the order of the sets.
-/

namespace NpuArc

/-- A list in which neighbours of another list keep their order is that list. -/
theorem eq_of_perm_of_precedes {α : Type} {l l' : List α} (hperm : l.Perm l') (hl' : l'.Nodup)
    (h : ∀ i (hi : i + 1 < l'.length), Precedes l l'[i] l'[i + 1]) : l = l' := by
  classical
  have hl : l.Nodup := hperm.nodup_iff.mpr hl'
  have hsorted : l.Pairwise fun a b => l.idxOf a < l.idxOf b := by
    rw [List.pairwise_iff_getElem]
    intro i j hi hj hij
    rwa [hl.idxOf_getElem, hl.idxOf_getElem]
  have hchain : l'.Pairwise fun a b => l.idxOf a < l.idxOf b := by
    have htrans : IsTrans α fun a b => l.idxOf a < l.idxOf b := ⟨fun _ _ _ => Nat.lt_trans⟩
    rw [← List.isChain_iff_pairwise, List.isChain_iff_getElem]
    exact fun i hi => (h i hi).idxOf_lt hl
  refine hperm.eq_of_pairwise (fun a b _ _ hab hba => ?_) hsorted hchain
  omega

/-- A fold over a list with indices succeeds if each step keeps an invariant. -/
theorem foldlM_zipIdx_ok {ε α β : Type} {f : β → α × ℕ → Except ε β} (P : ℕ → β → Prop)
    (l : List α) {b : β} (hb : P 0 b)
    (step : ∀ k (hk : k < l.length) b, P k b → ∃ b', f b (l[k], k) = .ok b' ∧ P (k + 1) b') :
    ∃ r, l.zipIdx.foldlM f b = .ok r ∧ P l.length r := by
  induction l using List.reverseRecOn with
  | nil => exact ⟨b, rfl, hb⟩
  | append_singleton l a ih =>
    obtain ⟨r, hr, hP⟩ := ih fun k hk b hb => by
      have hlast := step k (by rw [List.length_append]; omega) b hb
      rwa [List.getElem_append_left hk] at hlast
    obtain ⟨r', hr', hP'⟩ := step l.length (by simp) r hP
    refine ⟨r', ?_, by simpa using hP'⟩
    rw [List.zipIdx_append, List.foldlM_append, hr]
    simp only [List.getElem_append_right (Nat.le_refl _), Nat.sub_self,
      List.getElem_cons_zero] at hr'
    simp only [bind_eq_ok_left, List.zipIdx_cons, List.zipIdx_nil, Nat.zero_add,
      List.foldlM_cons, List.foldlM_nil, hr']
    rfl

namespace Workloads

variable {F : Type}

theorem WorkloadGraphV1.checkKnown_eq_ok {known ids : List String} {error : String → Error} :
    checkKnown known error ids = .ok () ↔ ∀ id ∈ ids, id ∈ known := by
  unfold checkKnown
  rw [forM_eq_ok]
  refine forall₂_congr fun id _ => ?_
  split_ifs with h
  · simp [h]
  · simp [h]

/-- A tensor without its consumers. -/
def TensorSpec.unconsumed (t : TensorSpec) : TensorSpec := { t with consumedBy := [] }

/-- Nodes in a row. A stage adds graph inputs of its own and its output. -/
structure Pipeline (F : Type) where
  node : ℕ → NodeSpec F
  fresh : ℕ → List TensorSpec
  out : ℕ → TensorSpec

namespace Pipeline

/-- The tensors that a stage adds. -/
def added (p : Pipeline F) (i : ℕ) : List TensorSpec := p.fresh i ++ [p.out i]

/-- The links of a pipeline: each stage takes its own inputs and the output of the stage
before it, and depends on no stage but that one. -/
structure Linked (p : Pipeline F) : Prop where
  nodeId : ∀ i j, (p.node i).nodeId = (p.node j).nodeId → i = j
  nodeId_ne : ∀ i, (p.node i).nodeId ≠ "" ∧ (p.node i).nodeId ≠ "input"
  outId : ∀ i j, (p.out i).tensorId = (p.out j).tensorId → i = j
  freshId : ∀ i j, ∀ t ∈ p.fresh i, ∀ t' ∈ p.fresh j, t.tensorId = t'.tensorId → i = j
  freshIds : ∀ i, ((p.fresh i).map (·.tensorId)).Nodup
  freshId_ne : ∀ i j, ∀ t ∈ p.fresh i, t.tensorId ≠ (p.out j).tensorId
  shapes : ∀ i, ∀ t ∈ p.added i, ∀ d ∈ t.shape, ∃ size, d = .fixed size
  noAlias : ∀ i, ∀ t ∈ p.added i, t.aliasOf = none
  freshProducer : ∀ i, ∀ t ∈ p.fresh i, t.producerNode = "input"
  outProducer : ∀ i, (p.out i).producerNode = (p.node i).nodeId
  outputs : ∀ i, (p.node i).outputs = [(p.out i).tensorId]
  inputs_zero : (p.node 0).inputs = (p.fresh 0).map (·.tensorId)
  inputs_succ : ∀ i, (p.node (i + 1)).inputs =
    (p.out i).tensorId :: (p.fresh (i + 1)).map (·.tensorId)
  dependencies : ∀ i, ∀ dep ∈ (p.node i).dependencies, ∀ j, dep = (p.node j).nodeId → i = j + 1

/-- A graph of the first stages of a pipeline, in which any nodes may be listed as consumers. -/
structure Realizes (p : Pipeline F) (n : ℕ) (g : WorkloadGraphV1 F) : Prop where
  nodes : g.nodes = (List.range n).map p.node
  tensors : g.tensors.map (·.unconsumed) =
    ((List.range n).flatMap p.added).map (·.unconsumed)
  consumers : ∀ t ∈ g.tensors, ∀ id ∈ t.consumedBy, id ∈ g.nodeIds

/-! ### The tensors and edges of a realization -/

namespace Realizes

variable {p : Pipeline F} {n : ℕ} {g : WorkloadGraphV1 F}

theorem mem_nodes (h : p.Realizes n g) {node : NodeSpec F} :
    node ∈ g.nodes ↔ ∃ i < n, p.node i = node := by
  rw [h.nodes, List.mem_map]
  simp only [List.mem_range]

theorem nodeIds_eq (h : p.Realizes n g) :
    g.nodeIds = (List.range n).map fun i => (p.node i).nodeId := by
  rw [WorkloadGraphV1.nodeIds, h.nodes, List.map_map]
  rfl

theorem mem_nodeIds (h : p.Realizes n g) {id : String} :
    id ∈ g.nodeIds ↔ ∃ i < n, (p.node i).nodeId = id := by
  rw [h.nodeIds_eq, List.mem_map]
  simp only [List.mem_range]

/-- Each tensor of the graph is one that a stage adds, up to its consumers. -/
theorem exists_stage (h : p.Realizes n g) {t : TensorSpec} (ht : t ∈ g.tensors) :
    ∃ i < n, ∃ t' ∈ p.added i, t'.unconsumed = t.unconsumed := by
  have hmem : t.unconsumed ∈ ((List.range n).flatMap p.added).map (·.unconsumed) := by
    rw [← h.tensors]
    exact List.mem_map_of_mem ht
  obtain ⟨t', ht', heq⟩ := List.mem_map.mp hmem
  obtain ⟨i, hi, ht'⟩ := List.mem_flatMap.mp ht'
  exact ⟨i, List.mem_range.mp hi, t', ht', heq⟩

theorem exists_tensor (h : p.Realizes n g) {i : ℕ} (hi : i < n) {t : TensorSpec}
    (ht : t ∈ p.added i) : ∃ t' ∈ g.tensors, t'.unconsumed = t.unconsumed := by
  have hmem : t.unconsumed ∈ g.tensors.map (·.unconsumed) := by
    rw [h.tensors]
    exact List.mem_map_of_mem (List.mem_flatMap.mpr ⟨i, List.mem_range.mpr hi, ht⟩)
  exact List.mem_map.mp hmem

theorem tensorIds_eq (h : p.Realizes n g) :
    g.tensorIds = (List.range n).flatMap fun i => (p.added i).map (·.tensorId) := by
  have hids := congrArg (List.map TensorSpec.tensorId) h.tensors
  rw [List.map_map, List.map_map, List.map_flatMap] at hids
  exact hids

theorem mem_tensorIds (h : p.Realizes n g) {i : ℕ} (hi : i < n) {t : TensorSpec}
    (ht : t ∈ p.added i) : t.tensorId ∈ g.tensorIds := by
  rw [h.tensorIds_eq]
  exact List.mem_flatMap.mpr ⟨i, List.mem_range.mpr hi, List.mem_map_of_mem ht⟩

section Linked

variable (hp : p.Linked)

include hp

theorem nodeIds_nodup (h : p.Realizes n g) : g.nodeIds.Nodup := by
  rw [h.nodeIds_eq]
  exact List.nodup_range.map fun i j hij => hp.nodeId i j hij

theorem tensorIds_nodup (h : p.Realizes n g) : g.tensorIds.Nodup := by
  rw [h.tensorIds_eq, List.nodup_flatMap]
  constructor
  · intro i _
    rw [added, List.map_append, List.map_singleton, ← List.concat_eq_append]
    refine (hp.freshIds i).concat fun hmem => ?_
    obtain ⟨t, ht, heq⟩ := List.mem_map.mp hmem
    exact hp.freshId_ne i i t ht heq
  · refine List.nodup_range.imp_of_mem fun {i j} _ _ hij => ?_
    rw [Function.onFun_apply, List.disjoint_left]
    intro id hi hj
    obtain ⟨t, ht, rfl⟩ := List.mem_map.mp hi
    obtain ⟨t', ht', heq⟩ := List.mem_map.mp hj
    rw [added, List.mem_append, List.mem_singleton] at ht ht'
    rcases ht with ht | rfl
    · rcases ht' with ht' | rfl
      · exact hij (hp.freshId i j t ht t' ht' heq.symm)
      · exact hp.freshId_ne i j t ht heq.symm
    · rcases ht' with ht' | rfl
      · exact hp.freshId_ne j i t' ht' heq
      · exact hij (hp.outId i j heq.symm)

/-- A tensor is a graph input or the output of its stage. -/
theorem producer_cases (h : p.Realizes n g) {t : TensorSpec} (ht : t ∈ g.tensors) :
    t.producerNode = "input" ∧ (∀ j, t.tensorId ≠ (p.out j).tensorId) ∨
      ∃ i < n, t.tensorId = (p.out i).tensorId ∧ t.producerNode = (p.node i).nodeId := by
  obtain ⟨i, hi, t', ht', heq⟩ := h.exists_stage ht
  have hproducer := congrArg TensorSpec.producerNode heq
  have hid := congrArg TensorSpec.tensorId heq
  dsimp only [TensorSpec.unconsumed] at hproducer hid
  rw [← hproducer, ← hid]
  rcases List.mem_append.mp ht' with ht' | ht'
  · exact Or.inl ⟨hp.freshProducer i t' ht', fun j => hp.freshId_ne i j t' ht'⟩
  · obtain rfl := List.mem_singleton.mp ht'
    exact Or.inr ⟨i, hi, rfl, hp.outProducer i⟩

/-- The producers of the graph are the stages of the outputs. -/
theorem get?_producerMap (h : p.Realizes n g) {id producer : String} :
    g.producerMap.get? id = some producer ↔
      ∃ i < n, (p.out i).tensorId = id ∧ (p.node i).nodeId = producer := by
  refine (get?_foldl_producer (h.tensorIds_nodup hp)
    (fun t => t.producerNode ≠ "" ∧ t.producerNode ≠ "input")).trans ?_
  constructor
  · rintro ⟨t, ht, hne, rfl, rfl⟩
    rcases h.producer_cases hp ht with hinput | ⟨i, hi, hid, hproducer⟩
    · exact absurd hinput.1 hne.2
    · exact ⟨i, hi, hid.symm, hproducer.symm⟩
  · rintro ⟨i, hi, rfl, rfl⟩
    obtain ⟨t, ht, heq⟩ := h.exists_tensor hi (t := p.out i) (by simp [added])
    have hproducer := congrArg TensorSpec.producerNode heq
    have hid := congrArg TensorSpec.tensorId heq
    dsimp only [TensorSpec.unconsumed] at hproducer hid
    rw [hp.outProducer] at hproducer
    refine ⟨t, ht, ?_, hid, hproducer⟩
    rw [hproducer]
    exact hp.nodeId_ne i

/-- A stage takes an output exactly if it is that of the stage before it. -/
theorem out_mem_inputs {i j : ℕ} :
    (p.out j).tensorId ∈ (p.node i).inputs ↔ i = j + 1 := by
  cases i with
  | zero =>
    rw [hp.inputs_zero, List.mem_map]
    constructor
    · rintro ⟨t, ht, heq⟩
      exact absurd heq (hp.freshId_ne 0 j t ht)
    · intro h
      omega
  | succ i =>
    rw [hp.inputs_succ, List.mem_cons, List.mem_map]
    constructor
    · rintro (heq | ⟨t, ht, heq⟩)
      · rw [hp.outId j i heq]
      · exact absurd heq (hp.freshId_ne (i + 1) j t ht)
    · intro h
      obtain rfl : i = j := by omega
      exact Or.inl rfl

/-- The edges of the graph lead from each stage to the next one. -/
theorem edge_iff (h : p.Realizes n g) {u v : String} : g.Edge u v ↔
    ∃ i, i + 1 < n ∧ (p.node i).nodeId = u ∧ (p.node (i + 1)).nodeId = v := by
  constructor
  · rintro ⟨node, hnode, rfl, hu, -, hcase⟩
    obtain ⟨i, hi, rfl⟩ := h.mem_nodes.mp hnode
    obtain ⟨j, hj, rfl⟩ := h.mem_nodeIds.mp hu
    have hij : i = j + 1 := by
      rcases hcase with ⟨inp, hinp, hproducer⟩ | hdep
      · obtain ⟨k, -, rfl, hid⟩ := (h.get?_producerMap hp).mp hproducer
        rw [← hp.nodeId k j hid]
        exact (out_mem_inputs hp).mp hinp
      · exact hp.dependencies i _ hdep j rfl
    subst hij
    exact ⟨j, hi, rfl, rfl⟩
  · rintro ⟨i, hi, rfl, rfl⟩
    refine ⟨p.node (i + 1), h.mem_nodes.mpr ⟨i + 1, hi, rfl⟩, rfl,
      h.mem_nodeIds.mpr ⟨i, by omega, rfl⟩, ?_, Or.inl ⟨(p.out i).tensorId, ?_, ?_⟩⟩
    · intro heq
      have := hp.nodeId i (i + 1) heq
      omega
    · exact (out_mem_inputs hp).mpr rfl
    · exact (h.get?_producerMap hp).mpr ⟨i, by omega, rfl, rfl⟩

/-- The inputs of a stage are known tensors. -/
theorem inputs_mem (h : p.Realizes n g) {i : ℕ} (hi : i < n) :
    ∀ inp ∈ (p.node i).inputs, inp ∈ g.tensorIds := by
  intro inp hinp
  have hfresh : ∀ k < n, inp ∈ (p.fresh k).map (·.tensorId) → inp ∈ g.tensorIds := by
    intro k hk hmem
    obtain ⟨t, ht, rfl⟩ := List.mem_map.mp hmem
    exact h.mem_tensorIds hk (List.mem_append_left _ ht)
  cases i with
  | zero =>
    rw [hp.inputs_zero] at hinp
    exact hfresh 0 hi hinp
  | succ i =>
    rw [hp.inputs_succ] at hinp
    rcases List.mem_cons.mp hinp with rfl | hinp
    · exact h.mem_tensorIds (i := i) (by omega) (by simp [added])
    · exact hfresh (i + 1) hi hinp

theorem outputs_mem (h : p.Realizes n g) {i : ℕ} (hi : i < n) :
    ∀ out ∈ (p.node i).outputs, out ∈ g.tensorIds := by
  intro out hout
  rw [hp.outputs, List.mem_singleton] at hout
  subst hout
  exact h.mem_tensorIds hi (by simp [added])

theorem producer_mem (h : p.Realizes n g) {t : TensorSpec} (ht : t ∈ g.tensors) :
    t.producerNode ∈ "input" :: g.nodeIds := by
  rcases h.producer_cases hp ht with ⟨hinput, -⟩ | ⟨i, hi, -, hproducer⟩
  · rw [hinput]
    exact List.mem_cons_self
  · rw [hproducer]
    exact List.mem_cons_of_mem _ (h.mem_nodeIds.mpr ⟨i, hi, rfl⟩)

/-! ### The checks -/

theorem checkDagCycles_eq_ok (h : p.Realizes n g) (so : SetOrder) :
    g.checkDagCycles so = .ok () := by
  refine WorkloadGraphV1.checkDagCycles_eq_ok.mpr (Or.inr ⟨?_, ?_⟩)
  · rw [List.findSome?_eq_none_iff]
    intro node hnode
    obtain ⟨i, -, rfl⟩ := h.mem_nodes.mp hnode
    rw [WorkloadGraphV1.selfLoop, Option.map_eq_none_iff, List.find?_eq_none]
    intro inp hinp hloop
    obtain ⟨k, -, rfl, hid⟩ := (h.get?_producerMap hp).mp (of_decide_eq_true hloop)
    have hik := (out_mem_inputs hp).mp hinp
    have hki := hp.nodeId k i hid
    omega
  · refine ⟨fun v => g.nodeIds.idxOf v, fun u v huv => ?_⟩
    obtain ⟨i, hi, rfl, rfl⟩ := (h.edge_iff hp).mp huv
    dsimp only
    have hidx : ∀ k < n, g.nodeIds.idxOf (p.node k).nodeId = k := by
      intro k hk
      have hget := (h.nodeIds_nodup hp).idxOf_getElem k
        (by rw [h.nodeIds_eq, List.length_map, List.length_range]; exact hk)
      simpa only [h.nodeIds_eq, List.getElem_map, List.getElem_range] using hget
    rw [hidx i (by omega), hidx (i + 1) hi]
    omega

theorem checkDuplicateIds_eq_ok (h : p.Realizes n g) : g.checkDuplicateIds = .ok () := by
  refine bind_eq_ok.mpr ⟨(), ?_, ?_⟩
  · exact WorkloadGraphV1.checkDuplicates_eq_ok.mpr ⟨h.nodeIds_nodup hp, by simp⟩
  · exact WorkloadGraphV1.checkDuplicates_eq_ok.mpr ⟨h.tensorIds_nodup hp, by simp⟩

theorem checkTensorReferences_eq_ok (h : p.Realizes n g) : g.checkTensorReferences = .ok () := by
  refine bind_eq_ok.mpr ⟨(), forM_eq_ok.mpr fun node hnode => ?_,
    forM_eq_ok.mpr fun t ht => ?_⟩
  · obtain ⟨i, hi, rfl⟩ := h.mem_nodes.mp hnode
    refine bind_eq_ok.mpr ⟨(), ?_, ?_⟩
    · exact WorkloadGraphV1.checkKnown_eq_ok.mpr (h.inputs_mem hp hi)
    · exact WorkloadGraphV1.checkKnown_eq_ok.mpr (h.outputs_mem hp hi)
  · rw [if_neg fun hmem => hmem.2 (h.producer_mem hp ht)]
    exact WorkloadGraphV1.checkKnown_eq_ok.mpr fun id hid =>
      List.mem_cons_of_mem _ (h.consumers t ht id hid)

theorem checkAliasValidity_eq_ok (h : p.Realizes n g) : g.checkAliasValidity = .ok () := by
  refine forM_eq_ok.mpr fun t ht => ?_
  obtain ⟨i, -, t', ht', heq⟩ := h.exists_stage ht
  have halias := congrArg TensorSpec.aliasOf heq
  dsimp only [TensorSpec.unconsumed] at halias
  rw [← halias, hp.noAlias i t' ht']

/-- A realization passes the checks of its construction. -/
theorem validateGraphDag_eq_ok (h : p.Realizes n g) (so : SetOrder) :
    g.validateGraphDag so = .ok () :=
  bind_eq_ok.mpr ⟨(), h.checkDuplicateIds_eq_ok hp, bind_eq_ok.mpr ⟨(), h.checkDagCycles_eq_ok hp so,
    bind_eq_ok.mpr ⟨(), h.checkTensorReferences_eq_ok hp, h.checkAliasValidity_eq_ok hp⟩⟩⟩

theorem validate_eq_ok (h : p.Realizes n g) (so : SetOrder) (hversion : g.version = "1") :
    g.validate so = .ok g :=
  WorkloadGraphV1.validate_eq_ok.mpr ⟨rfl, hversion, h.validateGraphDag_eq_ok hp so⟩

/-- The topological order of a realization is the order of its stages. -/
theorem topologicalOrder_eq (h : p.Realizes n g) (so : SetOrder) :
    g.topologicalOrder so = .ok ((List.range n).map fun i => (p.node i).nodeId) := by
  have hcheck := h.checkDagCycles_eq_ok hp so
  have hranked := WorkloadGraphV1.ranked_of_check hcheck
  have hedges := WorkloadGraphV1.listsEdges_order g
  have hnodup := h.nodeIds_nodup hp
  have hperm := (WorkloadGraphV1.kahnOrder_complete so hedges).mpr hranked
  have hiter : (so.iter g.nodeIds).Perm g.nodeIds := by
    rw [List.perm_ext_iff_of_nodup (so.nodup _) hnodup]
    exact so.mem _
  rw [WorkloadGraphV1.topologicalOrder_eq_ok hcheck, ← h.nodeIds_eq]
  congr 1
  refine eq_of_perm_of_precedes (hperm.trans hiter) hnodup fun i hi => ?_
  refine WorkloadGraphV1.precedes_kahnOrder hedges hperm ((h.edge_iff hp).mpr ⟨i, ?_, ?_, ?_⟩)
  · rwa [h.nodeIds_eq, List.length_map, List.length_range] at hi
  · simp only [h.nodeIds_eq, List.getElem_map, List.getElem_range]
  · simp only [h.nodeIds_eq, List.getElem_map, List.getElem_range]

theorem validateDimensions_eq_ok (h : p.Realizes n g) (b : DimensionBindings) :
    g.validateDimensions b = .ok () := by
  have hsymbols : g.usedSymbols = [] := by
    rw [WorkloadGraphV1.usedSymbols, List.flatMap_eq_nil_iff]
    intro t ht
    obtain ⟨i, -, t', ht', heq⟩ := h.exists_stage ht
    have hshape := congrArg TensorSpec.shape heq
    dsimp only [TensorSpec.unconsumed] at hshape
    rw [← hshape, List.filterMap_eq_nil_iff]
    intro d hd
    obtain ⟨size, rfl⟩ := hp.shapes i t' ht' d hd
    rfl
  unfold WorkloadGraphV1.validateDimensions
  rw [hsymbols]
  rfl

theorem validateTensorLifetime_eq_ok (h : p.Realizes n g) : g.validateTensorLifetime = .ok () := by
  refine bind_eq_ok.mpr ⟨(), forM_eq_ok.mpr fun t ht => ?_, bind_eq_ok.mpr ⟨(),
    forM_eq_ok.mpr fun node hnode => ?_, forM_eq_ok.mpr fun node hnode => ?_⟩⟩
  · rw [if_neg fun hmem => hmem.2 (h.producer_mem hp ht)]
    exact WorkloadGraphV1.checkKnown_eq_ok.mpr fun id hid =>
      List.mem_cons_of_mem _ (h.consumers t ht id hid)
  · obtain ⟨i, hi, rfl⟩ := h.mem_nodes.mp hnode
    refine bind_eq_ok.mpr ⟨(), WorkloadGraphV1.checkKnown_eq_ok.mpr (h.inputs_mem hp hi),
      forM_eq_ok.mpr fun out hout => ?_⟩
    have hknown := h.outputs_mem hp hi out hout
    rw [hp.outputs, List.mem_singleton] at hout
    subst hout
    unfold WorkloadGraphV1.checkOutput
    rw [if_neg (not_not_intro hknown)]
    cases hproducer : g.lifetimeProducers.get? (p.out i).tensorId with
    | none => rfl
    | some producer =>
      obtain ⟨t, ht, -, hid, rfl⟩ := (get?_foldl_producer (h.tensorIds_nodup hp)
        (fun t => t.producerNode ≠ "")).mp hproducer
      dsimp only
      rcases h.producer_cases hp ht with ⟨-, hinput⟩ | ⟨j, -, hj, hproducer⟩
      · exact absurd hid (hinput i)
      · rw [hproducer, hp.outId i j (hid.symm.trans hj), if_neg fun hne => hne.2 rfl]
  · obtain ⟨i, hi, rfl⟩ := h.mem_nodes.mp hnode
    refine forM_eq_ok.mpr fun out hout => ?_
    rw [hp.outputs, List.mem_singleton] at hout
    subst hout
    rw [if_neg fun hmem => ?_]
    have hii := (out_mem_inputs hp).mp hmem
    omega

/-- A realization with supported operators is accepted whatever the bindings. -/
theorem validateAll_eq_ok (h : p.Realizes n g) (so : SetOrder) (b : DimensionBindings)
    (registry : OperatorRegistry)
    (hops : ∀ i < n, registry.check (p.node i).opType ≠ .unsupported) :
    g.validateAll so b registry = .ok () := by
  refine bind_eq_ok.mpr ⟨(), h.validateGraphDag_eq_ok hp so, bind_eq_ok.mpr ⟨(),
    h.validateDimensions_eq_ok hp b, bind_eq_ok.mpr ⟨(), forM_eq_ok.mpr fun node hnode => ?_,
    h.validateTensorLifetime_eq_ok hp⟩⟩⟩
  obtain ⟨i, hi, rfl⟩ := h.mem_nodes.mp hnode
  rw [if_neg (hops i hi)]

end Linked

end Realizes

end Pipeline

end Workloads

end NpuArc
