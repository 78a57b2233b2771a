import NpuArc.Memory.Spill

/-!
# Aliases in a plan

The planner checks that an alias has a target of the same size, and from there on an alias
is a tensor like any other: it is placed at its own turn, from the space that the earlier
items leave, and allocates its own bytes. What it shares with its target is only what two
tensors of the same size share. An alias that takes no bytes disturbs nothing.
-/

namespace NpuArc

namespace Residency

open TiedSort

variable {py : Builtins} {graph graph' : WorkloadGraph} {hierarchy : MemoryHierarchy}
  {residentModels : ℤ} {queueBuffers : Dict String ℤ} {allowSpill : Bool} {t : TensorSpec}

/-! ### Forgetting the aliases -/

/-- A tensor that is an alias of nothing. -/
def withoutAlias (t : TensorSpec) : TensorSpec := { t with aliasOf := none }

/-- The graph without its aliases. -/
def withoutAliases (graph : WorkloadGraph) : WorkloadGraph where
  nodes := graph.nodes
  tensors := graph.tensors.map withoutAlias
  nodeIds_nodup := graph.nodeIds_nodup
  tensorIds_nodup := by
    rw [List.map_map]
    exact graph.tensorIds_nodup
  producer_mem t ht := by
    obtain ⟨u, hu, rfl⟩ := List.mem_map.mp ht
    exact graph.producer_mem u hu
  alias_mem t ht a ha := by
    obtain ⟨u, -, rfl⟩ := List.mem_map.mp ht
    cases ha

/-- A classified tensor that is an alias of nothing. -/
def forget (item : TensorSpec × Category) : TensorSpec × Category :=
  (withoutAlias item.1, item.2)

theorem aliasesValid_withoutAliases (graph : WorkloadGraph) :
    AliasesValid (withoutAliases graph) := by
  apply forM_eq_ok.mpr
  intro t ht
  obtain ⟨u, -, rfl⟩ := List.mem_map.mp ht
  rfl

theorem sortedTensors_withoutAliases :
    sortedTensors py (withoutAliases graph) = (sortedTensors py graph).map forget := by
  have hclassified : classified py (withoutAliases graph) =
      (classified py graph).map forget := by
    unfold classified withoutAliases
    rw [List.map_map, List.map_map]
    rfl
  rw [sortedTensors_eq, sortedTensors_eq, hclassified]
  exact (List.map_insertionSort PlacedBefore PlacedBefore forget _ fun _ _ _ _ => Iff.rfl).symm

/-- Placement does not look at the alias. -/
theorem placeAll_forget (models : ℕ) (items : List (TensorSpec × Category)) (a : TierBytes) :
    placeAll (placeItem hierarchy models) (items.map forget) a =
      placeAll (placeItem hierarchy models) items a := by
  induction items generalizing a with
  | nil => rfl
  | cons item items ih =>
    rw [List.map_cons, placeAll, placeAll]
    simp only [ih]
    rfl

/-- Locating the items of a graph checks its aliases and then forgets them. -/
theorem locate_withoutAliases (r : List Located × TierBytes) :
    locate py graph hierarchy residentModels queueBuffers = .ok r ↔
      AliasesValid graph ∧
        locate py (withoutAliases graph) hierarchy residentModels queueBuffers = .ok r := by
  obtain ⟨ls, b⟩ := r
  have hitems : ∀ a, placeAll (placeItem hierarchy residentModels.toNat)
      (sortedTensors py (withoutAliases graph)) a =
        placeAll (placeItem hierarchy residentModels.toNat) (sortedTensors py graph) a := by
    intro a
    rw [sortedTensors_withoutAliases, placeAll_forget]
  have hvalid := aliasesValid_withoutAliases graph
  rw [locate_eq_ok, locate_eq_ok]
  constructor
  · rintro ⟨hmodels, htiers, haliases, tensors, a, buffers, htensors, hbuffers, rfl⟩
    exact ⟨haliases, hmodels, htiers, hvalid, tensors, a, buffers,
      (hitems _).trans htensors, hbuffers, rfl⟩
  · rintro ⟨haliases, hmodels, htiers, -, tensors, a, buffers, htensors, hbuffers, rfl⟩
    exact ⟨hmodels, htiers, haliases, tensors, a, buffers,
      (hitems _).symm.trans htensors, hbuffers, rfl⟩

/-- The plan of a graph with valid aliases is the plan of the graph without them. -/
theorem plan_withoutAliases {plan : MemoryAccessPlan} :
    buildMemoryAccessPlan py graph hierarchy residentModels queueBuffers allowSpill = .ok plan ↔
      AliasesValid graph ∧ buildMemoryAccessPlan py (withoutAliases graph) hierarchy
        residentModels queueBuffers allowSpill = .ok plan := by
  rw [buildMemoryAccessPlan_eq_ok, buildMemoryAccessPlan_eq_ok]
  constructor
  · rintro ⟨ls, b, hlocate, hrest⟩
    obtain ⟨hvalid, hlocate⟩ := (locate_withoutAliases _).mp hlocate
    exact ⟨hvalid, ls, b, hlocate, hrest⟩
  · rintro ⟨hvalid, ls, b, hlocate, hrest⟩
    exact ⟨ls, b, (locate_withoutAliases _).mpr ⟨hvalid, hlocate⟩, hrest⟩

/-! ### Space that is not taken -/

theorem bytesIn_eq_zero {parts : List (String × ℕ)} (h : placedBytes parts = 0) (name : String) :
    bytesIn name parts = 0 := by
  induction parts with
  | nil => rfl
  | cons part parts ih =>
    rw [placedBytes_cons, Nat.add_eq_zero_iff] at h
    rw [bytesIn_cons, ih h.2, h.1, ite_self]

/-- Parts without bytes leave the allocations as they are. -/
theorem addParts_of_none_placed {a : TierBytes} {parts : List (String × ℕ)}
    (h : placedBytes parts = 0) : a.addParts parts = a := by
  funext name
  unfold TierBytes.addParts
  rw [bytesIn_eq_zero h, Nat.add_zero]

/-- Whether items can be placed does not depend on the allocations. -/
theorem placeAll_elsewhere {ι : Type}
    {place : ι → TierBytes → Except Error (Located × TierBytes)}
    (hplace : ∀ item a a' l b, place item a = .ok (l, b) → ∃ l' b', place item a' = .ok (l', b'))
    {items : List ι} {a a' b : TierBytes} {ls : List Located}
    (h : placeAll place items a = .ok (ls, b)) :
    ∃ ls' b', placeAll place items a' = .ok (ls', b') := by
  induction items generalizing a a' ls with
  | nil => exact ⟨[], a', rfl⟩
  | cons item items ih =>
    obtain ⟨l, c, ks, hitem, hitems, rfl⟩ := placeAll_cons.mp h
    obtain ⟨l', c', hitem'⟩ := hplace item a a' l c hitem
    obtain ⟨ks', b', hitems'⟩ := ih hitems
    exact ⟨l' :: ks', b', placeAll_cons.mpr ⟨l', c', ks', hitem', hitems', rfl⟩⟩

theorem placeItem_elsewhere {models : ℕ} (item : TensorSpec × Category) (a a' : TierBytes)
    (l : Located) (b : TierBytes) (h : placeItem hierarchy models item a = .ok (l, b)) :
    ∃ l' b', placeItem hierarchy models item a' = .ok (l', b') := by
  obtain ⟨hne, -, -⟩ := placementForTensor_eq_ok.mp h
  exact ⟨_, _, placementForTensor_eq_ok.mpr ⟨hne, rfl, rfl⟩⟩

theorem placementForBuffer_elsewhere (item : String × ℤ) (a a' : TierBytes) (l : Located)
    (b : TierBytes) (h : placementForBuffer hierarchy item.1 item.2 a = .ok (l, b)) :
    ∃ l' b', placementForBuffer hierarchy item.1 item.2 a' = .ok (l', b') := by
  unfold placementForBuffer at h ⊢
  split_ifs at h with hsize
  rw [if_neg hsize]
  exact ⟨_, _, rfl⟩

/-! ### Adding a tensor -/

/-- A graph with a further tensor. -/
structure AddsTensor (graph graph' : WorkloadGraph) (t : TensorSpec) : Prop where
  nodes : graph'.nodes = graph.nodes
  tensors : ∃ before after, graph'.tensors = before ++ t :: after ∧
    graph.tensors = before ++ after

namespace AddsTensor

theorem mem (h : AddsTensor graph graph' t) {u : TensorSpec} (hu : u ∈ graph.tensors) :
    u ∈ graph'.tensors := by
  obtain ⟨before, after, hwith, hwithout⟩ := h.tensors
  rw [hwithout, List.mem_append] at hu
  rw [hwith, List.mem_append, List.mem_cons]
  tauto

theorem classifyTensor_eq (h : AddsTensor graph graph' t) (u : TensorSpec) :
    classifyTensor py graph' u = classifyTensor py graph u := by
  unfold classifyTensor producerOp WorkloadGraph.getNode
  rw [h.nodes]

/-- The further tensor has its turn between the others, which keep theirs. -/
theorem sortedTensors_eq (h : AddsTensor graph graph' t) (py : Builtins) :
    ∃ s₁ s₂, sortedTensors py graph' = s₁ ++ (t, classifyTensor py graph t) :: s₂ ∧
      sortedTensors py graph = s₁ ++ s₂ := by
  obtain ⟨before, after, hwith, hwithout⟩ := h.tensors
  have hsplit := insertionSort_append_cons placedBefore_total placedBefore_trans
    (t, classifyTensor py graph t)
    (before.map fun u => (u, classifyTensor py graph u))
    (after.map fun u => (u, classifyTensor py graph u))
  rw [Residency.sortedTensors_eq, Residency.sortedTensors_eq]
  unfold classified
  simp only [h.classifyTensor_eq]
  rw [hwith, hwithout, List.map_append, List.map_append, List.map_cons]
  exact hsplit

/-- The aliases of the smaller graph are valid where those of the larger one are. -/
theorem aliasesValid (h : AddsTensor graph graph' t) (hvalid : AliasesValid graph') :
    AliasesValid graph := by
  apply forM_eq_ok.mpr
  intro u hu
  have hone := forM_eq_ok.mp hvalid u (h.mem hu)
  unfold validateAlias at hone ⊢
  cases halias : u.aliasOf with
  | none => rfl
  | some a =>
    rw [halias] at hone
    by_cases hempty : a = ""
    · simp [hempty]
    · obtain ⟨hin, -⟩ := graph.alias_mem u hu a halias hempty
      obtain ⟨target, htarget, rfl⟩ := List.mem_map.mp hin
      simp only [WorkloadGraph.getTensor_of_mem (h.mem htarget)] at hone
      simp only [WorkloadGraph.getTensor_of_mem htarget]
      exact hone

/-- With a further tensor, the items before it are placed as without it, and it is placed
from the space that they leave. Where it takes no bytes, the items after it are placed as
without it, too. -/
theorem locate (h : AddsTensor graph graph' t) {ls : List Located} {b : TierBytes}
    (hlocate : Residency.locate py graph' hierarchy residentModels queueBuffers = .ok (ls, b)) :
    ∃ before own after rest a b', ls = before ++ own :: after ∧
      Residency.locate py graph hierarchy residentModels queueBuffers =
        .ok (before ++ rest, b') ∧
      PlacedAll hierarchy (fun _ => 0) before a ∧
      placeItem hierarchy residentModels.toNat (t, classifyTensor py graph t) a =
        .ok (own, a.addParts own.parts) ∧
      (placedBytes own.parts = 0 → rest = after ∧ b' = b) := by
  obtain ⟨hmodels, htiers, haliases, tensors, c, buffers, htensors, hbuffers, rfl⟩ :=
    locate_eq_ok.mp hlocate
  obtain ⟨s₁, s₂, hwith, hwithout⟩ := h.sortedTensors_eq py
  rw [hwith] at htensors
  obtain ⟨before, a, own_after, hbefore, hrest, rfl⟩ := placeAll_append.mp htensors
  obtain ⟨own, d, after, hown, hafter, rfl⟩ := placeAll_cons.mp hrest
  have hplaced : PlacedAll hierarchy (fun _ => 0) before a :=
    placeAll_placed (fun _ _ _ _ => placementForTensor_placed) hbefore
  have hd : d = a.addParts own.parts := (placementForTensor_placed hown).allocated
  by_cases hnone : placedBytes own.parts = 0
  · have hda : d = a := hd.trans (addParts_of_none_placed hnone)
    rw [hda] at hafter
    refine ⟨before, own, after ++ buffers, after ++ buffers, a, b, by simp, ?_, hplaced,
      hd ▸ hown, fun _ => ⟨rfl, rfl⟩⟩
    have hsorted := placeAll_append.mpr ⟨before, a, after, hbefore, hafter, rfl⟩
    rw [← hwithout] at hsorted
    exact locate_eq_ok.mpr ⟨hmodels, htiers, h.aliasesValid haliases, _, c, buffers, hsorted,
      hbuffers, (List.append_assoc _ _ _).symm⟩
  · obtain ⟨after', c', hafter'⟩ := placeAll_elsewhere placeItem_elsewhere hafter
    obtain ⟨buffers', b', hbuffers'⟩ :=
      placeAll_elsewhere placementForBuffer_elsewhere hbuffers
    refine ⟨before, own, after ++ buffers, after' ++ buffers', a, b', by simp, ?_, hplaced,
      hd ▸ hown, fun hzero => absurd hzero hnone⟩
    have hsorted := placeAll_append.mpr ⟨before, a, after', hbefore, hafter', rfl⟩
    rw [← hwithout] at hsorted
    exact locate_eq_ok.mpr ⟨hmodels, htiers, h.aliasesValid haliases, _, c', buffers', hsorted,
      hbuffers', (List.append_assoc _ _ _).symm⟩

end AddsTensor

/-! ### Plans -/

/-- The allocated bytes of each tier of a plan. -/
def allocatedBy (plan : MemoryAccessPlan) : List (String × ℕ) :=
  plan.tierSummaries.map fun s => (s.name, s.allocatedBytes)

theorem allocatedBy_eq {plan : MemoryAccessPlan} {placements : List TensorPlacement}
    {allocations : TierBytes}
    (h : plan.toPlanContents = planContents hierarchy placements allocations) :
    allocatedBy plan = (hierarchy.names.map fun name => (name, allocations name)).insertionSort
      fun a b => a.1 ≤ b.1 := by
  have hsummaries : plan.tierSummaries = (planContents hierarchy placements
      allocations).tierSummaries := congrArg (·.tierSummaries) h
  unfold allocatedBy
  rw [hsummaries]
  unfold planContents buildTierSummaries
  rw [List.map_insertionSort _ (fun a b : String × ℕ => a.1 ≤ b.1) _ _
    fun _ _ _ _ => Iff.rfl, List.map_map, MemoryHierarchy.names, List.map_map]
  rfl

/-- What a tensor changes in a plan. The items before it keep their placements, and it is
placed from the space that they leave. Where it takes no bytes, nothing else changes. -/
def PlacedApart (py : Builtins) (graph : WorkloadGraph) (hierarchy : MemoryHierarchy)
    (residentModels : ℤ) (t : TensorSpec) (plan plan' : MemoryAccessPlan) : Prop :=
  ∃ before own after rest a,
    plan'.placements.Perm ((before ++ own :: after).map (·.placement)) ∧
    plan.placements.Perm ((before ++ rest).map (·.placement)) ∧
    PlacedAll hierarchy (fun _ => 0) before a ∧
    placeItem hierarchy residentModels.toNat (t, classifyTensor py graph t) a =
      .ok (own, a.addParts own.parts) ∧
    (∀ s ∈ plan'.tierSummaries,
      s.allocatedBytes = ((before ++ own :: after).map fun l => bytesIn s.name l.parts).sum) ∧
    (placedBytes own.parts = 0 → rest = after ∧ allocatedBy plan' = allocatedBy plan)

theorem AddsTensor.placedApart (h : AddsTensor graph graph' t) {plan plan' : MemoryAccessPlan}
    (hplan : buildMemoryAccessPlan py graph hierarchy residentModels queueBuffers allowSpill =
      .ok plan)
    (hplan' : buildMemoryAccessPlan py graph' hierarchy residentModels queueBuffers allowSpill =
      .ok plan') : PlacedApart py graph hierarchy residentModels t plan plan' := by
  obtain ⟨ls, b, hlocate, -, hcontents, -⟩ := buildMemoryAccessPlan_eq_ok.mp hplan
  obtain ⟨ls', b', hlocate', -, hcontents', -⟩ := buildMemoryAccessPlan_eq_ok.mp hplan'
  obtain ⟨before, own, after, rest, a, c, rfl, hwithout, hbefore, hown, hnone⟩ :=
    h.locate hlocate'
  rw [hlocate] at hwithout
  cases hwithout
  have hplacements : plan.placements = sortedPlacements (before ++ rest) :=
    congrArg (·.placements) hcontents
  have hplacements' : plan'.placements = sortedPlacements (before ++ own :: after) :=
    congrArg (·.placements) hcontents'
  refine ⟨before, own, after, rest, a, ?_, ?_, hbefore, hown, ?_, ?_⟩
  · rw [hplacements']
    exact sortedPlacements_perm _
  · rw [hplacements]
    exact sortedPlacements_perm _
  · intro s hs
    obtain ⟨tier, -, hname, -, -, hallocated⟩ := exists_tier_of_mem hcontents' hs
    rw [hallocated, hname, (locate_placed hlocate').allocated, Nat.zero_add]
  · intro hzero
    obtain ⟨hrest, hb⟩ := hnone hzero
    rw [allocatedBy_eq hcontents, allocatedBy_eq hcontents', hb]
    exact ⟨hrest, rfl⟩

/-- An alias is checked and otherwise planned like any other tensor: the plan is that of the
graph without its aliases, and adding an alias to a graph changes its plan as adding any
other tensor does. -/
theorem alias_placedApart (py : Builtins) (graph : WorkloadGraph) (hierarchy : MemoryHierarchy)
    (residentModels : ℤ) (queueBuffers : Dict String ℤ) (allowSpill : Bool) :
    (∀ plan, buildMemoryAccessPlan py graph hierarchy residentModels queueBuffers allowSpill =
        .ok plan ↔
      AliasesValid graph ∧ buildMemoryAccessPlan py (withoutAliases graph) hierarchy
        residentModels queueBuffers allowSpill = .ok plan) ∧
    ∀ graph' t plan plan', AddsTensor graph graph' t →
      buildMemoryAccessPlan py graph hierarchy residentModels queueBuffers allowSpill =
        .ok plan →
      buildMemoryAccessPlan py graph' hierarchy residentModels queueBuffers allowSpill =
        .ok plan' →
      PlacedApart py graph hierarchy residentModels t plan plan' :=
  ⟨fun _ => plan_withoutAliases, fun _ _ _ _ hadds => hadds.placedApart⟩

/-! ### Shared storage -/

/-- Storage that aliases share: a further tensor that is an alias of equal size lies in the
tier of its target and leaves all allocations and the other placements as they were. -/
def AliasesShareStorage (py : Builtins) : Prop :=
  ∀ graph graph' hierarchy residentModels t target plan plan', AddsTensor graph graph' t →
    target ∈ graph.tensors → t.aliasOf = some target.tensorId →
    tensorFootprintBytes t = tensorFootprintBytes target →
    buildMemoryAccessPlan py graph hierarchy residentModels .empty true = .ok plan →
    buildMemoryAccessPlan py graph' hierarchy residentModels .empty true = .ok plan' →
    (∀ p ∈ plan'.placements, ∀ p' ∈ plan'.placements, p.tensorId = target.tensorId →
      p'.tensorId = t.tensorId → p'.destinationTier = p.destinationTier) ∧
    allocatedBy plan' = allocatedBy plan ∧ ∀ p ∈ plan.placements, p ∈ plan'.placements

/-- An activation as large as the fastest tier of the sample hierarchy. -/
def sampleBase : TensorSpec :=
  { tensorId := "base", shape := [.fixed 64], bytes := 256, producerNode := "input" }

/-- A view of the whole activation. -/
def sampleView : TensorSpec :=
  { tensorId := "view", shape := [.fixed 64], bytes := 256, producerNode := "input",
    aliasOf := some "base" }

/-- A graph of one activation. -/
def baseGraph : WorkloadGraph where
  nodes := []
  tensors := [sampleBase]
  nodeIds_nodup := List.nodup_nil
  tensorIds_nodup := by decide
  producer_mem := by decide
  alias_mem := by decide

/-- The graph of the activation and its view. -/
def viewGraph : WorkloadGraph where
  nodes := []
  tensors := [sampleBase, sampleView]
  nodeIds_nodup := List.nodup_nil
  tensorIds_nodup := by decide
  producer_mem := by decide
  alias_mem := by decide

theorem viewGraph_addsTensor : AddsTensor baseGraph viewGraph sampleView where
  nodes := rfl
  tensors := ⟨[sampleBase], [], rfl, rfl⟩

/-- Where the tensors of a plan lie, and the allocated bytes. -/
def layout (plan : MemoryAccessPlan) : List (String × String) × List (String × ℕ) :=
  (plan.placements.map fun p => (p.tensorId, p.destinationTier), allocatedBy plan)

theorem baseGraph_layout : ∃ plan,
    buildMemoryAccessPlan sampleBuiltins baseGraph sampleHierarchy 1 .empty true = .ok plan ∧
    layout plan =
      ([("base", "sram")], [("lpddr5", 0), ("on_chip_3d_dram", 0), ("sram", 256)]) := by
  have hsome : (buildMemoryAccessPlan sampleBuiltins baseGraph sampleHierarchy 1 .empty
      true).toOption.map layout =
      some ([("base", "sram")], [("lpddr5", 0), ("on_chip_3d_dram", 0), ("sram", 256)]) := by
    decide +kernel
  obtain ⟨plan, hplan, hlayout⟩ := Option.map_eq_some_iff.mp hsome
  exact ⟨plan, toOption_eq_some.mp hplan, hlayout⟩

theorem viewGraph_layout : ∃ plan,
    buildMemoryAccessPlan sampleBuiltins viewGraph sampleHierarchy 1 .empty true = .ok plan ∧
    layout plan = ([("base", "sram"), ("view", "on_chip_3d_dram")],
      [("lpddr5", 0), ("on_chip_3d_dram", 256), ("sram", 256)]) := by
  have hsome : (buildMemoryAccessPlan sampleBuiltins viewGraph sampleHierarchy 1 .empty
      true).toOption.map layout =
      some ([("base", "sram"), ("view", "on_chip_3d_dram")],
        [("lpddr5", 0), ("on_chip_3d_dram", 256), ("sram", 256)]) := by
    decide +kernel
  obtain ⟨plan, hplan, hlayout⟩ := Option.map_eq_some_iff.mp hsome
  exact ⟨plan, toOption_eq_some.mp hplan, hlayout⟩

/-- The view finds the tier of its activation full and takes as many bytes in the next. -/
theorem view_not_shared : ¬AliasesShareStorage sampleBuiltins := by
  intro h
  obtain ⟨plan, hplan, hlayout⟩ := baseGraph_layout
  obtain ⟨plan', hplan', hlayout'⟩ := viewGraph_layout
  obtain ⟨-, hallocated, -⟩ := h baseGraph viewGraph sampleHierarchy 1 sampleView sampleBase plan
    plan' viewGraph_addsTensor List.mem_cons_self rfl rfl hplan hplan'
  have hbase := congrArg Prod.snd hlayout
  have hview := congrArg Prod.snd hlayout'
  unfold layout at hbase hview
  dsimp only at hbase hview
  rw [← hallocated, hview] at hbase
  exact absurd hbase (by decide)

theorem alias_placedApart_view : ∃ plan plan',
    buildMemoryAccessPlan sampleBuiltins baseGraph sampleHierarchy 1 .empty true = .ok plan ∧
    buildMemoryAccessPlan sampleBuiltins viewGraph sampleHierarchy 1 .empty true = .ok plan' ∧
    PlacedApart sampleBuiltins baseGraph sampleHierarchy 1 sampleView plan plan' := by
  obtain ⟨plan, hplan, -⟩ := baseGraph_layout
  obtain ⟨plan', hplan', -⟩ := viewGraph_layout
  obtain ⟨-, hadds⟩ := alias_placedApart sampleBuiltins baseGraph sampleHierarchy 1 .empty true
  exact ⟨plan, plan', hplan, hplan', hadds viewGraph sampleView plan plan' viewGraph_addsTensor
    hplan hplan'⟩

end Residency

end NpuArc
