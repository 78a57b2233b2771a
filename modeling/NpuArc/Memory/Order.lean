import NpuArc.Library.StableSort
import NpuArc.Memory.Safety

/-!
# Order independence of plans

The planner sorts tensors by priority and declared size, and leaves ties in the order of
the graph. Which of two tied tensors is placed first can decide where they go. The plans
of a graph are independent of the order of its tensors exactly when its ties are between
tensors of which one takes no space.
-/

namespace NpuArc

namespace Residency

open TiedSort

variable {py : Builtins} {graph graph' : WorkloadGraph} {hierarchy : MemoryHierarchy}
  {residentModels : ℤ} {queueBuffers : Dict String ℤ} {allowSpill : Bool}
  {allocations : TierBytes} {models : ℕ} {x y : TensorSpec × Category}

/-! ### The sort key -/

/-- The order in which the planner sorts classified tensors. -/
def PlacedBefore (a b : TensorSpec × Category) : Prop :=
  categoryPriority a.2 < categoryPriority b.2 ∨
    categoryPriority a.2 = categoryPriority b.2 ∧ b.1.bytes ≤ a.1.bytes

instance : DecidableRel PlacedBefore := fun _ _ => inferInstanceAs (Decidable (_ ∨ _ ∧ _))

theorem placedBefore_total (a b : TensorSpec × Category) : PlacedBefore a b ∨ PlacedBefore b a := by
  unfold PlacedBefore
  omega

theorem placedBefore_trans (a b c : TensorSpec × Category) (hab : PlacedBefore a b)
    (hbc : PlacedBefore b c) : PlacedBefore a c := by
  unfold PlacedBefore at *
  omega

theorem tied_iff : Tied PlacedBefore x y ↔
    categoryPriority x.2 = categoryPriority y.2 ∧ x.1.bytes = y.1.bytes := by
  unfold Tied PlacedBefore
  omega

/-- The tensors of a graph with their categories. -/
def classified (py : Builtins) (graph : WorkloadGraph) : List (TensorSpec × Category) :=
  graph.tensors.map fun tensor => (tensor, classifyTensor py graph tensor)

theorem sortedTensors_eq : sortedTensors py graph = (classified py graph).insertionSort PlacedBefore :=
  rfl

/-! ### Harmless ties -/

/-- Whether an item takes no space wherever it is placed. -/
def TakesNone (item : TensorSpec × Category) : Prop := tensorFootprintBytes item.1 = 0

/-- Two items that may be placed in either order: both take no space, or one of them takes
none and may be split, so that no tier is chosen for it. -/
def Interchangeable (a b : TensorSpec × Category) : Prop :=
  TakesNone a ∧ TakesNone b ∨ TakesNone a ∧ isAtomic a.2 = false ∨
    TakesNone b ∧ isAtomic b.2 = false

/-- Tied tensors of a graph are interchangeable. -/
def TiesHarmless (py : Builtins) (graph : WorkloadGraph) : Prop :=
  ∀ a ∈ classified py graph, ∀ b ∈ classified py graph, a ≠ b → Tied PlacedBefore a b →
    Interchangeable a b

private theorem alignUp_zero : alignUp 0 hierarchy.defaultAlignmentBytes = 0 := by
  unfold alignUp
  have hpos := hierarchy.alignment_pos
  rw [Nat.div_eq_of_lt (by omega), Nat.zero_mul]

theorem add_zero_bytes (name : String) : allocations.add name 0 = allocations := by
  funext other
  simp [TierBytes.add]

theorem fillWhole_zero (reserves : TierBytes) (tiers : List MemoryTier) :
    (fillWhole reserves allocations 0 tiers).allocations = allocations := by
  induction tiers with
  | nil => rfl
  | cons tier tiers ih =>
    unfold fillWhole
    split_ifs
    · exact add_zero_bytes _
    · exact ih

theorem fillGreedily_zero (reserves : TierBytes) (tiers : List MemoryTier) :
    fillGreedily reserves tiers allocations 0 = ⟨[], allocations, 0⟩ := by
  cases tiers with
  | nil => rfl
  | cons tier tiers => simp [fillGreedily]

private theorem effectiveBytes_takesNone (h : TakesNone x) :
    effectiveBytes hierarchy.defaultAlignmentBytes models x = 0 := by
  unfold effectiveBytes
  rw [h, alignUp_zero, Nat.zero_mul]

private theorem fillingOf_takesNone (h : TakesNone x) :
    (fillingOf hierarchy models x allocations).allocations = allocations := by
  unfold fillingOf
  rw [effectiveBytes_takesNone h]
  dsimp only
  split_ifs
  · exact fillWhole_zero _ _
  · rw [fillGreedily_zero]

private theorem fillingOf_takesNone_of_split (h : TakesNone x) (hsplit : isAtomic x.2 = false) :
    fillingOf hierarchy models x allocations = ⟨[], allocations, 0⟩ := by
  unfold fillingOf
  rw [effectiveBytes_takesNone h]
  dsimp only
  rw [if_neg (by simp [hsplit]), fillGreedily_zero]

/-- The placement of one classified tensor. -/
abbrev placeItem (hierarchy : MemoryHierarchy) (models : ℕ) (item : TensorSpec × Category)
    (allocations : TierBytes) : Except Error (Located × TierBytes) :=
  placementForTensor hierarchy models item.1 item.2 allocations

private theorem placeItem_takesNone (h : TakesNone x) {l : Located} {b : TierBytes}
    (hok : placeItem hierarchy models x allocations = .ok (l, b)) : b = allocations := by
  obtain ⟨_, _, rfl⟩ := placementForTensor_eq_ok.mp hok
  exact fillingOf_takesNone h

/-- A split item that takes no space is placed the same from every state. -/
private theorem placeItem_anywhere (h : TakesNone x) (hsplit : isAtomic x.2 = false) {l : Located}
    {b : TierBytes} (hok : placeItem hierarchy models x allocations = .ok (l, b))
    (allocations' : TierBytes) : placeItem hierarchy models x allocations' = .ok (l, allocations') := by
  obtain ⟨hne, rfl, _⟩ := placementForTensor_eq_ok.mp hok
  apply placementForTensor_eq_ok.mpr
  rw [fillingOf_takesNone_of_split h hsplit, fillingOf_takesNone_of_split h hsplit]
  exact ⟨hne, rfl, rfl⟩

/-- Interchangeable items are placed alike in either order. -/
private theorem Interchangeable.swap (h : Interchangeable x y) {a b c : TierBytes} {k l : Located}
    (hx : placeItem hierarchy models x a = .ok (k, b))
    (hy : placeItem hierarchy models y b = .ok (l, c)) :
    ∃ d, placeItem hierarchy models y a = .ok (l, d) ∧
      placeItem hierarchy models x d = .ok (k, c) := by
  rcases h with ⟨hx0, hy0⟩ | ⟨hx0, hsplit⟩ | ⟨hy0, hsplit⟩
  · have hb : b = a := placeItem_takesNone hx0 hx
    have hc : c = b := placeItem_takesNone hy0 hy
    subst hc hb
    exact ⟨_, hy, hx⟩
  · have hb : b = a := placeItem_takesNone hx0 hx
    subst hb
    exact ⟨c, hy, placeItem_anywhere hx0 hsplit hx c⟩
  · have hc : c = b := placeItem_takesNone hy0 hy
    subst hc
    exact ⟨a, placeItem_anywhere hy0 hsplit hy a, hx⟩

/-- Placing harmless ties in another order gives the same placements and leaves the same
space. -/
private theorem placeAll_tiedPerm {items items' : List (TensorSpec × Category)}
    (hperm : TiedPerm PlacedBefore items items')
    (hharmless : ∀ a ∈ items, ∀ b ∈ items, a ≠ b → Tied PlacedBefore a b → Interchangeable a b)
    {a b : TierBytes} {ls : List Located}
    (hok : placeAll (placeItem hierarchy models) items a = .ok (ls, b)) :
    ∃ ks, placeAll (placeItem hierarchy models) items' a = .ok (ks, b) ∧ ks.Perm ls := by
  induction hperm generalizing a b ls with
  | nil => exact ⟨ls, hok, .refl _⟩
  | cons x hrest ih =>
    obtain ⟨l, c, ls, hx, hitems, rfl⟩ := placeAll_cons.mp hok
    have hharmless' := fun a ha b hb =>
      hharmless a (List.mem_cons_of_mem x ha) b (List.mem_cons_of_mem x hb)
    obtain ⟨ks, hks, hperm⟩ := ih hharmless' hitems
    exact ⟨l :: ks, placeAll_cons.mpr ⟨l, c, ks, hx, hks, rfl⟩, hperm.cons l⟩
  | @swap x y hties items =>
    by_cases heq : x = y
    · subst heq
      exact ⟨ls, hok, .refl _⟩
    · obtain ⟨k, b', _, hx, hrest, rfl⟩ := placeAll_cons.mp hok
      obtain ⟨l, c, ls, hy, hitems, rfl⟩ := placeAll_cons.mp hrest
      have hswap : Interchangeable x y := hharmless x (by simp) y (by simp) heq hties
      obtain ⟨d, hy, hx⟩ := hswap.swap hx hy
      have hxs := placeAll_cons.mpr ⟨k, c, ls, hx, hitems, rfl⟩
      exact ⟨l :: k :: ls, placeAll_cons.mpr ⟨l, d, _, hy, hxs, rfl⟩, .swap k l ls⟩
  | trans h₁ h₂ ih₁ ih₂ =>
    obtain ⟨ks, hks, hperm⟩ := ih₁ hharmless hok
    have hmem := fun a => (h₁.perm.mem_iff (a := a)).mpr
    obtain ⟨js, hjs, hperm'⟩ := ih₂ (fun a ha b hb => hharmless a (hmem a ha) b (hmem b hb)) hks
    exact ⟨js, hjs, hperm'.trans hperm⟩

/-! ### Reordered graphs -/

/-- A graph with the same nodes and its tensors in another order. -/
structure Reordered (graph graph' : WorkloadGraph) : Prop where
  nodes : graph.nodes = graph'.nodes
  tensors : graph.tensors.Perm graph'.tensors

/-- Every alias of a graph has a target of the same size. -/
def AliasesValid (graph : WorkloadGraph) : Prop :=
  graph.tensors.forM (validateAlias graph) = .ok ()

namespace Reordered

theorem symm (h : Reordered graph graph') : Reordered graph' graph := ⟨h.nodes.symm, h.tensors.symm⟩

theorem classifyTensor_eq (h : Reordered graph graph') (tensor : TensorSpec) :
    classifyTensor py graph tensor = classifyTensor py graph' tensor := by
  unfold classifyTensor producerOp WorkloadGraph.getNode
  rw [h.nodes]

theorem classified_perm (h : Reordered graph graph') :
    (classified py graph).Perm (classified py graph') := by
  have heq : classified py graph =
      graph.tensors.map fun tensor => (tensor, classifyTensor py graph' tensor) := by
    unfold classified
    simp only [h.classifyTensor_eq]
  rw [heq]
  exact h.tensors.map _

theorem getTensor_eq (h : Reordered graph graph') (tensorId : String) :
    graph.getTensor tensorId = graph'.getTensor tensorId := by
  ext tensor
  rw [WorkloadGraph.getTensor_eq_some, WorkloadGraph.getTensor_eq_some, h.tensors.mem_iff]

theorem aliasesValid (h : Reordered graph graph') (hvalid : AliasesValid graph) :
    AliasesValid graph' := by
  apply forM_eq_ok.mpr
  intro tensor hmem
  have hone := forM_eq_ok.mp hvalid tensor (h.tensors.mem_iff.mpr hmem)
  unfold validateAlias at hone ⊢
  simp only [h.getTensor_eq] at hone
  exact hone

theorem tiesHarmless (h : Reordered graph graph') (hties : TiesHarmless py graph) :
    TiesHarmless py graph' := fun a ha b hb =>
  hties a (h.classified_perm.mem_iff.mpr ha) b (h.classified_perm.mem_iff.mpr hb)

/-- The sorted tensors of two reordered graphs differ by ties. -/
theorem sortedTensors_tiedPerm (h : Reordered graph graph') :
    TiedPerm PlacedBefore (sortedTensors py graph) (sortedTensors py graph') := by
  have : Std.Total PlacedBefore := ⟨placedBefore_total⟩
  have : IsTrans _ PlacedBefore := ⟨placedBefore_trans⟩
  rw [sortedTensors_eq, sortedTensors_eq]
  apply TiedPerm.of_pairwise
  · exact (List.perm_insertionSort _ _).trans
      (h.classified_perm.trans (List.perm_insertionSort _ _).symm)
  · exact List.pairwise_insertionSort _ _
  · exact List.pairwise_insertionSort _ _

end Reordered

theorem placeItem_tensorId (item : TensorSpec × Category) (a : TierBytes) (l : Located)
    (b : TierBytes) (h : placeItem hierarchy models item a = .ok (l, b)) :
    l.placement.tensorId = item.1.tensorId := by
  obtain ⟨_, rfl, _⟩ := placementForTensor_eq_ok.mp h
  rfl

theorem sortedTensors_perm : (sortedTensors py graph).Perm (classified py graph) :=
  List.perm_insertionSort _ _

/-- The placed tensors of a graph have distinct ids. -/
theorem placedIds_nodup {a b : TierBytes} {ls : List Located}
    (h : placeAll (placeItem hierarchy models) (sortedTensors py graph) a = .ok (ls, b)) :
    (ls.map fun l => l.placement.tensorId).Nodup := by
  rw [placeAll_map placeItem_tensorId h, (sortedTensors_perm.map _).nodup_iff, classified,
    List.map_map]
  exact graph.tensorIds_nodup

private theorem sortedPlacements_append_eq {ks ls buffers : List Located} (hperm : ks.Perm ls)
    (hnodup : (ks.map fun k => k.placement.tensorId).Nodup) :
    sortedPlacements (ks ++ buffers) = sortedPlacements (ls ++ buffers) := by
  unfold sortedPlacements
  rw [List.map_append, List.map_append]
  apply insertionSort_append_eq
  · exact fun _ _ => String.le_total _ _
  · exact fun _ _ _ => String.le_trans
  · exact hperm.map _
  · intro a ha b hb htied
    have hnodup : ((ks.map (·.placement)).map (·.tensorId)).Nodup := by
      rw [List.map_map]
      exact hnodup
    exact List.inj_on_of_nodup_map hnodup ha hb (String.le_antisymm htied.1 htied.2)

theorem aliasesValid_of_plan {plan : MemoryAccessPlan}
    (hplan : buildMemoryAccessPlan py graph hierarchy residentModels queueBuffers allowSpill =
      .ok plan) : AliasesValid graph := by
  obtain ⟨_, _, hlocate, _⟩ := buildMemoryAccessPlan_eq_ok.mp hplan
  exact (locate_eq_ok.mp hlocate).2.2.1

/-- A graph whose ties are harmless has the same plans as its reorderings. -/
theorem plan_of_reordered (hreordered : Reordered graph graph')
    (hties : TiesHarmless py graph) {plan : MemoryAccessPlan}
    (hplan : buildMemoryAccessPlan py graph hierarchy residentModels queueBuffers allowSpill =
      .ok plan) :
    buildMemoryAccessPlan py graph' hierarchy residentModels queueBuffers allowSpill = .ok plan := by
  obtain ⟨ls, allocations, hlocate, hspill, hcontents, hdigest⟩ :=
    buildMemoryAccessPlan_eq_ok.mp hplan
  obtain ⟨hmodels, htiers, haliases, tensors, a, buffers, htensors, hbuffers, rfl⟩ :=
    locate_eq_ok.mp hlocate
  have hharmless : ∀ a ∈ sortedTensors py graph, ∀ b ∈ sortedTensors py graph, a ≠ b →
      Tied PlacedBefore a b → Interchangeable a b := fun a ha b hb =>
    hties a (sortedTensors_perm.mem_iff.mp ha) b (sortedTensors_perm.mem_iff.mp hb)
  obtain ⟨tensors', htensors', hperm⟩ :=
    placeAll_tiedPerm hreordered.sortedTensors_tiedPerm hharmless htensors
  have hplacements : sortedPlacements (tensors' ++ buffers) = sortedPlacements (tensors ++ buffers) :=
    sortedPlacements_append_eq hperm (placedIds_nodup htensors')
  have hlocate' : locate py graph' hierarchy residentModels queueBuffers =
      .ok (tensors' ++ buffers, allocations) :=
    locate_eq_ok.mpr ⟨hmodels, htiers, hreordered.aliasesValid haliases, tensors', a, buffers,
      htensors', hbuffers, rfl⟩
  apply buildMemoryAccessPlan_eq_ok.mpr
  refine ⟨tensors' ++ buffers, allocations, hlocate', ?_, ?_, hdigest⟩
  · rw [hplacements]
    exact hspill
  · rw [hplacements]
    exact hcontents

end Residency

end NpuArc
