import NpuArc.Memory.Order

/-!
# Ties that decide a plan

Two tied tensors that are not interchangeable reveal their order: some hierarchy leaves
room for the one that is placed first and not for the other.
-/

namespace NpuArc

namespace Residency

open TiedSort

variable {py : Builtins} {graph graph' : WorkloadGraph} {hierarchy : MemoryHierarchy}
  {allocations : TierBytes} {x y : TensorSpec × Category}

/-- A graph whose plans do not depend on the order of its tensors. -/
def OrderIndependent (py : Builtins) (graph : WorkloadGraph) : Prop :=
  ∀ graph', Reordered graph graph' → ∀ hierarchy residentModels queueBuffers allowSpill,
    (buildMemoryAccessPlan py graph' hierarchy residentModels queueBuffers allowSpill).toOption =
      (buildMemoryAccessPlan py graph hierarchy residentModels queueBuffers allowSpill).toOption

/-! ### Two orders of a tie -/

/-- A graph with its tensors in another order. -/
def reorder (graph : WorkloadGraph) (tensors : List TensorSpec)
    (h : graph.tensors.Perm tensors) : WorkloadGraph where
  nodes := graph.nodes
  tensors := tensors
  nodeIds_nodup := graph.nodeIds_nodup
  tensorIds_nodup := (h.map _).nodup_iff.mp graph.tensorIds_nodup
  producer_mem t ht := graph.producer_mem t (h.mem_iff.mpr ht)
  alias_mem t ht a ha hne := by
    rw [← (h.map _).mem_iff]
    exact graph.alias_mem t (h.mem_iff.mpr ht) a ha hne

theorem reordered_reorder {tensors : List TensorSpec} (h : graph.tensors.Perm tensors) :
    Reordered graph (reorder graph tensors h) := ⟨rfl, h⟩

/-- How an item resides that is placed from some allocations. -/
def stateAfter (hierarchy : MemoryHierarchy) (item : TensorSpec × Category)
    (allocations : TierBytes) : ResidencyState :=
  (locatedOf hierarchy 1 item (fillingOf hierarchy 1 item allocations)).placement.state

theorem eligibleTiers_ne_nil {category : Category} (h : hierarchy.tiers ≠ []) :
    eligibleTiers category hierarchy ≠ [] := by
  unfold eligibleTiers
  split_ifs
  · split
    · exact h
    · next hne => exact hne
  · exact h

private theorem placeAll_exists (h : hierarchy.tiers ≠ []) (items : List (TensorSpec × Category))
    (a : TierBytes) : ∃ ls b, placeAll (placeItem hierarchy 1) items a = .ok (ls, b) := by
  induction items generalizing a with
  | nil => exact ⟨[], a, rfl⟩
  | cons item items ih =>
    have hitem : placeItem hierarchy 1 item a = .ok (_, _) :=
      placementForTensor_eq_ok.mpr ⟨eligibleTiers_ne_nil h, rfl, rfl⟩
    obtain ⟨ls, b, hitems⟩ := ih (fillingOf hierarchy 1 item a).allocations
    exact ⟨_, b, placeAll_cons.mpr ⟨_, _, ls, hitem, hitems, rfl⟩⟩

/-- A plan that may spill exists for valid aliases and tiers. -/
theorem plan_exists (halias : AliasesValid graph) (hvalid : validateTiers hierarchy = .ok ())
    (hne : hierarchy.tiers ≠ []) :
    ∃ plan, buildMemoryAccessPlan py graph hierarchy 1 .empty true = .ok plan := by
  obtain ⟨ls, b, hplace⟩ := placeAll_exists hne (sortedTensors py graph) fun _ => 0
  have hlocate : locate py graph hierarchy 1 .empty = .ok (ls ++ [], b) :=
    locate_eq_ok.mpr ⟨one_pos, hvalid, halias, ls, b, [], hplace, rfl, rfl⟩
  let contents := planContents hierarchy (sortedPlacements (ls ++ [])) b
  refine ⟨{ contents with digest := py.digestSha256 contents }, ?_⟩
  exact buildMemoryAccessPlan_eq_ok.mpr ⟨_, b, hlocate, .inl rfl, rfl, rfl⟩

/-- The placement that a plan without queue buffers has for a sorted item. -/
private theorem placement_mem {before after : List (TensorSpec × Category)}
    {plan : MemoryAccessPlan}
    (hplan : buildMemoryAccessPlan py graph hierarchy 1 .empty true = .ok plan)
    (hsorted : sortedTensors py graph = before ++ x :: after) :
    (plan.placements.map (·.tensorId)).Nodup ∧
      ∃ ks c, placeAll (placeItem hierarchy 1) before (fun _ => 0) = .ok (ks, c) ∧
        (locatedOf hierarchy 1 x (fillingOf hierarchy 1 x c)).placement ∈ plan.placements := by
  obtain ⟨ls, b, hlocate, _, hcontents, _⟩ := buildMemoryAccessPlan_eq_ok.mp hplan
  obtain ⟨_, _, _, tensors, a, buffers, htensors, hbuffers, rfl⟩ := locate_eq_ok.mp hlocate
  cases hbuffers
  have hplacements : plan.placements = sortedPlacements (tensors ++ []) :=
    congrArg (·.placements) hcontents
  have hperm : plan.placements.Perm (tensors.map (·.placement)) := by
    rw [hplacements, List.append_nil]
    exact sortedPlacements_perm tensors
  constructor
  · rw [(hperm.map _).nodup_iff, List.map_map]
    exact placedIds_nodup htensors
  · have htensors : placeAll (placeItem hierarchy 1) (before ++ x :: after) (fun _ => 0) =
        .ok (tensors, b) := hsorted ▸ htensors
    obtain ⟨ks, c, js, hks, hjs, rfl⟩ := placeAll_append.mp htensors
    obtain ⟨l, d, is, hitem, _, rfl⟩ := placeAll_cons.mp hjs
    obtain ⟨_, rfl, _⟩ := placementForTensor_eq_ok.mp hitem
    refine ⟨ks, c, hks, ?_⟩
    rw [hperm.mem_iff]
    simp

/-- In a graph whose plans do not depend on the order of its tensors, an item resides
the same whether a tied item is placed before it or after it. -/
private theorem stateAfter_tied (hindependent : OrderIndependent py graph)
    (halias : AliasesValid graph) (hx : x ∈ classified py graph) (hy : y ∈ classified py graph)
    (hne : x ≠ y) (htied : Tied PlacedBefore x y) :
    ∃ items, ∀ hierarchy : MemoryHierarchy, hierarchy.tiers ≠ [] →
      validateTiers hierarchy = .ok () →
      ∀ ks c, placeAll (placeItem hierarchy 1) items (fun _ => 0) = .ok (ks, c) →
        stateAfter hierarchy x c = stateAfter hierarchy x (fillingOf hierarchy 1 y c).allocations := by
  obtain ⟨t, ht, rfl⟩ := List.mem_map.mp hx
  obtain ⟨u, hu, rfl⟩ := List.mem_map.mp hy
  have htu : t ≠ u := fun h => hne (by rw [h])
  have hperm : graph.tensors.Perm (t :: u :: (graph.tensors.erase t).erase u) :=
    (List.perm_cons_erase ht).trans
      ((List.perm_cons_erase ((List.mem_erase_of_ne htu.symm).mpr hu)).cons t)
  generalize (graph.tensors.erase t).erase u = rest at hperm
  have hswapped : graph.tensors.Perm (u :: t :: rest) := hperm.trans (.swap u t rest)
  have hfirst := reordered_reorder hperm
  have hsecond := reordered_reorder hswapped
  obtain ⟨before, after, htu, hut⟩ := insertionSort_tied placedBefore_trans htied
    (rest.map fun tensor => (tensor, classifyTensor py graph tensor))
  have hsorted : sortedTensors py (reorder graph _ hperm) =
      before ++ (t, classifyTensor py graph t) :: (u, classifyTensor py graph u) :: after := by
    rw [← htu, sortedTensors_eq, classified]
    simp only [← hfirst.classifyTensor_eq]
    rfl
  have hsorted' : sortedTensors py (reorder graph _ hswapped) =
      before ++ [(u, classifyTensor py graph u)] ++ (t, classifyTensor py graph t) :: after := by
    rw [List.append_assoc, List.singleton_append, ← hut, sortedTensors_eq, classified]
    simp only [← hsecond.classifyTensor_eq]
    rfl
  refine ⟨before, fun hierarchy htiers hvalid ks c hplace => ?_⟩
  have hexists : ∃ plan, buildMemoryAccessPlan py (reorder graph _ hperm) hierarchy 1 .empty
      true = .ok plan := plan_exists (hfirst.aliasesValid halias) hvalid htiers
  obtain ⟨plan, hplan⟩ := hexists
  have hplan' : buildMemoryAccessPlan py (reorder graph _ hswapped) hierarchy 1 .empty true =
      .ok plan := by
    apply toOption_eq_some.mp
    rw [hindependent _ hsecond, ← hindependent _ hfirst, hplan]
    rfl
  obtain ⟨hnodup, ks', c', hplace', hmem⟩ := placement_mem hplan hsorted
  obtain ⟨_, js, d, hboth, hmem'⟩ := placement_mem hplan' hsorted'
  cases hplace.symm.trans hplace'
  obtain ⟨_, c', _, hplace', hlast, rfl⟩ := placeAll_append.mp hboth
  cases hplace.symm.trans hplace'
  obtain ⟨_, _, _, hitem, hnil, rfl⟩ := placeAll_cons.mp hlast
  obtain ⟨_, _, rfl⟩ := placementForTensor_eq_ok.mp hitem
  cases hnil
  have heq := List.inj_on_of_nodup_map hnodup hmem hmem' rfl
  exact congrArg (·.state) heq

/-! ### Hierarchies with room for a few bytes -/

/-- An on-chip DRAM tier in front of other tiers, with an alignment of one byte. -/
def onChipFirst (capacity : ℕ) (tiers : List MemoryTier) : MemoryHierarchy where
  tiers := ⟨onChip3dDram, capacity, 0, onChip3dDram_supported⟩ :: tiers
  defaultAlignmentBytes := 1

variable {capacity : ℕ} {tiers : List MemoryTier}

private theorem eligibleTiers_onChipFirst (category : Category) :
    eligibleTiers category (onChipFirst capacity tiers) =
      ⟨onChip3dDram, capacity, 0, onChip3dDram_supported⟩ :: tiers := by
  unfold eligibleTiers onChipFirst
  simp

private theorem reservesOf_onChipFirst (hreserves : ∀ tier ∈ tiers, tier.reserveBytes = 0) :
    reservesOf (onChipFirst capacity tiers) = fun _ => 0 := by
  funext name
  unfold reservesOf
  cases hfind : (onChipFirst capacity tiers).tiers.reverse.find? fun tier =>
      decide (tier.name = name) with
  | none => rfl
  | some tier =>
    have hmem := List.mem_of_find?_eq_some hfind
    rw [onChipFirst, List.mem_reverse, List.mem_cons] at hmem
    rcases hmem with rfl | hmem
    · rfl
    · exact hreserves tier hmem

private theorem effectiveBytes_onChipFirst :
    effectiveBytes (onChipFirst capacity tiers).defaultAlignmentBytes 1 x =
      tensorFootprintBytes x.1 := by
  simp [effectiveBytes, onChipFirst, alignUp]

private theorem validateTiers_onChipFirst (hreserves : ∀ tier ∈ tiers, tier.reserveBytes = 0) :
    validateTiers (onChipFirst capacity tiers) = .ok () := by
  apply forM_eq_ok.mpr
  intro tier hmem
  have hreserve : tier.reserveBytes = 0 := by
    rcases List.mem_cons.mp hmem with rfl | hmem
    · rfl
    · exact hreserves tier hmem
  rw [if_neg (by omega)]

/-- The parts of an item that the first tier has room for. -/
private theorem fillingOf_fits (hreserves : ∀ tier ∈ tiers, tier.reserveBytes = 0)
    (hfits : allocations onChip3dDram + tensorFootprintBytes x.1 ≤ capacity) :
    fillingOf (onChipFirst capacity tiers) 1 x allocations =
      ⟨if isAtomic x.2 = false ∧ tensorFootprintBytes x.1 = 0 then []
        else [(onChip3dDram, tensorFootprintBytes x.1)],
        allocations.add onChip3dDram (tensorFootprintBytes x.1), 0⟩ := by
  have husable : (tensorFootprintBytes x.1 : ℤ) ≤ usable allocations (fun _ => 0)
      ⟨onChip3dDram, capacity, 0, by decide⟩ := by
    unfold usable
    dsimp only
    omega
  unfold fillingOf
  rw [eligibleTiers_onChipFirst, reservesOf_onChipFirst hreserves, effectiveBytes_onChipFirst]
  dsimp only
  by_cases hatomic : isAtomic x.2 = true
  · rw [if_pos hatomic, if_neg (by simp [hatomic]), fillWhole, if_pos husable]
  · rw [if_neg hatomic, fillGreedily]
    by_cases hzero : tensorFootprintBytes x.1 = 0
    · rw [if_pos hzero, if_pos ⟨by simpa using hatomic, hzero⟩, hzero, add_zero_bytes]
    · have hkept : ¬(isAtomic x.2 = false ∧ tensorFootprintBytes x.1 = 0) := fun h => hzero h.2
      rw [if_neg hzero, if_neg hkept]
      dsimp only
      rw [if_neg (by omega), min_eq_left (by omega), Nat.sub_self]
      cases tiers with
      | nil => rfl
      | cons tier tiers => rw [fillGreedily, if_pos rfl]

private theorem stateAfter_full (hreserves : ∀ tier ∈ tiers, tier.reserveBytes = 0)
    (hfits : allocations onChip3dDram + tensorFootprintBytes x.1 ≤ capacity)
    (hplaced : isAtomic x.2 = true ∨ 0 < tensorFootprintBytes x.1) :
    stateAfter (onChipFirst capacity tiers) x allocations = .full := by
  have hparts : ¬(isAtomic x.2 = false ∧ tensorFootprintBytes x.1 = 0) := by
    rintro ⟨hsplit, hzero⟩
    rcases hplaced with hatomic | hpos
    · simp [hsplit] at hatomic
    · omega
  unfold stateAfter locatedOf
  rw [fillingOf_fits hreserves hfits, if_neg hparts, eligibleTiers_onChipFirst]
  simp [placementOf, residenceOf]

/-- Items that together fit the first tier are placed in it. -/
private theorem placeAll_fits (hreserves : ∀ tier ∈ tiers, tier.reserveBytes = 0)
    {items : List (TensorSpec × Category)} {a b : TierBytes} {ls : List Located}
    (hfits : a onChip3dDram + (items.map fun item => tensorFootprintBytes item.1).sum ≤ capacity)
    (h : placeAll (placeItem (onChipFirst capacity tiers) 1) items a = .ok (ls, b)) :
    b = a.add onChip3dDram (items.map fun item => tensorFootprintBytes item.1).sum := by
  induction items generalizing a ls with
  | nil =>
    cases h
    exact (add_zero_bytes _).symm
  | cons item items ih =>
    obtain ⟨l, c, ks, hitem, hitems, rfl⟩ := placeAll_cons.mp h
    obtain ⟨_, _, rfl⟩ := placementForTensor_eq_ok.mp hitem
    rw [List.map_cons, List.sum_cons] at hfits ⊢
    rw [fillingOf_fits hreserves (by omega)] at hitems
    dsimp only at hitems
    have hrest := ih (by simp only [TierBytes.add, if_true]; omega) hitems
    rw [hrest]
    funext name
    unfold TierBytes.add
    by_cases hname : name = onChip3dDram
    · simp only [hname, if_true]
      omega
    · simp only [if_neg hname]

/-- An item that the only tier has no room for is not resident in full. -/
private theorem stateAfter_ne_full (hpos : 0 < tensorFootprintBytes x.1)
    (hlt : capacity < allocations onChip3dDram + tensorFootprintBytes x.1) :
    stateAfter (onChipFirst capacity []) x allocations ≠ .full := by
  have husable : usable allocations (fun _ => 0) ⟨onChip3dDram, capacity, 0, by decide⟩ <
      tensorFootprintBytes x.1 := by
    unfold usable
    dsimp only
    omega
  unfold stateAfter locatedOf fillingOf
  rw [eligibleTiers_onChipFirst, reservesOf_onChipFirst (by simp), effectiveBytes_onChipFirst]
  dsimp only
  by_cases hatomic : isAtomic x.2 = true
  · rw [if_pos hatomic, fillWhole, if_neg (not_le_of_gt husable), fillWhole]
    simp [placementOf, residenceOf]
  · rw [if_neg hatomic, fillGreedily, if_neg hpos.ne']
    dsimp only
    by_cases hroom : usable allocations (fun _ => 0) ⟨onChip3dDram, capacity, 0, by decide⟩ ≤ 0
    · rw [if_pos hroom, fillGreedily]
      simp [placementOf, residenceOf]
    · rw [if_neg hroom, fillGreedily]
      generalize hplace : min (tensorFootprintBytes x.1)
        (usable allocations (fun _ => 0) ⟨onChip3dDram, capacity, 0, by decide⟩).toNat = place
      have hrest : ¬tensorFootprintBytes x.1 ≤ place := by omega
      simp [placementOf, residenceOf, hrest, Nat.sub_eq_zero_iff_le]

/-- Two tiers of one name with an empty one between them. -/
private def twoOnChip (first second : ℕ) : List MemoryTier :=
  [⟨"lpddr5", 0, 0, lpddr5_supported⟩, ⟨onChip3dDram, first + second, 0, onChip3dDram_supported⟩]

private theorem twoOnChip_reserve {first second : ℕ} :
    ∀ tier ∈ twoOnChip first second, tier.reserveBytes = 0 := by
  simp [twoOnChip]

/-- An item that is never split and finds the first tier full goes to the second tier of the
same name. -/
private theorem fillingOf_second (hatomic : isAtomic x.2 = true)
    (hpos : 0 < tensorFootprintBytes x.1) (hfull : allocations onChip3dDram = capacity)
    (hempty : allocations "lpddr5" = 0) :
    (fillingOf (onChipFirst capacity (twoOnChip capacity (tensorFootprintBytes x.1))) 1 x
      allocations).allocations = allocations.add onChip3dDram (tensorFootprintBytes x.1) := by
  unfold fillingOf
  rw [eligibleTiers_onChipFirst, reservesOf_onChipFirst twoOnChip_reserve,
    effectiveBytes_onChipFirst]
  dsimp only
  rw [if_pos hatomic]
  simp [fillWhole, twoOnChip, usable, hfull, hempty, hpos.ne']

/-- An item that takes no space does not lie in a first tier that is filled beyond its
capacity. -/
private theorem stateAfter_second {second : ℕ} (hatomic : isAtomic x.2 = true)
    (hzero : tensorFootprintBytes x.1 = 0) (hfull : capacity < allocations onChip3dDram)
    (hempty : allocations "lpddr5" = 0) :
    stateAfter (onChipFirst capacity (twoOnChip capacity second)) x allocations ≠ .full := by
  have hfirst : ¬allocations onChip3dDram ≤ capacity := by omega
  have hname : onChip3dDram ≠ "lpddr5" := by decide
  unfold stateAfter locatedOf fillingOf
  rw [eligibleTiers_onChipFirst, reservesOf_onChipFirst twoOnChip_reserve,
    effectiveBytes_onChipFirst]
  dsimp only
  rw [if_pos hatomic, hzero]
  simp [fillWhole, twoOnChip, usable, hfirst, hempty, residenceOf, placementOf, hname]

section Necessity

variable (hindependent : OrderIndependent py graph) (halias : AliasesValid graph)
  (hx : x ∈ classified py graph) (hy : y ∈ classified py graph) (hne : x ≠ y)
  (htied : Tied PlacedBefore x y)

include hindependent halias hx hy hne htied

/-- With room for the larger of two tied items, it resides in full only in front of the
other. -/
private theorem not_both_positive (hpos : 0 < tensorFootprintBytes y.1)
    (hle : tensorFootprintBytes y.1 ≤ tensorFootprintBytes x.1) : False := by
  obtain ⟨items, hstates⟩ := stateAfter_tied hindependent halias hx hy hne htied
  have hnone : ∀ tier ∈ ([] : List MemoryTier), tier.reserveBytes = 0 := by simp
  generalize hsum : (items.map fun item => tensorFootprintBytes item.1).sum = before at *
  have htiers : (onChipFirst (before + tensorFootprintBytes x.1) []).tiers ≠ [] := by
    simp [onChipFirst]
  obtain ⟨ks, c, hplace⟩ := placeAll_exists htiers items fun _ => 0
  have hc : c = TierBytes.add (fun _ => 0) onChip3dDram before := by
    rw [← hsum]
    exact placeAll_fits hnone (by omega) hplace
  have hused : c onChip3dDram = before := by simp [hc, TierBytes.add]
  have heq := hstates _ htiers (validateTiers_onChipFirst hnone) ks c hplace
  rw [stateAfter_full hnone (by omega) (.inr (by omega)), fillingOf_fits hnone (by omega)] at heq
  apply stateAfter_ne_full (by omega) _ heq.symm
  simp only [TierBytes.add, if_true]
  omega

/-- An item that takes no space and may not be split lies in the first tier unless a tied
item has filled a later tier of the same name beyond the capacity of the first. -/
private theorem not_one_empty (hzero : TakesNone x) (hatomic : isAtomic x.2 = true)
    (hpos : 0 < tensorFootprintBytes y.1) : False := by
  obtain ⟨items, hstates⟩ := stateAfter_tied hindependent halias hx hy hne htied
  generalize hsum : (items.map fun item => tensorFootprintBytes item.1).sum = before at *
  have hatomic' : isAtomic y.2 = true := by
    have hpriority := (tied_iff.mp htied).1
    revert hatomic hpriority
    cases x.2 <;> cases y.2 <;> simp [categoryPriority, isAtomic]
  have hzero : tensorFootprintBytes x.1 = 0 := hzero
  have htiers : (onChipFirst before (twoOnChip before (tensorFootprintBytes y.1))).tiers ≠ [] := by
    simp [onChipFirst]
  obtain ⟨ks, c, hplace⟩ := placeAll_exists htiers items fun _ => 0
  have hc : c = TierBytes.add (fun _ => 0) onChip3dDram before := by
    rw [← hsum]
    exact placeAll_fits twoOnChip_reserve (by omega) hplace
  have hused : c onChip3dDram = before := by simp [hc, TierBytes.add]
  have hempty : c "lpddr5" = 0 := by simp [hc, TierBytes.add, onChip3dDram]
  have heq := hstates _ htiers (validateTiers_onChipFirst twoOnChip_reserve) ks c hplace
  rw [stateAfter_full twoOnChip_reserve (by omega) (.inl hatomic),
    fillingOf_second hatomic' hpos hused hempty] at heq
  apply stateAfter_second hatomic hzero _ _ heq.symm
  · simp only [TierBytes.add, if_true]
    omega
  · simpa [TierBytes.add, onChip3dDram] using hempty

theorem interchangeable_of_independent : Interchangeable x y := by
  have htied' : Tied PlacedBefore y x := ⟨htied.2, htied.1⟩
  rcases Nat.eq_zero_or_pos (tensorFootprintBytes x.1) with hx0 | hxpos
  · rcases Nat.eq_zero_or_pos (tensorFootprintBytes y.1) with hy0 | hypos
    · exact .inl ⟨hx0, hy0⟩
    · right
      left
      refine ⟨hx0, ?_⟩
      by_contra hatomic
      exact not_one_empty hindependent halias hx hy hne htied hx0 (by simpa using hatomic) hypos
  · rcases Nat.eq_zero_or_pos (tensorFootprintBytes y.1) with hy0 | hypos
    · right
      right
      refine ⟨hy0, ?_⟩
      by_contra hatomic
      exact not_one_empty hindependent halias hy hx hne.symm htied' hy0 (by simpa using hatomic)
        hxpos
    · exfalso
      rcases le_total (tensorFootprintBytes y.1) (tensorFootprintBytes x.1) with hle | hle
      · exact not_both_positive hindependent halias hx hy hne htied hypos hle
      · exact not_both_positive hindependent halias hy hx hne.symm htied' hxpos hle

end Necessity

/-- The plans of a graph do not depend on the order of its tensors exactly if an invalid
alias rules out every plan, or any two tensors of one priority and one declared size are
interchangeable. -/
theorem order_independent_iff :
    OrderIndependent py graph ↔ ¬AliasesValid graph ∨ TiesHarmless py graph := by
  constructor
  · intro hindependent
    by_cases halias : AliasesValid graph
    · right
      intro x hx y hy hne htied
      exact interchangeable_of_independent hindependent halias hx hy hne htied
    · exact .inl halias
  · intro h graph' hreordered hierarchy residentModels queueBuffers allowSpill
    ext plan
    rw [toOption_eq_some, toOption_eq_some]
    rcases h with halias | hties
    · constructor
      · intro hplan
        exact absurd (hreordered.symm.aliasesValid (aliasesValid_of_plan hplan)) halias
      · intro hplan
        exact absurd (aliasesValid_of_plan hplan) halias
    · constructor
      · exact plan_of_reordered hreordered.symm (hreordered.tiesHarmless hties)
      · exact plan_of_reordered hreordered hties

/-! ### A tie that decides a plan -/

/-- Two activations of 256 bytes. -/
def tiedGraph : WorkloadGraph where
  nodes := sampleGraph.nodes
  tensors := [
    { tensorId := "act_0", shape := [.fixed 128], bytes := 256, producerNode := "n_gemm" },
    { tensorId := "act_1", shape := [.fixed 128], bytes := 256, producerNode := "n_gemm" }]
  nodeIds_nodup := sampleGraph.nodeIds_nodup
  tensorIds_nodup := by decide
  producer_mem := by decide
  alias_mem := by decide

/-- One tier with room for one of them. -/
def tiedHierarchy : MemoryHierarchy where
  tiers := [⟨"sram", 256, 0, sram_supported⟩]
  alignment_pos := sampleHierarchy.alignment_pos

/-- The states of the placements of a plan. -/
def statesOf (plan : Except Error MemoryAccessPlan) : Option (List (String × ResidencyState)) :=
  plan.toOption.map fun plan => plan.placements.map fun p => (p.tensorId, p.state)

/-- The activation that comes first in the graph is resident, the other one spills. -/
theorem tied_activations_differ :
    Reordered tiedGraph (reorder tiedGraph tiedGraph.tensors.reverse (List.reverse_perm _).symm) ∧
      statesOf (buildMemoryAccessPlan sampleBuiltins tiedGraph tiedHierarchy 1 .empty true) =
        some [("act_0", .full), ("act_1", .spill)] ∧
      statesOf (buildMemoryAccessPlan sampleBuiltins
          (reorder tiedGraph tiedGraph.tensors.reverse (List.reverse_perm _).symm)
          tiedHierarchy 1 .empty true) =
        some [("act_0", .spill), ("act_1", .full)] ∧
      ¬OrderIndependent sampleBuiltins tiedGraph := by
  have hreordered : Reordered tiedGraph
      (reorder tiedGraph tiedGraph.tensors.reverse (List.reverse_perm _).symm) :=
    reordered_reorder _
  have hfirst : statesOf (buildMemoryAccessPlan sampleBuiltins tiedGraph tiedHierarchy 1 .empty
      true) = some [("act_0", .full), ("act_1", .spill)] := by decide +kernel
  have hsecond : statesOf (buildMemoryAccessPlan sampleBuiltins
      (reorder tiedGraph tiedGraph.tensors.reverse (List.reverse_perm _).symm) tiedHierarchy 1
      .empty true) = some [("act_0", .spill), ("act_1", .full)] := by decide +kernel
  refine ⟨hreordered, hfirst, hsecond, ?_⟩
  intro hindependent
  have heq := hindependent _ hreordered tiedHierarchy 1 .empty true
  unfold statesOf at hfirst hsecond
  rw [heq, hfirst] at hsecond
  exact absurd hsecond (by decide)

end Residency

end NpuArc
