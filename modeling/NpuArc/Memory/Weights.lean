import NpuArc.Memory.Spill
import NpuArc.Memory.Rounding

/-!
# Where weights lie

Weights are placed before everything else, so where they lie depends on the weights alone. Nothing
of them is spilled exactly when their home, the first tier that weights may use, holds them all,
and then each lies in it.
-/

namespace NpuArc

namespace Residency

variable {py : Builtins} {graph : WorkloadGraph} {hierarchy : MemoryHierarchy}
  {residentModels : ℤ} {queueBuffers : Dict String ℤ} {allowSpill : Bool}
  {plan : MemoryAccessPlan} {models : ℕ} {home : MemoryTier}

/-- The weights of a graph. -/
def weights (py : Builtins) (graph : WorkloadGraph) : List TensorSpec :=
  graph.tensors.filter fun tensor => decide (classifyTensor py graph tensor = .weight)

/-- The bytes that the weights of a graph take, for a number of resident models. -/
def weightLoad (py : Builtins) (graph : WorkloadGraph) (alignment models : ℕ) : ℕ :=
  ((weights py graph).map fun tensor =>
    alignUp (tensorFootprintBytes tensor) alignment * models).sum

/-- The placements of the weights of a plan. -/
def MemoryAccessPlan.weights (plan : MemoryAccessPlan) : List TensorPlacement :=
  plan.placements.filter fun p => decide (p.category = .weight)

/-! ### Weights come first -/

/-- Whether a classified tensor is a weight. -/
def isWeight (item : TensorSpec × Category) : Bool := decide (item.2 = .weight)

/-- The weights in the order of placement. -/
def sortedWeights (py : Builtins) (graph : WorkloadGraph) : List (TensorSpec × Category) :=
  (sortedTensors py graph).filter isWeight

/-- The other tensors in the order of placement. -/
def sortedOthers (py : Builtins) (graph : WorkloadGraph) : List (TensorSpec × Category) :=
  (sortedTensors py graph).filter fun item => !isWeight item

theorem sortedWeights_append (py : Builtins) (graph : WorkloadGraph) :
    sortedWeights py graph ++ sortedOthers py graph = sortedTensors py graph := by
  have : Std.Total PlacedBefore := ⟨placedBefore_total⟩
  have : IsTrans _ PlacedBefore := ⟨placedBefore_trans⟩
  have hsorted : (sortedTensors py graph).Pairwise PlacedBefore := List.pairwise_insertionSort _ _
  refine TiedSort.filter_append_filter_not (hsorted.imp fun {a b} hab hb => ?_)
  have hweight : b.2 = .weight := of_decide_eq_true hb
  have hzero : categoryPriority a.2 = 0 := by
    have hprior : categoryPriority b.2 = 0 := by rw [hweight]; rfl
    unfold PlacedBefore at hab
    omega
  cases ha : a.2 <;> rw [ha] at hzero <;> first | exact decide_eq_true ha | cases hzero

theorem sortedWeights_perm (py : Builtins) (graph : WorkloadGraph) :
    (sortedWeights py graph).Perm ((weights py graph).map fun tensor => (tensor, .weight)) := by
  have hfilter : (classified py graph).filter isWeight =
      (weights py graph).map fun tensor => (tensor, Category.weight) := by
    unfold classified weights
    rw [List.filter_map]
    refine List.map_congr_left fun tensor htensor => ?_
    have hweight : classifyTensor py graph tensor = .weight :=
      of_decide_eq_true (List.mem_filter.mp htensor).2
    rw [hweight]
  rw [← hfilter]
  exact sortedTensors_perm.filter _

theorem mem_sortedWeights {item : TensorSpec × Category} (h : item ∈ sortedWeights py graph) :
    item.2 = .weight :=
  of_decide_eq_true (List.mem_filter.mp h).2

theorem placementForTensor_category {item : TensorSpec × Category} {a b : TierBytes} {l : Located}
    (h : placementForTensor hierarchy models item.1 item.2 a = .ok (l, b)) :
    l.placement.category = item.2 := by
  obtain ⟨-, rfl, -⟩ := placementForTensor_eq_ok.mp h
  rfl

theorem placementForBuffer_category {item : String × ℤ} {a b : TierBytes} {l : Located}
    (h : placementForBuffer hierarchy item.1 item.2 a = .ok (l, b)) :
    l.placement.category = .queue := by
  unfold placementForBuffer at h
  split_ifs at h
  cases h
  rfl

/-- The weights are placed first, in a memory that holds nothing else. -/
theorem locate_weights {ls : List Located} {allocations : TierBytes}
    (h : locate py graph hierarchy residentModels queueBuffers = .ok (ls, allocations)) :
    ∃ ks c others, placeAll
        (fun item => placementForTensor hierarchy residentModels.toNat item.1 item.2)
        (sortedWeights py graph) (fun _ => 0) = .ok (ks, c) ∧
      ls = ks ++ others ∧ (∀ l ∈ ks, l.placement.category = .weight) ∧
      ∀ l ∈ others, l.placement.category ≠ .weight := by
  obtain ⟨-, -, -, tensors, a, buffers, htensors, hbuffers, rfl⟩ := locate_eq_ok.mp h
  rw [← sortedWeights_append] at htensors
  obtain ⟨ks, c, js, hks, hjs, rfl⟩ := placeAll_append.mp htensors
  have hcategories := placeAll_map (f := fun l => l.placement.category) (g := Prod.snd)
    (fun _ _ _ _ => placementForTensor_category) hks
  have hothers := placeAll_map (f := fun l => l.placement.category) (g := Prod.snd)
    (fun _ _ _ _ => placementForTensor_category) hjs
  have hqueues := placeAll_map (f := fun l => l.placement.category) (g := fun _ => Category.queue)
    (fun _ _ _ _ => placementForBuffer_category) hbuffers
  refine ⟨ks, c, js ++ buffers, hks, List.append_assoc _ _ _, fun l hl => ?_, fun l hl => ?_⟩
  · have hmem := List.mem_map_of_mem (f := fun l : Located => l.placement.category) hl
    rw [hcategories] at hmem
    obtain ⟨item, hitem, hcategory⟩ := List.mem_map.mp hmem
    rw [← hcategory, mem_sortedWeights hitem]
  · have hmem := List.mem_map_of_mem (f := fun l : Located => l.placement.category) hl
    rw [List.map_append, hothers, hqueues] at hmem
    rcases List.mem_append.mp hmem with hmem | hmem
    · obtain ⟨item, hitem, hcategory⟩ := List.mem_map.mp hmem
      have hother := (List.mem_filter.mp hitem).2
      rw [← hcategory]
      simpa [isWeight] using hother
    · obtain ⟨item, -, hcategory⟩ := List.mem_map.mp hmem
      rw [← hcategory]
      decide

/-- The weights of a plan are those that were placed first. -/
theorem plan_weights_perm
    (h : buildMemoryAccessPlan py graph hierarchy residentModels queueBuffers allowSpill =
      .ok plan) :
    ∃ ls a, validateTiers hierarchy = .ok () ∧
      placeAll (fun item => placementForTensor hierarchy residentModels.toNat item.1 item.2)
        (sortedWeights py graph) (fun _ => 0) = .ok (ls, a) ∧
      plan.weights.Perm (ls.map (·.placement)) := by
  obtain ⟨ls, allocations, hlocate, -, hcontents, -⟩ := buildMemoryAccessPlan_eq_ok.mp h
  have hvalid := (locate_eq_ok.mp hlocate).2.1
  obtain ⟨ks, c, others, hks, rfl, hweights, hnone⟩ := locate_weights hlocate
  refine ⟨ks, c, hvalid, hks, ?_⟩
  have hplacements : plan.placements = sortedPlacements (ks ++ others) :=
    congrArg (·.placements) hcontents
  unfold MemoryAccessPlan.weights
  rw [hplacements]
  refine ((sortedPlacements_perm _).filter _).trans (List.Perm.of_eq ?_)
  rw [List.map_append, List.filter_append]
  have hkeep : (ks.map (·.placement)).filter (fun p => decide (p.category = .weight)) =
      ks.map (·.placement) := by
    refine List.filter_eq_self.mpr fun p hp => ?_
    obtain ⟨l, hl, rfl⟩ := List.mem_map.mp hp
    exact decide_eq_true (hweights l hl)
  have hdrop : (others.map (·.placement)).filter
      (fun p => decide (p.category = .weight)) = [] := by
    refine List.filter_eq_nil_iff.mpr fun p hp => ?_
    obtain ⟨l, hl, rfl⟩ := List.mem_map.mp hp
    simpa using hnone l hl
  rw [hkeep, hdrop, List.append_nil]

/-! ### Weights at home -/

/-- A weight that is not spilled lies in the home of weights. -/
theorem placementForTensor_destination {item : TensorSpec × Category} {a b : TierBytes}
    {l : Located} (hhead : (eligibleTiers .weight hierarchy).head? = some home)
    (hroom : Room hierarchy a) (hitem : item.2 = .weight)
    (h : placementForTensor hierarchy models item.1 item.2 a = .ok (l, b))
    (hspill : l.placement.spillBytes = 0) : l.placement.destinationTier = home.name := by
  obtain ⟨-, rfl, -⟩ := placementForTensor_eq_ok.mp h
  have hspilled : (residenceOf (eligibleTiers item.2 hierarchy)
      (effectiveBytes hierarchy.defaultAlignmentBytes models item)
      (fillingOf hierarchy models item a)).spillBytes = 0 := hspill
  change (residenceOf (eligibleTiers item.2 hierarchy)
    (effectiveBytes hierarchy.defaultAlignmentBytes models item)
    (fillingOf hierarchy models item a)).destination = home.name
  have hmem : home ∈ hierarchy.tiers := mem_of_mem_eligibleTiers (List.mem_of_mem_head? hhead)
  obtain ⟨rest, heligible⟩ : ∃ rest, eligibleTiers .weight hierarchy = home :: rest :=
    List.head?_eq_some_iff.mp hhead
  rw [hitem, heligible] at hspilled ⊢
  have hfilling : fillingOf hierarchy models item a = fillWhole (reservesOf hierarchy) a
      (effectiveBytes hierarchy.defaultAlignmentBytes models item) (home :: rest) := by
    unfold fillingOf
    rw [hitem, heligible]
    rfl
  rw [hfilling] at hspilled ⊢
  by_cases hfits : (effectiveBytes hierarchy.defaultAlignmentBytes models item : ℤ) ≤
      usable a (reservesOf hierarchy) home
  · rw [fillWhole, if_pos hfits]
    simp [residenceOf]
  · -- What does not fit is not empty, so it would be spilled from any other tier.
    have hpos : effectiveBytes hierarchy.defaultAlignmentBytes models item ≠ 0 := by
      intro hzero
      have := hroom home hmem
      rw [hzero] at hfits
      omega
    unfold residenceOf at hspilled ⊢
    split at hspilled
    · exact absurd hspilled hpos
    · next name placed others hparts =>
      dsimp only at hspilled ⊢
      by_cases hname : (List.head? (home :: rest)).map (·.name) = some name
      · rw [List.head?_cons, Option.map_some, Option.some.injEq] at hname
        split_ifs <;> exact hname.symm
      · rw [if_neg (fun hand => hname hand.2.2), if_neg hname] at hspilled
        exact absurd hspilled hpos

/-- Weights of which nothing is spilled lie in their home. -/
theorem placeAll_destination (hnames : hierarchy.names.Nodup)
    (hhead : (eligibleTiers .weight hierarchy).head? = some home)
    {items : List (TensorSpec × Category)} {a b : TierBytes} {ls : List Located}
    (hitems : ∀ item ∈ items, item.2 = .weight) (hroom : Room hierarchy a)
    (h : placeAll (fun item => placementForTensor hierarchy models item.1 item.2) items a =
      .ok (ls, b))
    (hspill : ∀ l ∈ ls, l.placement.spillBytes = 0) :
    ∀ l ∈ ls, l.placement.destinationTier = home.name := by
  induction items generalizing a ls with
  | nil =>
    cases h
    simp
  | cons item items ih =>
    obtain ⟨l, c, ks, hitem, hrest, rfl⟩ := placeAll_cons.mp h
    rw [List.forall_mem_cons] at hitems hspill
    have hplaced := placementForTensor_placed hitem
    refine List.forall_mem_cons.mpr
      ⟨placementForTensor_destination hhead hroom hitems.1 hitem hspill.1, ?_⟩
    exact ih hitems.2 (hplaced.room hnames hroom) hrest hspill.2

/-- The load of the home of weights is that of all weights. -/
theorem homeLoads_weights (hhead : (eligibleTiers .weight hierarchy).head? = some home) :
    homeLoads hierarchy ((sortedWeights py graph).map (tensorDemand hierarchy models)) home.name =
      weightLoad py graph hierarchy.defaultAlignmentBytes models := by
  unfold homeLoads weightLoad
  rw [List.map_map]
  refine (((sortedWeights_perm py graph).map _).sum_eq).trans ?_
  rw [List.map_map]
  refine congrArg List.sum (List.map_congr_left fun tensor _ => ?_)
  simp [tensorDemand, effectiveBytes, homeName_of_head hhead]

/-- Nothing of the weights is spilled exactly when their home holds them. -/
theorem plan_weights_spill (hnames : hierarchy.names.Nodup)
    (hhead : (eligibleTiers .weight hierarchy).head? = some home)
    (h : buildMemoryAccessPlan py graph hierarchy residentModels queueBuffers allowSpill =
      .ok plan) :
    (plan.weights.map (·.spillBytes)).sum = 0 ↔
      weightLoad py graph hierarchy.defaultAlignmentBytes residentModels.toNat ≤
        home.usableBytes := by
  obtain ⟨ls, a, hvalid, hplace, hperm⟩ := plan_weights_perm h
  have hmem : home ∈ hierarchy.tiers := mem_of_mem_eligibleTiers (List.mem_of_mem_head? hhead)
  have husable : usable (fun _ => 0) (reservesOf hierarchy) home = home.usableBytes := by
    have hroom := room_zero hnames hvalid home hmem
    simp only [usable, reservesOf_of_mem hnames hmem, MemoryTier.usableBytes] at hroom ⊢
    omega
  have hspill := (placeAll_spill _ (tensorDemand hierarchy residentModels.toNat)
    (fun _ _ _ _ => placementForTensor_serves) hplace).1
  rw [(hperm.map _).sum_eq, List.map_map]
  refine hspill.trans ?_
  rw [atHome_iff_loads hnames, ← homeLoads_weights hhead]
  constructor
  · intro hloads
    rcases Nat.eq_zero_or_pos (homeLoads hierarchy
      ((sortedWeights py graph).map (tensorDemand hierarchy residentModels.toNat)) home.name) with
      hzero | hpos
    · rw [hzero]
      exact Nat.zero_le _
    · obtain ⟨d, hd, hbytes, -⟩ := exists_of_homeLoads hpos.ne'
      obtain ⟨tier, htier, hload⟩ := hloads d hd hbytes
      obtain ⟨item, hitem, rfl⟩ := List.mem_map.mp hd
      have hcategory : (tensorDemand hierarchy residentModels.toNat item).category = .weight :=
        mem_sortedWeights hitem
      rw [hcategory, hhead] at htier
      cases htier
      rw [husable] at hload
      exact_mod_cast hload
  · intro hload d hd _
    obtain ⟨item, hitem, rfl⟩ := List.mem_map.mp hd
    have hcategory : (tensorDemand hierarchy residentModels.toNat item).category = .weight :=
      mem_sortedWeights hitem
    refine ⟨home, ?_, ?_⟩
    · rw [hcategory]
      exact hhead
    · rw [husable]
      exact_mod_cast hload

/-- Weights of which nothing is spilled lie in their home. -/
theorem plan_weights_destination (hnames : hierarchy.names.Nodup)
    (hhead : (eligibleTiers .weight hierarchy).head? = some home)
    (h : buildMemoryAccessPlan py graph hierarchy residentModels queueBuffers allowSpill =
      .ok plan)
    (hspill : (plan.weights.map (·.spillBytes)).sum = 0) :
    ∀ p ∈ plan.weights, p.destinationTier = home.name := by
  obtain ⟨ls, a, hvalid, hplace, hperm⟩ := plan_weights_perm h
  rw [(hperm.map _).sum_eq, List.map_map, List.sum_eq_zero_iff] at hspill
  intro p hp
  obtain ⟨l, hl, rfl⟩ := List.mem_map.mp (hperm.mem_iff.mp hp)
  exact placeAll_destination hnames hhead (fun _ => mem_sortedWeights) (room_zero hnames hvalid)
    hplace (fun l hl => hspill _ (List.mem_map_of_mem hl)) l hl

theorem plan_weights_eq_nil
    (h : buildMemoryAccessPlan py graph hierarchy residentModels queueBuffers allowSpill =
      .ok plan) : plan.weights = [] ↔ weights py graph = [] := by
  obtain ⟨ls, a, -, hplace, hperm⟩ := plan_weights_perm h
  have hcategories := placeAll_map (f := fun l => l.placement.category) (g := Prod.snd)
    (fun _ _ _ _ => placementForTensor_category) hplace
  have hlength : ls.length = (sortedWeights py graph).length := by
    simpa using congrArg List.length hcategories
  have hsorted : (sortedWeights py graph).length = (weights py graph).length := by
    simpa using (sortedWeights_perm py graph).length_eq
  have hplan : plan.weights.length = ls.length := by simpa using hperm.length_eq
  rw [← List.length_eq_zero_iff, hplan, hlength, hsorted, List.length_eq_zero_iff]

end Residency

/-! ### Weights outside the buffer

Weights are meant to skip the SRAM. The planner drops the tiers before the on-chip DRAM for them,
and nothing where there is no such tier, so an SRAM that weights may use takes what it has room
for. Weights stay outside exactly when packing them into the other tiers never meets an SRAM with
room. -/

namespace Residency

variable {py : Builtins} {graph : WorkloadGraph} {hierarchy : MemoryHierarchy}
  {residentModels : ℤ} {queueBuffers : Dict String ℤ} {allowSpill : Bool}
  {plan : MemoryAccessPlan} {models : ℕ} {reserves a : TierBytes} {tiers : List MemoryTier}
  {size : ℕ}

/-- The name of the on-chip buffer. -/
def sramName : String := "sram"

/-! ### The tier of a weight -/

/-- The first tier that has room for some bytes. -/
def firstFit (reserves a : TierBytes) (size : ℕ) (tiers : List MemoryTier) : Option MemoryTier :=
  tiers.find? fun tier => decide ((size : ℤ) ≤ usable a reserves tier)

theorem firstFit_cons_of_le {tier : MemoryTier} (h : (size : ℤ) ≤ usable a reserves tier) :
    firstFit reserves a size (tier :: tiers) = some tier := by
  rw [firstFit, List.find?_cons, decide_eq_true h]

theorem firstFit_cons_of_lt {tier : MemoryTier} (h : usable a reserves tier < size) :
    firstFit reserves a size (tier :: tiers) = firstFit reserves a size tiers := by
  rw [firstFit, List.find?_cons, decide_eq_false (not_le.mpr h), firstFit]

theorem le_usable_of_firstFit {tier : MemoryTier} (h : firstFit reserves a size tiers = some tier) :
    (size : ℤ) ≤ usable a reserves tier := by
  have hfits := List.find?_some h
  exact of_decide_eq_true hfits

theorem firstFit_eq_none_iff :
    firstFit reserves a size tiers = none ↔ ∀ tier ∈ tiers, usable a reserves tier < size := by
  rw [firstFit, List.find?_eq_none]
  simp

/-- Bytes that are placed whole lie in the first tier with room. -/
theorem fillWhole_eq (reserves a : TierBytes) (size : ℕ) (tiers : List MemoryTier) :
    fillWhole reserves a size tiers = ((firstFit reserves a size tiers).map fun tier =>
      (⟨[(tier.name, size)], a.add tier.name size, 0⟩ : Filling)).getD ⟨[], a, size⟩ := by
  induction tiers with
  | nil => rfl
  | cons tier tiers ih =>
    unfold fillWhole
    by_cases hfits : (size : ℤ) ≤ usable a reserves tier
    · rw [if_pos hfits, firstFit_cons_of_le hfits]
      rfl
    · rw [if_neg hfits, firstFit_cons_of_lt (not_le.mp hfits)]
      exact ih

/-- A weight lies in the first tier with room, or is spilled from the slowest tier. -/
theorem destination_fillWhole (reserves a : TierBytes) (size : ℕ) (tiers : List MemoryTier) :
    (residenceOf tiers size (fillWhole reserves a size tiers)).destination =
      ((firstFit reserves a size tiers).map (·.name)).getD (slowestName tiers) := by
  rw [fillWhole_eq]
  cases firstFit reserves a size tiers with
  | none => rfl
  | some tier =>
    simp only [Option.map_some, Option.getD_some, residenceOf]
    split_ifs <;> rfl

/-- The SRAM takes no bytes: none of them comes before the first other tier with room and has
room itself, and it is not the slowest tier if there is no room elsewhere. -/
def Spared (reserves a : TierBytes) (size : ℕ) (tiers : List MemoryTier) : Prop :=
  (∀ tier ∈ tiers.takeWhile fun tier =>
      decide (tier.name = sramName ∨ usable a reserves tier < size),
    usable a reserves tier < size) ∧
  ((∀ tier ∈ tiers, tier.name ≠ sramName → usable a reserves tier < size) →
    slowestName tiers ≠ sramName)

/-- The tiers other than the SRAM. -/
def otherTiers (tiers : List MemoryTier) : List MemoryTier :=
  tiers.filter fun tier => decide (tier.name ≠ sramName)

/-- Packing weights one after the other into the other tiers spares the SRAM. -/
def SparedAll (reserves : TierBytes) (tiers : List MemoryTier) : TierBytes → List ℕ → Prop
  | _, [] => True
  | a, size :: sizes => Spared reserves a size tiers ∧
    SparedAll reserves tiers (fillWhole reserves a size (otherTiers tiers)).allocations sizes

/-- The first tier with room is not the SRAM if none of the SRAM before the first other tier with
room has room itself. -/
theorem firstFit_ne_iff : (∀ tier, firstFit reserves a size tiers = some tier →
    tier.name ≠ sramName) ↔ ∀ tier ∈ tiers.takeWhile fun tier =>
      decide (tier.name = sramName ∨ usable a reserves tier < size),
        usable a reserves tier < size := by
  induction tiers with
  | nil => simp [firstFit]
  | cons tier tiers ih =>
    by_cases hfits : (size : ℤ) ≤ usable a reserves tier
    · rw [firstFit_cons_of_le hfits]
      by_cases hname : tier.name = sramName
      · rw [List.takeWhile_cons_of_pos (by simp [hname])]
        constructor
        · intro h
          exact absurd hname (h tier rfl)
        · intro h
          exact absurd (h tier List.mem_cons_self) (not_lt.mpr hfits)
      · rw [List.takeWhile_cons_of_neg (by simp [hname, not_lt.mpr hfits])]
        constructor
        · intro _ t ht
          cases ht
        · intro _ t ht
          cases ht
          exact hname
    · have hroom : usable a reserves tier < size := not_le.mp hfits
      rw [firstFit_cons_of_lt hroom, List.takeWhile_cons_of_pos (by simp [hroom]), ih]
      constructor
      · intro h t ht
        obtain rfl | ht := List.mem_cons.mp ht
        · exact hroom
        · exact h t ht
      · intro h t ht
        exact h t (List.mem_cons_of_mem _ ht)

/-- A weight lies outside the SRAM exactly when the SRAM is spared. -/
theorem destination_ne_iff :
    (residenceOf tiers size (fillWhole reserves a size tiers)).destination ≠ sramName ↔
      Spared reserves a size tiers := by
  rw [destination_fillWhole, Spared, ← firstFit_ne_iff]
  cases hfirst : firstFit reserves a size tiers with
  | none =>
    have hnone := firstFit_eq_none_iff.mp hfirst
    constructor
    · intro h
      exact ⟨fun tier ht => (by cases ht), fun _ => h⟩
    · intro h
      exact h.2 fun tier htier _ => hnone tier htier
  | some tier =>
    have hroom := le_usable_of_firstFit hfirst
    constructor
    · intro h
      refine ⟨fun t ht => ?_, fun hall => ?_⟩
      · cases ht
        exact h
      · exact absurd (hall tier (List.mem_of_find?_eq_some hfirst) h) (not_lt.mpr hroom)
    · intro h
      exact h.1 tier rfl

theorem otherTiers_cons_of_ne {tier : MemoryTier} (h : tier.name ≠ sramName) :
    otherTiers (tier :: tiers) = tier :: otherTiers tiers := by
  simp [otherTiers, h]

theorem otherTiers_cons_of_eq {tier : MemoryTier} (h : tier.name = sramName) :
    otherTiers (tier :: tiers) = otherTiers tiers := by
  simp [otherTiers, h]

/-- Where the first tier with room is not the SRAM, the SRAM plays no part. -/
theorem firstFit_otherTiers
    (h : ∀ tier, firstFit reserves a size tiers = some tier → tier.name ≠ sramName) :
    firstFit reserves a size (otherTiers tiers) = firstFit reserves a size tiers := by
  induction tiers with
  | nil => rfl
  | cons tier tiers ih =>
    by_cases hfits : (size : ℤ) ≤ usable a reserves tier
    · have hname := h tier (firstFit_cons_of_le hfits)
      rw [otherTiers_cons_of_ne hname, firstFit_cons_of_le hfits, firstFit_cons_of_le hfits]
    · have hroom : usable a reserves tier < size := not_le.mp hfits
      rw [firstFit_cons_of_lt hroom] at h ⊢
      by_cases hname : tier.name = sramName
      · rw [otherTiers_cons_of_eq hname, ih h]
      · rw [otherTiers_cons_of_ne hname, firstFit_cons_of_lt hroom, ih h]

/-! ### All weights -/

/-- A weight is placed whole. -/
theorem placementForTensor_weight {item : TensorSpec × Category} {b : TierBytes} {l : Located}
    (hitem : item.2 = .weight)
    (h : placementForTensor hierarchy models item.1 item.2 a = .ok (l, b)) :
    let filling := fillWhole (reservesOf hierarchy) a
      (effectiveBytes hierarchy.defaultAlignmentBytes models item) (eligibleTiers .weight hierarchy)
    l.placement.destinationTier = (residenceOf (eligibleTiers .weight hierarchy)
        (effectiveBytes hierarchy.defaultAlignmentBytes models item) filling).destination ∧
      l.parts = filling.parts ∧ b = filling.allocations := by
  obtain ⟨-, rfl, rfl⟩ := placementForTensor_eq_ok.mp h
  obtain ⟨tensor, category⟩ := item
  cases hitem
  exact ⟨rfl, rfl, rfl⟩

/-- Bytes of a weight lie in its destination only. -/
theorem bytesIn_fillWhole (h : (residenceOf tiers size
    (fillWhole reserves a size tiers)).destination ≠ sramName) :
    bytesIn sramName (fillWhole reserves a size tiers).parts = 0 := by
  rw [destination_fillWhole] at h
  rw [fillWhole_eq]
  cases hfirst : firstFit reserves a size tiers with
  | none => rfl
  | some tier =>
    rw [hfirst, Option.map_some, Option.getD_some] at h
    simp [h]

/-- Weights that are placed one after the other lie outside the SRAM exactly when it is spared. -/
theorem placeAll_spared_iff {items : List (TensorSpec × Category)} {b : TierBytes}
    {ls : List Located} (hitems : ∀ item ∈ items, item.2 = .weight)
    (h : placeAll (fun item => placementForTensor hierarchy models item.1 item.2) items a =
      .ok (ls, b)) :
    (∀ l ∈ ls, l.placement.destinationTier ≠ sramName) ↔
      SparedAll (reservesOf hierarchy) (eligibleTiers .weight hierarchy) a
        (items.map (effectiveBytes hierarchy.defaultAlignmentBytes models)) := by
  induction items generalizing a ls with
  | nil =>
    cases h
    simp [SparedAll]
  | cons item items ih =>
    obtain ⟨l, c, ks, hitem, hrest, rfl⟩ := placeAll_cons.mp h
    rw [List.forall_mem_cons] at hitems ⊢
    obtain ⟨hdestination, -, hallocations⟩ := placementForTensor_weight hitems.1 hitem
    rw [hdestination, destination_ne_iff, ih hitems.2 hrest, List.map_cons, SparedAll]
    refine and_congr_right fun hspared => ?_
    have hsame : firstFit (reservesOf hierarchy) a _
        (otherTiers (eligibleTiers .weight hierarchy)) = _ :=
      firstFit_otherTiers (firstFit_ne_iff.mpr hspared.1)
    rw [hallocations, fillWhole_eq, fillWhole_eq, hsame]

/-- Weights outside the SRAM have no bytes in it. -/
theorem placeAll_bytesIn {items : List (TensorSpec × Category)} {b : TierBytes}
    {ls : List Located} (hitems : ∀ item ∈ items, item.2 = .weight)
    (h : placeAll (fun item => placementForTensor hierarchy models item.1 item.2) items a =
      .ok (ls, b)) :
    ∀ l ∈ ls, l.placement.destinationTier ≠ sramName → bytesIn sramName l.parts = 0 := by
  induction items generalizing a ls with
  | nil =>
    cases h
    simp
  | cons item items ih =>
    obtain ⟨l, c, ks, hitem, hrest, rfl⟩ := placeAll_cons.mp h
    rw [List.forall_mem_cons] at hitems ⊢
    obtain ⟨hdestination, hparts, -⟩ := placementForTensor_weight hitems.1 hitem
    refine ⟨fun hname => ?_, ih hitems.2 hrest⟩
    rw [hparts]
    exact bytesIn_fillWhole (hdestination ▸ hname)

/-- The bytes of the weights in the order of placement. -/
def weightSizes (py : Builtins) (graph : WorkloadGraph) (hierarchy : MemoryHierarchy)
    (models : ℕ) : List ℕ :=
  (sortedWeights py graph).map (effectiveBytes hierarchy.defaultAlignmentBytes models)

/-- No weight of a plan has its destination or any bytes in the SRAM exactly when packing the
weights into the other tiers that they may use spares the SRAM. -/
theorem weights_outside_sram_iff
    (h : buildMemoryAccessPlan py graph hierarchy residentModels queueBuffers allowSpill =
      .ok plan) :
    ∃ ls allocations, locate py graph hierarchy residentModels queueBuffers =
        .ok (ls, allocations) ∧ plan.placements = sortedPlacements ls ∧
      ((∀ l ∈ ls, l.placement.category = .weight →
          l.placement.destinationTier ≠ sramName ∧ bytesIn sramName l.parts = 0) ↔
        SparedAll (reservesOf hierarchy) (eligibleTiers .weight hierarchy) (fun _ => 0)
          (weightSizes py graph hierarchy residentModels.toNat)) := by
  obtain ⟨ls, allocations, hlocate, -, hcontents, -⟩ := buildMemoryAccessPlan_eq_ok.mp h
  refine ⟨ls, allocations, hlocate, congrArg (·.placements) hcontents, ?_⟩
  obtain ⟨ks, c, others, hks, rfl, hweights, hnone⟩ := locate_weights hlocate
  rw [weightSizes, ← placeAll_spared_iff (fun _ => mem_sortedWeights) hks]
  constructor
  · intro hall l hl
    exact (hall l (List.mem_append_left _ hl) (hweights l hl)).1
  · intro hall l hl hcategory
    obtain hl | hl := List.mem_append.mp hl
    · exact ⟨hall l hl, placeAll_bytesIn (fun _ => mem_sortedWeights) hks l hl (hall l hl)⟩
    · exact absurd hcategory (hnone l hl)

/-- An SRAM and an external memory. -/
def twoTiers : MemoryHierarchy where
  tiers := [⟨sramName, 256, 0, sram_supported⟩, ⟨"lpddr5", 4096, 0, lpddr5_supported⟩]
  alignment_pos := sampleHierarchy.alignment_pos

/-- A graph with a single weight. -/
def weightGraph : WorkloadGraph :=
  { inputGraph with
    tensors := [{ tensorId := "weight0", shape := [.fixed (Nat.succPNat 63)], bytes := 64 }]
    tensorIds_nodup := by decide
    producer_mem := by decide
    alias_mem := by decide }

/-- The plan of the single weight. -/
def weightPlan : Except Error MemoryAccessPlan :=
  buildMemoryAccessPlan sampleBuiltins weightGraph twoTiers 1 .empty true

/-- Without an on-chip DRAM a weight lies in the SRAM. -/
theorem weightGraph_in_sram : ∃ plan, weightPlan = .ok plan ∧
    ∃ p ∈ plan.placements, p.category = .weight ∧ p.destinationTier = sramName := by
  have htest : (weightPlan.toOption.any fun plan => plan.placements.any fun p =>
      decide (p.category = .weight ∧ p.destinationTier = sramName)) = true := by
    decide +kernel
  obtain ⟨plan, hplan, htest⟩ := (Option.any_eq_true _ _).mp htest
  obtain ⟨p, hp, htest⟩ := List.any_eq_true.mp htest
  exact ⟨plan, toOption_eq_some.mp hplan, p, hp, of_decide_eq_true htest⟩

theorem weights_outside_sram_sample : ∃ plan, samplePlan = .ok plan ∧
    ∃ ls allocations, locate sampleBuiltins sampleGraph sampleHierarchy 1 .empty =
        .ok (ls, allocations) ∧ plan.placements = sortedPlacements ls ∧
      ((∀ l ∈ ls, l.placement.category = .weight →
          l.placement.destinationTier ≠ sramName ∧ bytesIn sramName l.parts = 0) ↔
        SparedAll (reservesOf sampleHierarchy) (eligibleTiers .weight sampleHierarchy)
          (fun _ => 0) (weightSizes sampleBuiltins sampleGraph sampleHierarchy 1)) := by
  have hsome : samplePlan.toOption.isSome = true := by decide +kernel
  obtain ⟨plan, hplan⟩ := Option.isSome_iff_exists.mp hsome
  have hok : samplePlan = .ok plan := toOption_eq_some.mp hplan
  exact ⟨plan, hok, weights_outside_sram_iff hok⟩

/-! ### Hierarchies with the SRAM first -/

/-- Weights that may not use the SRAM spare it. -/
theorem sparedAll_of_forall_ne (h : ∀ tier ∈ tiers, tier.name ≠ sramName) (sizes : List ℕ) :
    SparedAll reserves tiers a sizes := by
  induction sizes generalizing a with
  | nil => trivial
  | cons size sizes ih =>
    refine ⟨⟨fun tier htier => ?_, fun _ => ?_⟩, ih⟩
    · have hbefore := of_decide_eq_true (List.all_eq_true.mp List.all_takeWhile tier htier)
      exact hbefore.resolve_left (h tier ((List.takeWhile_sublist _).subset htier))
    · cases hlast : tiers.getLast? with
      | none =>
        rw [slowestName, hlast]
        decide
      | some tier =>
        rw [slowestName, hlast]
        exact h tier (List.mem_of_getLast? hlast)

theorem usable_fillWhole {sram : MemoryTier} (hsram : sram.name = sramName)
    (hothers : ∀ tier ∈ tiers, tier.name ≠ sramName) :
    usable (fillWhole reserves a size tiers).allocations reserves sram =
      usable a reserves sram := by
  rw [fillWhole_eq]
  cases hfirst : firstFit reserves a size tiers with
  | none => rfl
  | some tier =>
    have hne : sram.name ≠ tier.name := by
      rw [hsram]
      exact (hothers tier (List.mem_of_find?_eq_some hfirst)).symm
    simp [usable, TierBytes.add, hne]

/-- An SRAM before other tiers is spared exactly when each weight is larger than its room. -/
theorem sparedAll_cons_iff {sram : MemoryTier} (hsram : sram.name = sramName) (hne : tiers ≠ [])
    (hothers : ∀ tier ∈ tiers, tier.name ≠ sramName) (sizes : List ℕ) :
    SparedAll reserves (sram :: tiers) a sizes ↔ ∀ size ∈ sizes, usable a reserves sram < size := by
  have hother : otherTiers (sram :: tiers) = tiers := by
    rw [otherTiers_cons_of_eq hsram]
    exact List.filter_eq_self.mpr fun tier htier => decide_eq_true (hothers tier htier)
  have hslowest : slowestName (sram :: tiers) ≠ sramName := by
    cases hlast : tiers.getLast? with
    | none => exact absurd (List.getLast?_eq_none_iff.mp hlast) hne
    | some last =>
      rw [slowestName, List.getLast?_cons, hlast]
      exact hothers last (List.mem_of_getLast? hlast)
  induction sizes generalizing a with
  | nil => simp [SparedAll]
  | cons size sizes ih =>
    have hrest := ih (a := (fillWhole reserves a size tiers).allocations)
    rw [usable_fillWhole hsram hothers] at hrest
    rw [SparedAll, hother, List.forall_mem_cons]
    refine and_congr ⟨fun h => ?_, fun h => ⟨fun tier htier => ?_, fun _ => hslowest⟩⟩ hrest
    · exact h.1 sram (by simp [hsram])
    · have hbefore := of_decide_eq_true (List.all_eq_true.mp List.all_takeWhile tier htier)
      obtain hname | hroom := hbefore
      · obtain rfl | hmem := List.mem_cons.mp ((List.takeWhile_sublist _).subset htier)
        · exact h
        · exact absurd hname (hothers tier hmem)
      · exact hroom

end Residency

end NpuArc
