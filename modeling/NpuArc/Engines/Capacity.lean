import NpuArc.Engines.Creation
import NpuArc.Memory.Ties
import NpuArc.Memory.Weights

/-!
# The memory on the die and the bandwidth for weights

An engine takes the bandwidth of the first tier that weights may use when all weights fit it. That
tier is the memory on the die if there is one. Without it the tier is that of the buffers, whose
bandwidth may be above both, so a smaller memory on the die never raises the bandwidth except where
it vanishes and the buffers hold the weights.
-/

namespace NpuArc

namespace Engines

open Residency

namespace HardwareConfig

/-- The configuration with another capacity of the memory on the die. -/
def withCapacity (c : HardwareConfig) (capacityGb : Option ℚ≥0) : HardwareConfig :=
  { c with onChipMemory := { c.onChipMemory with capacityGb := capacityGb } }

/-- The capacity of the memory on the die, in gigabytes. -/
def onChipCapacityGb (c : HardwareConfig) : ℚ := c.onChipMemory.capacityGb.elim 0 (↑)

/-- The bandwidth of the memory on the die, in gigabytes per second. -/
def onChipBwGbps (c : HardwareConfig) : ℚ := c.onChipMemory.bandwidthGbps.elim 500 (↑)

/-- The bandwidth of the external memory, in gigabytes per second. -/
def externalBwGbps (c : HardwareConfig) : ℚ := PosRat.orDefault c.memory.bandwidthGbps 51.2

/-- The utilization of the external memory that an engine reads. -/
def engineEfficiency (c : HardwareConfig) : ℚ := UnitRat.orDefault c.memory.dramEfficiency 0.90

/-- The multiplier of the bandwidth. -/
def bwMultiplier (c : HardwareConfig) : ℚ := PosRat.orDefault c.optimizations.dmaBwMultiplier 1

/-- The bytes of the first tier that weights may use. -/
def homeBytes (py : Builtins) (c : HardwareConfig) : ℕ :=
  if 0 < c.onChipCapacityGb then gbToBytes c.onChipCapacityGb
  else c.sram.elim (externalTier py c.memory).capacityBytes fun sram => (sramTier sram).capacityBytes

/-- The bandwidth of the first tier that weights may use. -/
def homeBwGbps (py : Builtins) (c : HardwareConfig) : ℚ :=
  if 0 < c.onChipCapacityGb then c.onChipBwGbps
  else c.sram.elim (externalTier py c.memory).effectiveReadBwGbps fun _ => defaultSramBwGbps

end HardwareConfig

/-- The bytes of the weights of a graph in the tiers of a configuration. -/
def graphWeightBytes (py : Builtins) (graph : WorkloadGraph) : ℕ := weightLoad py graph 256 1

variable {py : Builtins} {c : HardwareConfig} {graph : WorkloadGraph} {tiers : List BandwidthTier}
  {home : BandwidthTier} {plan : MemoryAccessPlan} {e e' : MacEngine}

/-! ### The first tier that weights may use -/

theorem externalTier_name (py : Builtins) (memory : MemorySection) :
    (externalTier py memory).name ≠ "sram" ∧ (externalTier py memory).name ≠ onChip3dDram := by
  change inferExternalTierName py _ ≠ _ ∧ inferExternalTierName py _ ≠ _
  unfold inferExternalTierName
  dsimp only
  split_ifs <;> decide

/-- The first tier that weights may use, in a hierarchy of distinct tiers. -/
structure IsHome (tiers : List BandwidthTier) (home : BandwidthTier) : Prop where
  nodup : (hierarchyOf tiers).names.Nodup
  head : (eligibleTiers .weight (hierarchyOf tiers)).head? = some home.toMemoryTier
  mem : home ∈ tiers

theorem isHome_onChip (sram : Option SramSection) {home external : BandwidthTier}
    (hhome : home.name = onChip3dDram) (hexternal : external.name ≠ "sram")
    (hother : external.name ≠ onChip3dDram) :
    IsHome (sram.toList.map sramTier ++ [home, external]) home := by
  have hsram : "sram" ≠ onChip3dDram := by decide
  have hname : ∀ sram, (sramTier sram).name = "sram" := fun _ => rfl
  refine ⟨?_, ?_, by simp⟩
  · cases sram with
    | none => simp [MemoryHierarchy.names, hierarchyOf, hhome, hother.symm]
    | some sram =>
      simp [MemoryHierarchy.names, hierarchyOf, hname, hhome, hother.symm, hexternal.symm, hsram]
  · cases sram with
    | none => simp [eligibleTiers, hierarchyOf, hhome]
    | some sram => simp [eligibleTiers, hierarchyOf, hname, hhome, hsram]

theorem isHome_sram (sram : SramSection) {external : BandwidthTier}
    (hexternal : external.name ≠ "sram") (hother : external.name ≠ onChip3dDram) :
    IsHome [sramTier sram, external] (sramTier sram) := by
  have hsram : "sram" ≠ onChip3dDram := by decide
  have hname : (sramTier sram).name = "sram" := rfl
  refine ⟨?_, ?_, List.mem_cons_self⟩
  · simp [MemoryHierarchy.names, hierarchyOf, hname, hexternal.symm]
  · simp [eligibleTiers, hierarchyOf, hname, hother, hsram]

theorem isHome_external {external : BandwidthTier} (hother : external.name ≠ onChip3dDram) :
    IsHome [external] external := by
  refine ⟨?_, ?_, List.mem_cons_self⟩
  · simp [MemoryHierarchy.names, hierarchyOf]
  · simp [eligibleTiers, hierarchyOf, hother]

/-- The hierarchy of a configuration has a first tier for weights, with its capacity and its
bandwidth. -/
theorem exists_isHome (h : buildHierarchyFromConfig py c = .ok tiers) :
    ∃ home, IsHome tiers home ∧ home.capacityBytes = c.homeBytes py ∧
      home.effectiveReadBwGbps = c.homeBwGbps py := by
  obtain ⟨hexternal, hother⟩ := externalTier_name py c.memory
  unfold buildHierarchyFromConfig at h
  dsimp only at h
  by_cases hcapacity : 0 < c.onChipCapacityGb
  · unfold HardwareConfig.homeBytes HardwareConfig.homeBwGbps
    rw [if_pos hcapacity, if_pos hcapacity]
    unfold HardwareConfig.onChipCapacityGb at hcapacity ⊢
    rw [if_pos hcapacity] at h
    split_ifs at h with hbw
    cases h
    refine ⟨_, isHome_onChip c.sram rfl hexternal hother, rfl, ?_⟩
    exact mul_one _
  · unfold HardwareConfig.homeBytes HardwareConfig.homeBwGbps
    rw [if_neg hcapacity, if_neg hcapacity]
    unfold HardwareConfig.onChipCapacityGb at hcapacity
    rw [if_neg hcapacity] at h
    cases h
    cases c.sram with
    | none => exact ⟨_, isHome_external hother, rfl, rfl⟩
    | some sram => exact ⟨_, isHome_sram sram hexternal hother, rfl, mul_one _⟩

/-! ### The bandwidth of a plan -/

/-- Weights that all lie in one tier have that tier as their fastest. -/
theorem fastestAllocatedTier_eq {tier : MemoryTier} (hmem : tier ∈ plan.hierarchy.tiers)
    (hsome : plan.weights ≠ []) (hall : ∀ p ∈ plan.weights, p.destinationTier = tier.name) :
    fastestAllocatedTier plan .weight = some tier.name := by
  have hholds : ∀ t : MemoryTier, (plan.placements.any fun p =>
      decide (p.category = .weight) && decide (p.destinationTier = t.name)) = true ↔
        t.name = tier.name := by
    intro t
    rw [List.any_eq_true]
    constructor
    · rintro ⟨p, hp, htest⟩
      rw [Bool.and_eq_true, decide_eq_true_iff, decide_eq_true_iff] at htest
      rw [← htest.2]
      exact hall p (List.mem_filter.mpr ⟨hp, decide_eq_true htest.1⟩)
    · intro hname
      obtain ⟨p, hp⟩ := List.exists_mem_of_ne_nil _ hsome
      obtain ⟨hplaced, hweight⟩ := List.mem_filter.mp hp
      refine ⟨p, hplaced, ?_⟩
      rw [Bool.and_eq_true, hname]
      exact ⟨hweight, decide_eq_true (hall p hp)⟩
  unfold fastestAllocatedTier
  cases hfind : plan.hierarchy.tiers.find? fun t => plan.placements.any fun p =>
      decide (p.category = .weight) && decide (p.destinationTier = t.name) with
  | none => exact absurd ((hholds tier).mpr rfl) (List.find?_eq_none.mp hfind tier hmem)
  | some t =>
    have htest := List.find?_some hfind
    rw [Option.map_some, (hholds t).mp htest]

theorem fastestAllocatedTier_eq_none (hnone : plan.weights = []) :
    fastestAllocatedTier plan .weight = none := by
  unfold fastestAllocatedTier
  rw [Option.map_eq_none_iff, List.find?_eq_none]
  intro tier _ hany
  obtain ⟨p, hp, htest⟩ := List.any_eq_true.mp hany
  rw [Bool.and_eq_true] at htest
  have hmem : p ∈ plan.weights := List.mem_filter.mpr ⟨hp, htest.1⟩
  rw [hnone] at hmem
  cases hmem

/-- A tier of a list of distinct tiers is found by its name. -/
theorem find_home (h : IsHome tiers home) :
    (tiers.find? fun tier => decide (tier.name = home.name)) = some home := by
  cases hfind : tiers.find? fun tier => decide (tier.name = home.name) with
  | none => exact absurd (decide_eq_true rfl) (List.find?_eq_none.mp hfind home h.mem)
  | some tier =>
    have htest := List.find?_some hfind
    have hname : tier.name = home.name := of_decide_eq_true htest
    have hnodup : (tiers.map fun tier => tier.name).Nodup := by
      simpa [MemoryHierarchy.names, hierarchyOf, Function.comp_def] using h.nodup
    rw [List.inj_on_of_nodup_map hnodup (List.mem_of_find?_eq_some hfind) h.mem hname]

/-- An engine takes the bandwidth of the first tier for weights if that tier holds them all, and
otherwise keeps its own. -/
theorem applyMemoryPlan_effBwWeight (hhome : IsHome tiers home) (hreserve : home.reserveBytes = 0)
    (hclock : 0 < e.fMhz)
    (hplan : buildMemoryAccessPlan py graph (hierarchyOf tiers) 1 .empty true = .ok plan) :
    ∃ e', e.applyMemoryPlan tiers plan = .ok e' ∧ e'.effBwWeight =
      if weights py graph ≠ [] ∧ graphWeightBytes py graph ≤ home.capacityBytes then
        home.effectiveReadBwGbps * 1000 / e.fMhz
      else e.effBwWeight := by
  have hspill := plan_weights_spill hhome.nodup hhome.head hplan
  have husable : home.toMemoryTier.usableBytes = home.capacityBytes := by
    rw [MemoryTier.usableBytes, hreserve, Nat.sub_zero]
  rw [husable] at hspill
  have hnil := plan_weights_eq_nil hplan
  unfold MacEngine.applyMemoryPlan
  dsimp only
  by_cases hnone : plan.weights = []
  · refine ⟨e, ?_, ?_⟩
    · rw [fastestAllocatedTier_eq_none hnone]
      exact ite_self _
    · rw [if_neg fun hand => hand.1 (hnil.mp hnone)]
  · by_cases hfits : graphWeightBytes py graph ≤ home.capacityBytes
    · have hzero := hspill.mpr hfits
      obtain ⟨ls, allocations, -, -, hcontents, -⟩ := buildMemoryAccessPlan_eq_ok.mp hplan
      have hhierarchy : plan.hierarchy = hierarchyOf tiers := congrArg (·.hierarchy) hcontents
      have hmem : home.toMemoryTier ∈ plan.hierarchy.tiers := by
        rw [hhierarchy]
        exact List.mem_map_of_mem hhome.mem
      have hfastest := fastestAllocatedTier_eq hmem hnone
        (plan_weights_destination hhome.nodup hhome.head hplan hzero)
      have hsum : ((plan.placements.filter fun p => decide (p.category = .weight)).map
        (·.spillBytes)).sum = 0 := hzero
      rw [if_pos hsum, if_pos ⟨fun hw => hnone (hnil.mpr hw), hfits⟩, hfastest]
      dsimp only
      rw [find_home hhome]
      dsimp only
      split
      · next err herr =>
        have hcast : (0 : ℚ) < e.fMhz := by exact_mod_cast hclock
        rw [bandwidthGbpsToBytesPerCycle, if_neg (not_le.mpr hcast)] at herr
        cases herr
      · next bw hbw =>
        obtain ⟨-, rfl⟩ := bandwidthGbpsToBytesPerCycle_eq_ok.mp hbw
        exact ⟨_, rfl, rfl⟩
    · have hsum : ¬((plan.placements.filter fun p => decide (p.category = .weight)).map
        (·.spillBytes)).sum = 0 := fun hzero => hfits (hspill.mp hzero)
      rw [if_neg hsum, if_neg (fun hand => hfits hand.2)]
      exact ⟨e, rfl, rfl⟩

/-- The bandwidth for weights in gigabytes per second. -/
def HardwareConfig.weightBwGbps (py : Builtins) (c : HardwareConfig) (graph : WorkloadGraph) : ℚ :=
  if weights py graph ≠ [] ∧ graphWeightBytes py graph ≤ c.homeBytes py then c.homeBwGbps py
  else c.externalBwGbps * c.engineEfficiency * c.bwMultiplier

/-- An engine of a configuration has the bandwidth of its weights at its clock. -/
theorem init_effBwWeight (h : MacEngine.init py c graph = .ok e) :
    0 < MacEngine.frequencyOf c ∧
      e.effBwWeight = c.weightBwGbps py graph * 1000 / MacEngine.frequencyOf c := by
  unfold MacEngine.init at h
  obtain ⟨e₀, hparse, h⟩ := bind_eq_ok.mp h
  have hparsed := MacEngine.parseConfig_parsed hparse
  unfold MacEngine.planMemory at h
  obtain ⟨tiers, htiers, h⟩ := bind_eq_ok.mp h
  obtain ⟨plan, hplan, h⟩ := bind_eq_ok.mp h
  have hplan' : buildMemoryAccessPlan py graph (hierarchyOf tiers) 1 .empty true = .ok plan := by
    cases hbuild : buildMemoryAccessPlan py graph (hierarchyOf tiers) 1 .empty true with
    | error err =>
      rw [hbuild] at hplan
      cases hplan
    | ok built =>
      rw [hbuild] at hplan
      cases hplan
      rfl
  obtain ⟨home, hhome, hbytes, hbw⟩ := exists_isHome htiers
  have hfreq := hparsed.fMhz_pos
  rw [hparsed.fMhz] at hfreq
  refine ⟨hfreq, ?_⟩
  obtain ⟨e', he', heff⟩ := applyMemoryPlan_effBwWeight hhome
    (buildHierarchyFromConfig_reserve htiers home hhome.mem) hparsed.fMhz_pos hplan'
  rw [h] at he'
  cases he'
  rw [heff, hbytes, hbw, hparsed.effBwWeight, MacEngine.externalBw, hparsed.bwRaw,
    hparsed.dramEfficiency, hparsed.bwMultiplier, hparsed.fMhz, HardwareConfig.weightBwGbps]
  split_ifs
  · rfl
  · change PosRat.orDefault c.memory.bandwidthGbps 51.2 * 1000 / (MacEngine.frequencyOf c : ℚ) *
      c.engineEfficiency * c.bwMultiplier = PosRat.orDefault c.memory.bandwidthGbps 51.2 *
      c.engineEfficiency * c.bwMultiplier * 1000 / (MacEngine.frequencyOf c : ℚ)
    ring

/-! ### Smaller memories -/

/-- The memory on the die vanishes, and the buffers hold the weights and are faster than the memory
that the larger configuration reads them from. -/
structure BuffersTakeOver (py : Builtins) (c : HardwareConfig) (graph : WorkloadGraph)
    (smaller larger : Option ℚ≥0) : Prop where
  gone : (c.withCapacity smaller).onChipCapacityGb = 0
  present : 0 < (c.withCapacity larger).onChipCapacityGb
  some_weights : weights py graph ≠ []
  held : ∃ sram, c.sram = some sram ∧
    graphWeightBytes py graph ≤ (sramTier sram).capacityBytes
  slower : (if graphWeightBytes py graph ≤ gbToBytes (c.withCapacity larger).onChipCapacityGb then
    c.onChipBwGbps else c.externalBwGbps * c.engineEfficiency) < defaultSramBwGbps

theorem gbToBytes_mono {x y : ℚ} (hx : 0 ≤ x) (h : x ≤ y) : gbToBytes x ≤ gbToBytes y := by
  have hscaled : x * 1000000000 ≤ y * 1000000000 := by linarith
  unfold gbToBytes truncate
  rw [if_pos (by positivity), if_pos (by linarith)]
  exact Int.toNat_le_toNat (Int.floor_le_floor hscaled)

theorem HardwareConfig.engineEfficiency_le (c : HardwareConfig) :
    c.externalBwGbps * c.engineEfficiency ≤ c.externalBwGbps :=
  mul_le_of_le_one_right (PosRat.orDefault_pos (by norm_num)).le (UnitRat.orDefault_le (by norm_num))

/-- The external memory as a tier is never faster than the engine takes it to be. -/
theorem externalTier_le (py : Builtins) (c : HardwareConfig) :
    (externalTier py c.memory).effectiveReadBwGbps ≤ c.externalBwGbps * c.engineEfficiency := by
  have hbw : 0 ≤ c.externalBwGbps := (PosRat.orDefault_pos (by norm_num)).le
  change c.externalBwGbps * UnitRat.orDefault c.memory.dramEfficiency 0.85 ≤ _
  refine mul_le_mul_of_nonneg_left ?_ hbw
  unfold HardwareConfig.engineEfficiency
  cases c.memory.dramEfficiency with
  | none => norm_num [UnitRat.orDefault]
  | some efficiency => exact le_rfl

section

variable {a b : Option ℚ≥0}

/-- Engines of one clock compare as their bandwidths in gigabytes per second. -/
theorem effBwWeight_le_iff_gbps (he : MacEngine.init py (c.withCapacity a) graph = .ok e)
    (he' : MacEngine.init py (c.withCapacity b) graph = .ok e') :
    e.effBwWeight ≤ e'.effBwWeight ↔
      (c.withCapacity a).weightBwGbps py graph ≤ (c.withCapacity b).weightBwGbps py graph := by
  obtain ⟨hfreq, hbw⟩ := init_effBwWeight he
  obtain ⟨-, hbw'⟩ := init_effBwWeight he'
  have hclock : (0 : ℚ) < MacEngine.frequencyOf (c.withCapacity a) := by exact_mod_cast hfreq
  rw [hbw, hbw']
  change _ / (MacEngine.frequencyOf (c.withCapacity a) : ℚ) ≤
    _ / (MacEngine.frequencyOf (c.withCapacity a) : ℚ) ↔ _
  rw [div_le_div_iff_of_pos_right hclock, mul_le_mul_iff_left₀ (by norm_num)]

variable (hmultiplier : c.bwMultiplier = 1)

include hmultiplier

/-- The bandwidth of a configuration by the capacity of the memory on the die. -/
theorem weightBwGbps_withCapacity (a : Option ℚ≥0) :
    (c.withCapacity a).weightBwGbps py graph =
      if weights py graph ≠ [] ∧ graphWeightBytes py graph ≤ (c.withCapacity a).homeBytes py then
        (c.withCapacity a).homeBwGbps py
      else c.externalBwGbps * c.engineEfficiency := by
  unfold HardwareConfig.weightBwGbps
  have hone : (c.withCapacity a).bwMultiplier = 1 := hmultiplier
  rw [hone, mul_one]
  rfl

/-- With a memory on the die, weights are read from it or from the external memory. -/
theorem weightBwGbps_onChip (h : 0 < (c.withCapacity a).onChipCapacityGb) :
    (c.withCapacity a).weightBwGbps py graph =
      if weights py graph ≠ [] ∧
          graphWeightBytes py graph ≤ gbToBytes (c.withCapacity a).onChipCapacityGb then
        c.onChipBwGbps
      else c.externalBwGbps * c.engineEfficiency := by
  rw [weightBwGbps_withCapacity hmultiplier]
  unfold HardwareConfig.homeBytes HardwareConfig.homeBwGbps
  rw [if_pos h, if_pos h]
  rfl

/-- Without buffers the bandwidth is never above that of the external memory. -/
theorem weightBwGbps_none (h : (c.withCapacity a).onChipCapacityGb = 0) (hsram : c.sram = none) :
    (c.withCapacity a).weightBwGbps py graph ≤ c.externalBwGbps * c.engineEfficiency := by
  have hnone : (c.withCapacity a).sram = none := hsram
  rw [weightBwGbps_withCapacity hmultiplier]
  unfold HardwareConfig.homeBwGbps
  rw [if_neg h.not_gt, hnone]
  split_ifs
  · exact externalTier_le py c
  · exact le_rfl

/-- Without a memory on the die, weights are read from the buffers or from the external memory. -/
theorem weightBwGbps_sram (h : (c.withCapacity a).onChipCapacityGb = 0) {sram : SramSection}
    (hsram : c.sram = some sram) :
    (c.withCapacity a).weightBwGbps py graph =
      if weights py graph ≠ [] ∧ graphWeightBytes py graph ≤ (sramTier sram).capacityBytes then
        defaultSramBwGbps
      else c.externalBwGbps * c.engineEfficiency := by
  have hsome : (c.withCapacity a).sram = some sram := hsram
  rw [weightBwGbps_withCapacity hmultiplier]
  unfold HardwareConfig.homeBytes HardwareConfig.homeBwGbps
  rw [if_neg h.not_gt, if_neg h.not_gt, hsome]
  rfl

variable (hbw : c.externalBwGbps ≤ c.onChipBwGbps)

include hbw

/-- A memory on the die gives at least the bandwidth of the external memory. -/
theorem external_le_weightBwGbps (h : 0 < (c.withCapacity a).onChipCapacityGb) :
    c.externalBwGbps * c.engineEfficiency ≤ (c.withCapacity a).weightBwGbps py graph := by
  rw [weightBwGbps_onChip hmultiplier h]
  split_ifs
  · exact c.engineEfficiency_le.trans hbw
  · exact le_rfl

variable (hcapacity : (c.withCapacity a).onChipCapacityGb ≤ (c.withCapacity b).onChipCapacityGb)

include hcapacity

/-- A smaller memory on the die gives no more bandwidth unless the buffers take over. -/
theorem weightBwGbps_le_iff :
    (c.withCapacity a).weightBwGbps py graph ≤ (c.withCapacity b).weightBwGbps py graph ↔
      ¬BuffersTakeOver py c graph a b := by
  have hnonneg : 0 ≤ (c.withCapacity a).onChipCapacityGb := by
    unfold HardwareConfig.onChipCapacityGb HardwareConfig.withCapacity
    cases a with
    | none => exact le_rfl
    | some gb => exact gb.2
  rcases hnonneg.eq_or_lt with hgone | hpos
  · rcases (hnonneg.trans hcapacity).eq_or_lt with hboth | hlarger
    · -- Neither configuration has a memory on the die.
      have hsame : (c.withCapacity a).weightBwGbps py graph =
          (c.withCapacity b).weightBwGbps py graph := by
        rw [weightBwGbps_withCapacity hmultiplier, weightBwGbps_withCapacity hmultiplier]
        unfold HardwareConfig.homeBytes HardwareConfig.homeBwGbps
        rw [← hgone, ← hboth]
        rfl
      exact iff_of_true hsame.le fun h => absurd hboth h.present.ne
    · cases hsram : c.sram with
      | none =>
        refine iff_of_true ?_ fun h => ?_
        · exact (weightBwGbps_none hmultiplier hgone.symm hsram).trans
            (external_le_weightBwGbps hmultiplier hbw hlarger)
        · obtain ⟨sram, hsome, -⟩ := h.held
          rw [hsram] at hsome
          cases hsome
      | some sram =>
        by_cases hheld : weights py graph ≠ [] ∧
            graphWeightBytes py graph ≤ (sramTier sram).capacityBytes
        · rw [weightBwGbps_sram hmultiplier hgone.symm hsram, if_pos hheld,
            weightBwGbps_onChip hmultiplier hlarger]
          simp only [hheld.1, ne_eq, not_false_eq_true, true_and]
          rw [← not_lt, not_iff_not]
          constructor
          · intro hlt
            exact ⟨hgone.symm, hlarger, hheld.1, ⟨sram, hsram, hheld.2⟩, hlt⟩
          · intro h
            exact h.slower
        · refine iff_of_true ?_ fun h => ?_
          · rw [weightBwGbps_sram hmultiplier hgone.symm hsram, if_neg hheld]
            exact external_le_weightBwGbps hmultiplier hbw hlarger
          · obtain ⟨other, hsome, hother⟩ := h.held
            rw [hsram] at hsome
            cases hsome
            exact hheld ⟨h.some_weights, hother⟩
  · -- Both configurations have a memory on the die.
    refine iff_of_true ?_ fun h => absurd h.gone hpos.ne'
    have hlarger := hpos.trans_le hcapacity
    by_cases hfits : weights py graph ≠ [] ∧
        graphWeightBytes py graph ≤ gbToBytes (c.withCapacity a).onChipCapacityGb
    · have hmore := hfits.2.trans (gbToBytes_mono hpos.le hcapacity)
      rw [weightBwGbps_onChip hmultiplier hpos, if_pos hfits,
        weightBwGbps_onChip hmultiplier hlarger, if_pos ⟨hfits.1, hmore⟩]
    · rw [weightBwGbps_onChip hmultiplier hpos, if_neg hfits]
      exact external_le_weightBwGbps hmultiplier hbw hlarger

end

/-! ### A configuration with buffers -/

/-- An engine is created for a clock of at least a megahertz, a memory on the die with a bandwidth,
and a graph with valid aliases. -/
theorem exists_init (hfreq : 0 < MacEngine.frequencyOf c) (hbw : 0 < c.onChipBwGbps)
    (haliases : AliasesValid graph) : ∃ e, MacEngine.init py c graph = .ok e := by
  obtain ⟨e₀, hparse⟩ := MacEngine.exists_parseConfig_iff.mpr hfreq
  have hparsed := MacEngine.parseConfig_parsed hparse
  obtain ⟨tiers, htiers⟩ : ∃ tiers, buildHierarchyFromConfig py c = .ok tiers := by
    unfold buildHierarchyFromConfig
    dsimp only
    split_ifs with hcapacity hpos
    · exact ⟨_, rfl⟩
    · exact absurd hbw hpos
    · exact ⟨_, rfl⟩
  obtain ⟨home, hhome, -⟩ := exists_isHome htiers
  have hreserve := buildHierarchyFromConfig_reserve htiers
  obtain ⟨plan, hplan⟩ := plan_exists haliases (validateTiers_hierarchyOf hreserve)
    (List.ne_nil_of_mem (List.mem_map_of_mem hhome.mem))
  obtain ⟨e, he, -⟩ := applyMemoryPlan_effBwWeight hhome (hreserve home hhome.mem)
    hparsed.fMhz_pos hplan
  refine ⟨e, ?_⟩
  unfold MacEngine.init MacEngine.planMemory
  rw [hparse, bind_eq_ok_left, htiers, bind_eq_ok_left, hplan]
  exact he

/-- A configuration with buffers and otherwise the defaults. -/
def withBuffers : HardwareConfig where
  sram := some {}

/-- On the defaults the buffers take over when the memory on the die vanishes. -/
theorem withBuffers_sample :
    ∃ e e', MacEngine.init sampleBuiltins (withBuffers.withCapacity none) sampleGraph = .ok e ∧
      MacEngine.init sampleBuiltins (withBuffers.withCapacity (some 1)) sampleGraph = .ok e' ∧
      (withBuffers.withCapacity none).onChipCapacityGb ≤
        (withBuffers.withCapacity (some 1)).onChipCapacityGb ∧
      withBuffers.externalBwGbps ≤ withBuffers.onChipBwGbps ∧ withBuffers.bwMultiplier = 1 ∧
      BuffersTakeOver sampleBuiltins withBuffers sampleGraph none (some 1) := by
  have hfreq : 0 < MacEngine.frequencyOf withBuffers := by decide +kernel
  have hbw : 0 < withBuffers.onChipBwGbps := by decide +kernel
  have haliases : AliasesValid sampleGraph := rfl
  obtain ⟨e, he⟩ : ∃ e, MacEngine.init sampleBuiltins (withBuffers.withCapacity none)
    sampleGraph = .ok e := exists_init hfreq hbw haliases
  obtain ⟨e', he'⟩ : ∃ e, MacEngine.init sampleBuiltins (withBuffers.withCapacity (some 1))
    sampleGraph = .ok e := exists_init hfreq hbw haliases
  refine ⟨e, e', he, he', by decide +kernel, by decide +kernel, by decide +kernel, ?_⟩
  have hsome : weights sampleBuiltins sampleGraph ≠ [] := by decide +kernel
  have hheld : graphWeightBytes sampleBuiltins sampleGraph ≤ (sramTier {}).capacityBytes := by
    decide +kernel
  exact ⟨by decide +kernel, by decide +kernel, hsome, ⟨{}, rfl, hheld⟩, by decide +kernel⟩

end Engines

end NpuArc
