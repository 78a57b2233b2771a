import NpuArc.Dse.Coverage
import NpuArc.Dse.HardwareBuilder

/-!
# Identities of design points

The id of a design point is a digest of its hardware configuration and of its temporal
axes, not of the combination itself. Two combinations with one id agree on what these see
of them: the axes that the builder reads, up to the normal form of the values and the
labels of memory types, the area section, and the temporal axes. They may differ on any
other axis.
-/

namespace NpuArc

namespace Dse

open Hashing

variable {py : Hashing} {base : BaseConfig} {space : DesignSpace Scalar}
  {combo combo' : Combo Scalar}

/-! ### The hardware configuration -/

/-- What the configuration sees of the value on a hardware axis: an engine with its
dataflow, a memory type by its label and efficiency, and any other value itself. -/
def seenOn (py : Hashing) (axis : String) (v : Scalar) : List Json :=
  if axis = "engine" then [py.normaliseScalar v, .str (dataflow v)]
  else if axis = "memory_type" then
    [py.normaliseScalar (memoryLabel v), py.normaliseScalar (memoryEfficiency v)]
  else [py.normaliseScalar v]

/-- The normal form of the area section that a combination gets. -/
def seenArea (py : Hashing) (base : BaseConfig) (combo : Combo Scalar) : Option Json :=
  ((writeProcessNode base.entries combo).get? "area_model").map py.normaliseValue

/-- A configuration sees no difference between two combinations. -/
structure SameHardware (py : Hashing) (base : BaseConfig) (combo combo' : Combo Scalar) : Prop where
  axes : ∀ a ∈ hardwareAxes, seenOn py a (combo.value a) = seenOn py a (combo'.value a)
  area : seenArea py base combo = seenArea py base combo'

private theorem normaliseValue_leaf (v : Scalar) :
    py.normaliseValue (.leaf v) = py.normaliseScalar v := by
  rw [normaliseValue]

/-- A section sees the values that are written to it. -/
theorem update_eq_iff {section' : Dict String Tree} {l l' : List (String × Tree)}
    (hnodup : (l.map Prod.fst).Nodup) (hkeys : l'.map Prod.fst = l.map Prod.fst) :
    py.normaliseValue (.dict (section'.update l).entries) =
        py.normaliseValue (.dict (section'.update l').entries) ↔
      l.map (fun e => py.normaliseValue e.2) = l'.map fun e => py.normaliseValue e.2 := by
  rw [normaliseValue_dict_eq_iff]
  exact Dict.get?_update_eq_iff hnodup hkeys

/-- Defaults under other keys make no difference. -/
theorem updateDefaults_eq_iff {section' : Dict String Tree} {l l' defaults : List (String × Tree)}
    (hnodup : (l.map Prod.fst).Nodup) (hkeys : l'.map Prod.fst = l.map Prod.fst)
    (hdefaults : ∀ e ∈ defaults, e.1 ∉ l.map Prod.fst) :
    py.normaliseValue (.dict ((section'.update l).setDefaults defaults).entries) =
        py.normaliseValue (.dict ((section'.update l').setDefaults defaults).entries) ↔
      l.map (fun e => py.normaliseValue e.2) = l'.map fun e => py.normaliseValue e.2 := by
  have hnodup' : (l'.map Prod.fst).Nodup := by rwa [hkeys]
  have hdefaults' : ∀ e ∈ defaults, e.1 ∉ l'.map Prod.fst := by rwa [hkeys]
  rw [normaliseValue_dict_eq_iff]
  simp only [Dict.get?_setDefaults_update hnodup hdefaults,
    Dict.get?_setDefaults_update hnodup' hdefaults']
  exact Dict.get?_update_eq_iff hnodup hkeys

theorem macEngine_eq_iff (cfg : Dict String Tree) :
    py.normaliseValue (.dict (macEngine cfg combo).entries) =
        py.normaliseValue (.dict (macEngine cfg combo').entries) ↔
      ∀ a ∈ ["engine", "array_height", "array_width", "frequency_mhz", "weight_precision_bits",
        "activation_precision_bits"],
        seenOn py a (combo.value a) = seenOn py a (combo'.value a) := by
  unfold macEngine
  rw [update_eq_iff]
  · simp [normaliseValue_leaf, seenOn, normaliseScalar]
    tauto
  · simp
  · simp

theorem memory_eq_iff (cfg : Dict String Tree) :
    py.normaliseValue (.dict (memory cfg combo).entries) =
        py.normaliseValue (.dict (memory cfg combo').entries) ↔
      ∀ a ∈ ["memory_type", "bandwidth_gbps", "dram_width_bits"],
        seenOn py a (combo.value a) = seenOn py a (combo'.value a) := by
  unfold memory
  rw [updateDefaults_eq_iff]
  · simp [normaliseValue_leaf, seenOn]
    tauto
  · simp
  · simp
  · simp

theorem sram_eq_iff (cfg : Dict String Tree) :
    py.normaliseValue (.dict (sram cfg combo).entries) =
        py.normaliseValue (.dict (sram cfg combo').entries) ↔
      ∀ a ∈ ["sram_l2_kb"], seenOn py a (combo.value a) = seenOn py a (combo'.value a) := by
  unfold sram
  rw [updateDefaults_eq_iff]
  · simp [normaliseValue_leaf, seenOn]
  · simp
  · simp
  · simp

theorem onChipMemory_eq_iff (cfg : Dict String Tree) :
    py.normaliseValue (.dict (onChipMemory cfg combo).entries) =
        py.normaliseValue (.dict (onChipMemory cfg combo').entries) ↔
      ∀ a ∈ ["on_chip_capacity_gb", "on_chip_bandwidth_gbps"],
        seenOn py a (combo.value a) = seenOn py a (combo'.value a) := by
  unfold onChipMemory
  rw [update_eq_iff]
  · simp [normaliseValue_leaf, seenOn]
  · simp
  · simp

theorem optimizations_eq_iff (cfg : Dict String Tree) :
    py.normaliseValue (.dict (optimizations cfg combo).entries) =
        py.normaliseValue (.dict (optimizations cfg combo').entries) ↔
      ∀ a ∈ ["weight_cache"], seenOn py a (combo.value a) = seenOn py a (combo'.value a) := by
  unfold optimizations
  rw [updateDefaults_eq_iff]
  · simp [normaliseValue_leaf, seenOn]
  · simp
  · simp
  · simp

/-- The sections of a combination under their names. -/
def sectionsOf (base : BaseConfig) (combo : Combo Scalar) : List (String × Tree) :=
  [("mac_engine", .dict (macEngine base.entries combo).entries),
    ("memory", .dict (memory base.entries combo).entries),
    ("sram", .dict (sram base.entries combo).entries),
    ("on_chip_memory", .dict (onChipMemory base.entries combo).entries),
    ("optimizations", .dict (optimizations base.entries combo).entries)]

theorem sectionsOf_keys (base : BaseConfig) (combo : Combo Scalar) :
    (sectionsOf base combo).map Prod.fst =
      ["mac_engine", "memory", "sram", "on_chip_memory", "optimizations"] := by
  simp [sectionsOf]

theorem sectionsOf_eq_iff : ((sectionsOf base combo).map fun e => py.normaliseValue e.2) =
      ((sectionsOf base combo').map fun e => py.normaliseValue e.2) ↔
    ∀ a ∈ hardwareAxes, seenOn py a (combo.value a) = seenOn py a (combo'.value a) := by
  unfold sectionsOf
  simp only [List.map_cons, List.map_nil, List.cons.injEq, and_true, macEngine_eq_iff,
    memory_eq_iff, sram_eq_iff, onChipMemory_eq_iff, optimizations_eq_iff]
  simp only [hardwareAxes, List.forall_mem_cons, List.not_mem_nil, false_imp_iff, imp_true_iff,
    and_true]
  tauto

/-- A built configuration has all hardware axes. -/
theorem buildHardwareConfig_eq_ok {hw : Dict String Tree}
    (h : buildHardwareConfig base combo = .ok hw) :
    hw = (writeProcessNode (base.entries.update (sectionsOf base combo)) combo).setDefault
      "version" (.leaf (.str "2")) := by
  obtain ⟨-, -, h⟩ := bind_eq_ok.mp h
  cases h
  rfl

private theorem get?_writeProcessNode (cfg : Dict String Tree) (combo : Combo Scalar) {k : String}
    (hk : k ≠ "area_model") : (writeProcessNode cfg combo).get? k = cfg.get? k := by
  unfold writeProcessNode
  cases combo.get? "process_node" with
  | none => rfl
  | some node => rw [Option.elim_some, Dict.get?_insert, if_neg hk]

/-- The area section only depends on that of the configuration it is written to. -/
private theorem area_congr {cfg cfg' : Dict String Tree}
    (h : cfg.get? "area_model" = cfg'.get? "area_model") (combo : Combo Scalar) :
    (writeProcessNode cfg combo).get? "area_model" =
      (writeProcessNode cfg' combo).get? "area_model" := by
  unfold writeProcessNode sectionOf
  cases combo.get? "process_node" with
  | none => exact h
  | some node =>
    rw [Option.elim_some, Option.elim_some, Dict.get?_insert, Dict.get?_insert, h]

/-- Two built configurations have the same normal form when the combinations are the same
to the hardware. -/
theorem hardware_eq_iff {hw hw' : Dict String Tree}
    (h : buildHardwareConfig base combo = .ok hw) (h' : buildHardwareConfig base combo' = .ok hw') :
    py.normaliseValue (.dict hw.entries) = py.normaliseValue (.dict hw'.entries) ↔
      SameHardware py base combo combo' := by
  have hnodup : ∀ combo, ((sectionsOf base combo).map Prod.fst).Nodup := by
    intro combo
    rw [sectionsOf_keys]
    decide
  have hother : ∀ combo k, k ∉ ["mac_engine", "memory", "sram", "on_chip_memory",
      "optimizations"] → (base.entries.update (sectionsOf base combo)).get? k =
        base.entries.get? k := by
    intro combo k hk
    apply Dict.get?_update_of_not_mem
    rw [sectionsOf_keys]
    exact hk
  -- What the configuration of a combination has under each key.
  have hget : ∀ combo k, ((writeProcessNode (base.entries.update (sectionsOf base combo))
      combo).setDefault "version" (.leaf (.str "2"))).get? k =
      if k = "version" then some ((base.entries.get? "version").getD (.leaf (.str "2")))
      else if k = "area_model" then (writeProcessNode base.entries combo).get? "area_model"
      else (base.entries.update (sectionsOf base combo)).get? k := by
    intro combo k
    rw [Dict.get?_setDefault]
    split_ifs with hversion harea
    · rw [get?_writeProcessNode _ _ (by decide), hother _ _ (by decide)]
    · rw [harea]
      exact area_congr (hother _ _ (by decide)) combo
    · exact get?_writeProcessNode _ _ harea
  have hkeys : (sectionsOf base combo').map Prod.fst = (sectionsOf base combo).map Prod.fst := by
    rw [sectionsOf_keys, sectionsOf_keys]
  have hsections := Dict.get?_update_eq_iff (f := py.normaliseValue) (d := base.entries)
    (hnodup combo) hkeys
  rw [buildHardwareConfig_eq_ok h, buildHardwareConfig_eq_ok h', normaliseValue_dict_eq_iff]
  simp only [hget]
  constructor
  · intro hall
    constructor
    · rw [← sectionsOf_eq_iff, ← hsections]
      intro k
      by_cases hk : k = "version" ∨ k = "area_model"
      · have hnot : k ∉ ["mac_engine", "memory", "sram", "on_chip_memory", "optimizations"] := by
          rcases hk with rfl | rfl <;> decide
        rw [hother _ _ hnot, hother _ _ hnot]
      · rw [not_or] at hk
        have hone := hall k
        rw [if_neg hk.1, if_neg hk.1, if_neg hk.2, if_neg hk.2] at hone
        exact hone
    · have harea := hall "area_model"
      exact harea
  · intro hsame k
    split_ifs with hversion harea
    · rfl
    · exact hsame.area
    · exact hsections.mpr (sectionsOf_eq_iff.mpr hsame.axes) k

/-! ### The identity -/

/-- An identity sees no difference between two combinations. -/
structure SameIdentity (py : Hashing) (base : BaseConfig) (space : DesignSpace Scalar)
    (combo combo' : Combo Scalar) : Prop extends SameHardware py base combo combo' where
  temporal : ∀ a ∈ space.axes.keys, a ∈ temporalAxes →
    py.normaliseScalar (combo.value a) = py.normaliseScalar (combo'.value a)

/-- The requested axes that enter the identity as they are. -/
def requestedTemporal (space : DesignSpace Scalar) : List String :=
  space.axes.keys.filter fun axis => decide (axis ∈ temporalAxes)

/-- The values of a combination that are read under a list of axes. -/
private theorem temporal_eq {l : List String} {temporal : List (String × Scalar)}
    (h : List.Forall₂ (fun a e => (combo.read a).map (fun v => (a, v)) = .ok e) l temporal) :
    temporal = l.map fun a => (a, combo.value a) := by
  induction h with
  | nil => rfl
  | @cons a e l l' hread _ ih =>
    rw [List.map_cons, ← ih]
    cases hget : combo.get? a with
    | none => simp [Combo.read, hget, Except.map] at hread
    | some v =>
      simp only [Combo.read, hget, Except.map, Except.ok.injEq] at hread
      rw [← hread, Combo.value_of_get? hget]

/-- A built point has the hardware of its combination, and the digest of this hardware and
of the temporal values. -/
theorem buildPoint_eq_ok {p : DesignPoint Scalar (Dict String Tree)}
    (h : DesignSpace.buildPoint (hardwareBuilder py base) space combo = .ok p) :
    p.axisValues = combo ∧ ∃ hw, buildHardwareConfig base combo = .ok hw ∧
      p.designPointId = py.digestSha256 (idSourceTree
        { hardware := hw, scenarioRef := space.scenario.name
          workloadRef := space.scenario.workloadRef
          temporal := Dict.empty.update
            ((requestedTemporal space).map fun a => (a, combo.value a)) }) := by
  obtain ⟨hw, hhw, h⟩ := bind_eq_ok.mp h
  obtain ⟨temporal, htemporal, h⟩ := bind_eq_ok.mp h
  cases h
  have hvalues : temporal = (requestedTemporal space).map fun a => (a, combo.value a) :=
    temporal_eq (mapM_eq_ok.mp htemporal)
  refine ⟨rfl, hw, hhw, ?_⟩
  rw [hvalues]
  rfl

/-- The temporal values of two combinations have the same normal form when each requested
one has. -/
theorem temporal_eq_iff {l : List String} (hnodup : l.Nodup) :
    (∀ k, ((((Dict.empty.update (l.map fun a => (a, combo.value a))).mapValues
        fun _ v => Tree.leaf v)).get? k).map py.normaliseValue =
      (((Dict.empty.update (l.map fun a => (a, combo'.value a))).mapValues
        fun _ v => Tree.leaf v).get? k).map py.normaliseValue) ↔
    ∀ a ∈ l, py.normaliseScalar (combo.value a) = py.normaliseScalar (combo'.value a) := by
  have hleaf : ∀ o : Option Scalar, (o.map Tree.leaf).map py.normaliseValue =
      o.map py.normaliseScalar := by
    intro o
    cases o with
    | none => rfl
    | some v => rw [Option.map_some, Option.map_some, Option.map_some, normaliseValue_leaf]
  simp only [Dict.get?_mapValues, hleaf]
  have hkeys : ∀ combo : Combo Scalar, (l.map fun a => (a, combo.value a)).map Prod.fst = l := by
    intro combo
    rw [List.map_map]
    exact List.map_id l
  refine (Dict.get?_update_eq_iff (by rwa [hkeys]) (by rw [hkeys, hkeys])).trans ?_
  rw [List.map_map, List.map_map]
  exact List.map_inj_left

/-- Points have the same id when the identity sees no difference between their
combinations. -/
theorem designPointId_eq_iff (hsha : Function.Injective py.sha256Hex)
    {p p' : DesignPoint Scalar (Dict String Tree)}
    (h : DesignSpace.buildPoint (hardwareBuilder py base) space combo = .ok p)
    (h' : DesignSpace.buildPoint (hardwareBuilder py base) space combo' = .ok p') :
    p.designPointId = p'.designPointId ↔ SameIdentity py base space combo combo' := by
  obtain ⟨-, hw, hhw, hid⟩ := buildPoint_eq_ok h
  obtain ⟨-, hw', hhw', hid'⟩ := buildPoint_eq_ok h'
  have hnodup : (requestedTemporal space).Nodup := space.axes.keys_nodup.filter _
  rw [hid, hid', digestSha256_eq_iff hsha]
  unfold idSourceTree
  refine (Dict.get?_update_eq_iff (d := Dict.empty) (by simp) (by simp)).trans ?_
  simp only [List.map_cons, List.map_nil, List.cons.injEq, and_true, true_and,
    hardware_eq_iff hhw hhw', normaliseValue_dict_eq_iff, temporal_eq_iff hnodup]
  constructor
  · rintro ⟨hhardware, htemporal⟩
    exact ⟨hhardware, fun a ha hmem =>
      htemporal a (List.mem_filter.mpr ⟨ha, decide_eq_true hmem⟩)⟩
  · intro hsame
    refine ⟨hsame.toSameHardware, fun a ha => ?_⟩
    obtain ⟨ha, hmem⟩ := List.mem_filter.mp ha
    exact hsame.temporal a ha (of_decide_eq_true hmem)

/-- The identity of the points of a design space is injective: points with the same id have
equal values on every axis. -/
def IdentityInjective (py : Hashing) (base : BaseConfig) (space : DesignSpace Scalar) : Prop :=
  ∀ result, space.generateWithExclusions (hardwareBuilder py base) = .ok result →
    ∀ p ∈ result.points, ∀ p' ∈ result.points, p.designPointId = p'.designPointId →
      ∀ a ∈ space.axes.keys, p.axisValues.value a == p'.axisValues.value a

/-- A generated point is built from its axis values. -/
theorem buildPoint_of_mem {result : GenerationResult Scalar (Dict String Tree)}
    (h : space.generateWithExclusions (hardwareBuilder py base) = .ok result)
    {p : DesignPoint Scalar (Dict String Tree)} (hp : p ∈ result.points) :
    DesignSpace.buildPoint (hardwareBuilder py base) space p.axisValues = .ok p := by
  obtain ⟨⟨combos, exclusions⟩, -, h⟩ := bind_eq_ok.mp h
  obtain ⟨points, hpoints, h⟩ := bind_eq_ok.mp h
  cases h
  obtain ⟨combo, -, hpoint⟩ := exists_mem_of_forall₂ (mapM_eq_ok.mp hpoints).flip hp
  rw [(buildPoint_eq_ok hpoint).1]
  exact hpoint

/-- The generated combinations are the axis values of the points. -/
theorem combinations_eq_ok {result : GenerationResult Scalar (Dict String Tree)}
    (h : space.generateWithExclusions (hardwareBuilder py base) = .ok result)
    {combos : List (Combo Scalar)} {exclusions : List (ExclusionRecord Scalar)}
    (hcombos : space.combinations = .ok (combos, exclusions)) :
    combos = result.points.map (·.axisValues) := by
  rw [DesignSpace.generate_eq_ok h] at hcombos
  cases hcombos
  rfl

/-- An identity sees nothing but the hardware axes, the process node and the temporal axes. -/
theorem sameIdentity_of_value_eq
    (haxes : ∀ a ∈ hardwareAxes ++ temporalAxes, combo.value a = combo'.value a)
    (hnode : combo.get? "process_node" = combo'.get? "process_node") :
    SameIdentity py base space combo combo' where
  axes a ha := by rw [haxes a (List.mem_append_left _ ha)]
  area := by rw [seenArea, seenArea, writeProcessNode, writeProcessNode, hnode]
  temporal a _ ha := by rw [haxes a (List.mem_append_right _ ha)]

/-- Identities are injective exactly when the generation fails or every two generated
combinations that the identity does not tell apart have equal values on every axis. -/
theorem identityInjective_iff (py : Hashing) (hsha : Function.Injective py.sha256Hex)
    (base : BaseConfig) (space : DesignSpace Scalar) : IdentityInjective py base space ↔
      (∃ e, space.generateWithExclusions (hardwareBuilder py base) = .error e) ∨
        ∀ combos exclusions, space.combinations = .ok (combos, exclusions) →
          ∀ combo ∈ combos, ∀ combo' ∈ combos, SameIdentity py base space combo combo' →
            ∀ a ∈ space.axes.keys, combo.value a == combo'.value a := by
  unfold IdentityInjective
  cases hgenerate : space.generateWithExclusions (hardwareBuilder py base) with
  | error e => simp
  | ok result =>
    simp only [Except.ok.injEq, reduceCtorEq, exists_false, false_or, forall_eq']
    constructor
    · intro hinjective combos exclusions hcombinations combo hcombo combo' hcombo' hsame
      rw [combinations_eq_ok hgenerate hcombinations] at hcombo hcombo'
      obtain ⟨p, hp, rfl⟩ := List.mem_map.mp hcombo
      obtain ⟨p', hp', rfl⟩ := List.mem_map.mp hcombo'
      apply hinjective p hp p' hp'
      exact (designPointId_eq_iff hsha (buildPoint_of_mem hgenerate hp)
        (buildPoint_of_mem hgenerate hp')).mpr hsame
    · intro hcond p hp p' hp' hid
      refine hcond _ _ (DesignSpace.generate_eq_ok hgenerate) _ (List.mem_map_of_mem hp) _
        (List.mem_map_of_mem hp') ?_
      exact (designPointId_eq_iff hsha (buildPoint_of_mem hgenerate hp)
        (buildPoint_of_mem hgenerate hp')).mp hid

/-- A space with one combination has an injective identity. -/
theorem identityInjective_sample : ∃ space,
    DesignSpace.create sampleScenario (sampleConfig [] []) "full" = .ok space ∧
    IdentityInjective sampleHashing sampleBase space := by
  have hcheck : ((DesignSpace.create sampleScenario (sampleConfig [] []) "full").toOption.any
      fun space => space.combinations.toOption.any fun result =>
        decide (result.1.length = 1)) = true := by decide +kernel
  obtain ⟨space, hspace, hcheck⟩ := (Option.any_eq_true ..).mp hcheck
  obtain ⟨result, hresult, hlength⟩ := (Option.any_eq_true ..).mp hcheck
  obtain ⟨one, hone⟩ := List.length_eq_one_iff.mp (of_decide_eq_true hlength)
  refine ⟨space, toOption_eq_some.mp hspace,
    (identityInjective_iff sampleHashing Function.injective_id sampleBase space).mpr (Or.inr ?_)⟩
  intro combos exclusions hcombos combo hcombo combo' hcombo' _ a _
  rw [toOption_eq_some.mp hresult] at hcombos
  cases hcombos
  replace hone : combos = [one] := hone
  rw [hone, List.mem_singleton] at hcombo hcombo'
  rw [hcombo, hcombo']
  exact BEq.refl _

/-- The builder does not read an axis of DMA channels, so its values share one id. -/
theorem dma_channels_collide : ∃ space,
    DesignSpace.create sampleScenario
      (sampleConfig [("dma_channels", [.int 1, .int 2])] []) "full" = .ok space ∧
    ¬IdentityInjective sampleHashing sampleBase space := by
  have hcheck : ((DesignSpace.create sampleScenario
      (sampleConfig [("dma_channels", [.int 1, .int 2])] []) "full").toOption.any fun space =>
      decide ("dma_channels" ∈ space.axes.keys) &&
      (space.generateWithExclusions (hardwareBuilder sampleHashing sampleBase)).toOption.any
        fun result => result.points.any fun p => result.points.any fun p' =>
          (hardwareAxes ++ temporalAxes).all (fun a =>
            decide (p.axisValues.value a = p'.axisValues.value a)) &&
          decide (p.axisValues.get? "process_node" = p'.axisValues.get? "process_node") &&
          !(p.axisValues.value "dma_channels" == p'.axisValues.value "dma_channels")) = true := by
    decide +kernel
  simp only [Option.any_eq_true, Bool.and_eq_true, decide_eq_true_iff, List.any_eq_true,
    List.all_eq_true] at hcheck
  obtain ⟨space, hspace, haxis, result, hresult, p, hp, p', hp', ⟨haxes, hnode⟩, hdiffer⟩ := hcheck
  refine ⟨space, toOption_eq_some.mp hspace, fun hinjective => ?_⟩
  have hgenerate := toOption_eq_some.mp hresult
  have hid : p.designPointId = p'.designPointId :=
    (designPointId_eq_iff Function.injective_id (buildPoint_of_mem hgenerate hp)
      (buildPoint_of_mem hgenerate hp')).mpr (sameIdentity_of_value_eq haxes hnode)
  have hequal := hinjective result hgenerate p hp p' hp' hid _ haxis
  rw [Bool.not_eq_true', hequal] at hdiffer
  exact Bool.noConfusion hdiffer

end Dse

end NpuArc
