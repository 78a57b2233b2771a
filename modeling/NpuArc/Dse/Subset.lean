import NpuArc.Dse.Coverage

/-!
# The small coverage set within the full mode

Both modes check the same constraints, so a combination of the small coverage set is also
generated in full mode when it is one of the cross product. A repair can leave the cross
product: it writes the values that constraints require, the scenario's bandwidth among
them, and these need not be axis values. Also the engines of the registry that are tried
on the process nodes need not be.
-/

namespace NpuArc

namespace Dse

variable {V : Type} [PyStrings V]

/-- Equality of combinations as Python dictionaries. -/
structure Combo.Same (combo combo' : Combo V) : Prop where
  keys : ∀ a, a ∈ combo.keys ↔ a ∈ combo'.keys
  agrees : combo.Agrees combo'

namespace DesignSpace

variable {space : DesignSpace V} {combo combo' : Combo V}

/-- A value equals one of the values of an axis. -/
def IsAxisValue (space : DesignSpace V) (a : String) (v : V) : Prop :=
  ∃ spec, space.axes.get? a = some spec ∧ ∃ w ∈ spec.values, (v == w) = true

/-- A combination gives every axis one of its values, and nothing else. -/
structure Within (space : DesignSpace V) (combo : Combo V) : Prop where
  keys : ∀ a, a ∈ combo.keys ↔ a ∈ space.axes.keys
  values : ∀ a v, combo.get? a = some v → space.IsAxisValue a v

/-- A combination is generated in full mode. -/
def InFull (space : DesignSpace V) (combo : Combo V) : Prop :=
  ∃ combo' ∈ space.fullCombinations.1, combo.Same combo'

/-- Full mode generates the combinations within the axes that break no constraint. -/
theorem inFull_iff [EquivBEq V] :
    space.InFull combo ↔ space.Within combo ∧ firstBroken space.constraints combo = none := by
  unfold InFull
  rw [fullCombinations_eq]
  simp only [List.mem_filter, Option.isNone_iff_eq_none]
  constructor
  · rintro ⟨combo', ⟨hcombo', hvalid⟩, hsame⟩
    rw [firstBroken_congr hsame.agrees]
    refine ⟨⟨fun a => ?_, fun a v hv => ?_⟩, hvalid⟩
    · rw [hsame.keys, mem_keys_crossProduct hcombo']
    · have ha : a ∈ space.axes.keys := by
        rw [← mem_keys_crossProduct hcombo', ← hsame.keys]
        exact Dict.mem_keys.mpr ⟨v, hv⟩
      obtain ⟨spec, hspec⟩ := Dict.mem_keys.mp ha
      obtain ⟨w, hw, hget⟩ := get?_crossProduct hcombo' hspec
      refine ⟨spec, hspec, w, hw, ?_⟩
      have hequal := hsame.agrees a
      rwa [Combo.value_of_get? hv, Combo.value_of_get? hget] at hequal
  · rintro ⟨hwithin, hvalid⟩
    -- The axis value that the combination gives each axis.
    have hchoice : ∀ a, ∃ w, ∀ spec, space.axes.get? a = some spec →
        w ∈ spec.values ∧ (combo.value a == w) = true := by
      intro a
      by_cases ha : a ∈ space.axes.keys
      · obtain ⟨v, hv⟩ := Dict.mem_keys.mp ((hwithin.keys a).mpr ha)
        obtain ⟨spec, hspec, w, hw, hequal⟩ := hwithin.values a v hv
        refine ⟨w, fun spec' hspec' => ?_⟩
        rw [hspec] at hspec'
        cases hspec'
        rw [Combo.value_of_get? hv]
        exact ⟨hw, hequal⟩
      · exact ⟨PyValue.null, fun spec hspec => absurd (Dict.mem_keys.mpr ⟨spec, hspec⟩) ha⟩
    choose f hf using hchoice
    obtain ⟨combo', hcombo', hget⟩ := exists_mem_crossProduct f fun a spec h => (hf a spec h).1
    have hsame : combo.Same combo' := by
      constructor
      · intro a
        rw [hwithin.keys, mem_keys_crossProduct hcombo']
      · intro a
        cases hspec : space.axes.get? a with
        | some spec =>
          have hvalue : combo'.get? a = some (f a) := by
            rw [hget, hspec]
            rfl
          rw [Combo.value_of_get? hvalue]
          exact (hf a spec hspec).2
        | none =>
          have ha : combo.get? a = none := by
            rw [← Option.not_isSome_iff_eq_none, Option.isSome_iff_exists, ← Dict.mem_keys,
              hwithin.keys, Dict.mem_keys, hspec]
            simp
          rw [Combo.value, Combo.value, ha, hget, hspec]
          exact BEq.refl _
    exact ⟨combo', ⟨hcombo', firstBroken_congr hsame.agrees _ ▸ hvalid⟩, hsame⟩

/-- The repairs of a configuration stay within the axes. -/
structure Closed (space : DesignSpace V) : Prop where
  /-- The defaults give every axis one of its values. -/
  defaults : space.Within space.defaults
  /-- The first value that a constraint requires on an axis is a value of this axis. -/
  required : ∀ c ∈ space.constraints, ∀ a ∈ space.axes.keys, ∀ v rest,
    c.require.get? a = some (v :: rest) → space.IsAxisValue a v
  /-- The engines that are tried on the process nodes are engine values. -/
  engines : ∀ pair ∈ space.pairs, space.IsAxisValue "engine" pair.2

/-- Replacing one axis of a combination by one of its values stays within the axes. -/
theorem Within.insert (h : space.Within combo) {a : String} {v : V}
    (hv : space.IsAxisValue a v) : space.Within (combo.insert a v) := by
  have ha : a ∈ space.axes.keys := by
    obtain ⟨spec, hspec, -⟩ := hv
    exact Dict.mem_keys.mpr ⟨spec, hspec⟩
  constructor
  · intro b
    rw [Dict.keys_insert_of_mem _ ((h.keys a).mpr ha)]
    exact h.keys b
  · intro b w hw
    rw [Dict.get?_insert] at hw
    split_ifs at hw with hb
    · cases hw
      rw [hb]
      exact hv
    · exact h.values b w hw

theorem mem_pairs {node engine : V} (h : (node, engine) ∈ space.pairs) :
    ∃ nodes, space.axes.get? "process_node" = some nodes ∧ node ∈ nodes.values := by
  unfold pairs at h
  cases hnodes : space.axes.get? "process_node" with
  | none => simp [hnodes] at h
  | some nodes =>
    cases hengines : space.axes.get? "engine" with
    | none => simp [hnodes, hengines] at h
    | some engines =>
      simp only [hnodes, hengines] at h
      split_ifs at h with hnull
      · cases h
      · simp only [List.mem_flatMap, List.mem_filter, List.mem_map] at h
        obtain ⟨node', ⟨hnode', -⟩, engine', -, heq⟩ := h
        cases heq
        exact ⟨nodes, rfl, hnode'⟩

/-- The attempts of a closed configuration start within the axes. -/
theorem Closed.start [EquivBEq V] (h : space.Closed) {attempt : Attempt V}
    (hattempt : attempt ∈ space.attempts) : space.Within (attempt.start space) := by
  unfold attempts at hattempt
  rcases List.mem_cons.mp hattempt with rfl | hattempt
  · exact h.defaults
  rcases List.mem_append.mp hattempt with hvalue | hpair
  · obtain ⟨e, he, hvalue⟩ := List.mem_flatMap.mp hvalue
    obtain ⟨v, hv, rfl⟩ := List.mem_map.mp hvalue
    exact h.defaults.insert ⟨e.2, Dict.get?_eq_some.mpr he, v, hv, BEq.refl v⟩
  · obtain ⟨⟨node, engine⟩, hmem, rfl⟩ := List.mem_map.mp hpair
    obtain ⟨nodes, hnodes, hnode⟩ := mem_pairs hmem
    have hnode : space.IsAxisValue "process_node" node := ⟨nodes, hnodes, node, hnode, BEq.refl node⟩
    exact (h.defaults.insert hnode).insert (h.engines (node, engine) hmem)

/-- A repair in a closed configuration stays within the axes. -/
theorem Closed.repair (h : space.Closed) {changes : List (Change V)}
    (hwithin : space.Within combo) (hrepair : space.repair combo = .ok (combo', changes)) :
    space.Within combo' := by
  constructor
  · intro a
    rw [mem_keys_repair hrepair, hwithin.keys]
  · intro a v hv
    rcases get?_repair hrepair hv with hv' | ⟨c, hc, rest, hrequire⟩
    · exact hwithin.values a v hv'
    · have ha : a ∈ space.axes.keys := by
        rw [← hwithin.keys, ← mem_keys_repair hrepair]
        exact Dict.mem_keys.mpr ⟨v, hv⟩
      exact h.required c hc a ha v rest hrequire

theorem Kept.yields (h : space.Kept combo) :
    ∃ attempt ∈ space.attempts, space.Yields attempt combo := by
  obtain ⟨attempt, hattempt, hyield⟩ := List.mem_filterMap.mp h.mem
  exact ⟨attempt, hattempt, yield_eq_some.mp hyield⟩

omit [PyStrings V] in
/-- The two modes of a configuration. -/
theorem create_modes {scenario : ScenarioBinding V} {config : AxesConfig V}
    {full ci : DesignSpace V} (hfull : create scenario config "full" = .ok full)
    (hci : create scenario config "ci_all_axes" = .ok ci) :
    full.mode = .full ∧ ci = { full with mode := .ciAllAxes } := by
  obtain ⟨_, hmode, hfull⟩ := bind_eq_ok.mp hfull
  cases hmode
  obtain ⟨axes, haxes, hfull⟩ := bind_eq_ok.mp hfull
  cases hfull
  obtain ⟨_, hmode, hci⟩ := bind_eq_ok.mp hci
  cases hmode
  obtain ⟨_, haxes', hci⟩ := bind_eq_ok.mp hci
  rw [haxes] at haxes'
  cases haxes'
  cases hci
  exact ⟨rfl, rfl⟩

/-- A combination of the small coverage set is generated in full mode exactly when it gives
every axis one of its values, which in a closed configuration all of them do. -/
theorem ciAllAxes_subset_full [EquivBEq V] {scenario : ScenarioBinding V} {config : AxesConfig V}
    {full ci : DesignSpace V} (hfull : create scenario config "full" = .ok full)
    (hci : create scenario config "ci_all_axes" = .ok ci) {combos : List (Combo V)}
    {exclusions : List (ExclusionRecord V)} (h : ci.combinations = .ok (combos, exclusions)) :
    ∃ allCombos allExclusions, full.combinations = .ok (allCombos, allExclusions) ∧
      (∀ combo ∈ combos, (∃ combo' ∈ allCombos, combo.Same combo') ↔ ci.Within combo) ∧
      (ci.Closed → ∀ combo ∈ combos, ∃ combo' ∈ allCombos, combo.Same combo') := by
  obtain ⟨hmode, rfl⟩ := create_modes hfull hci
  obtain ⟨hkept, -⟩ := ciAllAxesCombinations_eq_ok h
  have hcombinations : full.combinations = .ok full.fullCombinations := by
    unfold combinations
    rw [hmode]
  have hiff : ∀ combo ∈ combos, full.InFull combo ↔ full.Within combo := by
    intro combo hcombo
    obtain ⟨attempt, -, changes, -, hvalid⟩ := ((hkept combo).mp hcombo).yields
    rw [inFull_iff]
    exact and_iff_left hvalid
  refine ⟨_, _, hcombinations, fun combo hcombo => ?_, fun hclosed combo hcombo => ?_⟩
  · refine (hiff combo hcombo).trans ⟨fun hwithin => ⟨hwithin.keys, hwithin.values⟩,
      fun hwithin => ⟨hwithin.keys, hwithin.values⟩⟩
  · obtain ⟨attempt, hattempt, changes, hrepair, -⟩ := ((hkept combo).mp hcombo).yields
    have hwithin := hclosed.repair (hclosed.start hattempt) hrepair
    exact (hiff combo hcombo).mpr ⟨hwithin.keys, hwithin.values⟩

theorem ciAllAxes_subset_full_sample : ∃ (full ci : DesignSpace Scalar) (allCombos combos : List (Combo Scalar)),
    full.mode = .full ∧ combos ≠ [] ∧ ∀ combo ∈ combos,
      (∃ combo' ∈ allCombos, combo.Same combo') ↔ ci.Within combo := by
  have hcheck : ((create sampleScenario (sampleConfig [] []) "full").toOption.any fun full =>
      (create sampleScenario (sampleConfig [] []) "ci_all_axes").toOption.any fun ci =>
        ci.combinations.toOption.any fun result =>
          decide (full.mode = .full) && !result.1.isEmpty) = true := by decide +kernel
  simp only [Option.any_eq_true, toOption_eq_some, Bool.and_eq_true, decide_eq_true_iff,
    Bool.not_eq_true', List.isEmpty_eq_false_iff] at hcheck
  obtain ⟨full, hfull, ci, hci, ⟨combos, exclusions⟩, hresult, hmode, hne⟩ := hcheck
  obtain ⟨allCombos, -, -, hiff, -⟩ := ciAllAxes_subset_full hfull hci hresult
  exact ⟨full, ci, allCombos, combos, hmode, hne, hiff⟩

/-- The bandwidth of the scenario is not an axis value. The small coverage set is repaired to
it, and the full mode rejects every combination. -/
theorem pinned_bandwidth_not_in_full : ∃ full ci : DesignSpace Scalar,
    (sampleConfig [] []).defaults.entries.all
      (fun e => ((sampleConfig [] []).axes.get? e.1).any fun values => values.contains e.2) ∧
    create { sampleScenario with bandwidthGbps := some (.int 60) } (sampleConfig [] []) "full" =
      .ok full ∧
    create { sampleScenario with bandwidthGbps := some (.int 60) } (sampleConfig [] [])
      "ci_all_axes" = .ok ci ∧
    ∃ allCombos allExclusions combos exclusions,
      full.combinations = .ok (allCombos, allExclusions) ∧
      ci.combinations = .ok (combos, exclusions) ∧
      ∃ combo ∈ combos, ¬∃ combo' ∈ allCombos, combo.Same combo' := by
  have hcheck : ((create { sampleScenario with bandwidthGbps := some (.int 60) }
      (sampleConfig [] []) "full").toOption.any fun full =>
      (create { sampleScenario with bandwidthGbps := some (.int 60) } (sampleConfig [] [])
        "ci_all_axes").toOption.any fun ci =>
        full.combinations.toOption.any fun all => ci.combinations.toOption.any fun result =>
          all.1.isEmpty && !result.1.isEmpty) = true := by decide +kernel
  simp only [Option.any_eq_true, toOption_eq_some, Bool.and_eq_true, Bool.not_eq_true',
    List.isEmpty_eq_false_iff, List.isEmpty_iff] at hcheck
  obtain ⟨full, hfull, ci, hci, ⟨all, allExclusions⟩, hall, ⟨combos, exclusions⟩, hresult,
    hempty, hne⟩ := hcheck
  obtain ⟨combo, hcombo⟩ := List.exists_mem_of_ne_nil _ hne
  refine ⟨full, ci, by decide +kernel, hfull, hci, all, allExclusions, combos, exclusions, hall,
    hresult, combo, hcombo, ?_⟩
  rintro ⟨combo', hcombo', -⟩
  replace hempty : all = [] := hempty
  rw [hempty] at hcombo'
  cases hcombo'

end DesignSpace

end Dse

end NpuArc
