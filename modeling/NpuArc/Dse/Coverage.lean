import NpuArc.Dse.Attempts
import NpuArc.Dse.HardwareBuilder
import NpuArc.Dse.Reclassification

/-!
# Coverage of a design space

The manifest reports a requested value as missing unless a generated point has it or an
exclusion with a reason names it. A value can be lost: all its combinations are rejected or
repaired to others, and the exclusions name other axes, other values, or no reason. The
same holds for pairs of an engine and a process node, where a repair replaces the pair
without a record.
-/

namespace NpuArc

namespace Dse

/-! ### The manifest of a result -/

namespace CoverageManifest

variable {V H : Type} [BEq V]

private theorem get?_foldl_addGenerated (points : List (DesignPoint V H))
    (m : CoverageManifest V H) (a : String) :
    (points.foldl addGenerated m).coverage.get? a = (m.coverage.get? a).map fun cov =>
      { cov with generated :=
          (points.filterMap fun p => p.axisValues.get? a).foldl EqSet.insert cov.generated } := by
  induction points generalizing m with
  | nil => simp
  | cons p points ih =>
    rw [List.foldl_cons, ih, addGenerated, get?_eachAxis]
    cases hp : p.axisValues.get? a with
    | none => simp [hp]
    | some v => cases m.coverage.get? a <;> simp [hp]

private theorem get?_foldl_addExclusion (exclusions : List (ExclusionRecord V))
    (m : CoverageManifest V H) (a : String) :
    (exclusions.foldl addExclusion m).coverage.get? a = (m.coverage.get? a).map fun cov =>
      { cov with exclusions := cov.exclusions ++ exclusions.filter fun x => x.axis = a } := by
  induction exclusions generalizing m with
  | nil => simp
  | cons x exclusions ih =>
    rw [List.foldl_cons, ih, addExclusion, Dict.get?_modify]
    by_cases hx : a = x.axis
    · subst hx
      cases m.coverage.get? x.axis <;> simp
    · have hx' : ¬x.axis = a := fun h => hx h.symm
      rw [if_neg hx]
      cases m.coverage.get? a <;> simp [hx']

/-- The coverage of an axis: the requested values, the values of the points, and the
exclusions that name the axis. -/
theorem get?_coverage_build (axes : Dict String (AxisSpec V)) (points : List (DesignPoint V H))
    (exclusions : List (ExclusionRecord V)) (a : String) :
    (build axes points exclusions).coverage.get? a = (axes.get? a).map fun spec =>
      { axis := a
        requested := .ofList spec.values
        generated := .ofList (points.filterMap fun p => p.axisValues.get? a)
        exclusions := exclusions.filter fun x => x.axis = a } := by
  unfold build
  rw [get?_foldl_addExclusion, get?_foldl_addGenerated, requestedOnly, Dict.get?_mapValues]
  cases axes.get? a <;> rfl

/-- No requested value is reported as missing. -/
def NoneMissing [LE V] [DecidableLE V] (m : CoverageManifest V H) : Prop :=
  ∀ a cov, m.coverage.get? a = some cov → cov.missing = []

/-- No requested value is missing when each is a value of a point or of an exclusion with a
reason. -/
theorem noneMissing_build [EquivBEq V] [LE V] [DecidableLE V] {axes : Dict String (AxisSpec V)}
    {points : List (DesignPoint V H)} {exclusions : List (ExclusionRecord V)} :
    (build axes points exclusions).NoneMissing ↔
      ∀ a spec, axes.get? a = some spec → ∀ v ∈ spec.values,
        (∃ p ∈ points, p.carries a v) ∨
          ∃ x ∈ exclusions, x.axis = a ∧ v == x.value ∧ x.reason ≠ "" := by
  have hcarries : ∀ a v, v ∈ EqSet.ofList (points.filterMap fun p => p.axisValues.get? a) ↔
      ∃ p ∈ points, p.carries a v := by
    intro a v
    simp only [EqSet.mem_ofList, List.mem_filterMap, DesignPoint.carries, Option.any_eq_true]
    grind
  have hnames : ∀ a v, v ∈ EqSet.ofList (((exclusions.filter fun x => x.axis = a).filter
      fun x => x.reason != "").map (·.value)) ↔
      ∃ x ∈ exclusions, x.axis = a ∧ v == x.value ∧ x.reason ≠ "" := by
    intro a v
    simp only [EqSet.mem_ofList, List.mem_map, List.mem_filter, bne_iff_ne, decide_eq_true_iff]
    grind
  unfold NoneMissing
  simp only [get?_coverage_build, Option.map_eq_some_iff]
  constructor
  · intro h a spec hspec v hv
    have hmissing := AxisCoverage.missing_eq_nil.mp (h a _ ⟨spec, hspec, rfl⟩) v
      (EqSet.mem_ofList.mpr ⟨v, hv, BEq.refl v⟩)
    rw [← hcarries, ← hnames]
    exact hmissing
  · rintro h a _ ⟨spec, hspec, rfl⟩
    apply AxisCoverage.missing_eq_nil.mpr
    intro v hv
    obtain ⟨w, hw, hvw⟩ := EqSet.mem_ofList.mp hv
    have hw := h a spec hspec w hw
    rw [← hcarries, ← hnames] at hw
    exact hw.imp (EqSet.mem_congr _ hvw).mpr (EqSet.mem_congr _ hvw).mpr

end CoverageManifest

/-! ### What the generator leaves in its result -/

variable {V H : Type} [PyStrings V]

/-- Whether a combination has a value on an axis. -/
def Combo.carries (combo : Combo V) (a : String) (v : V) : Bool :=
  (combo.get? a).any fun w => v == w

theorem Combo.carries_iff {combo : Combo V} {a : String} {v : V} :
    combo.carries a v = true ↔ ∃ w, combo.get? a = some w ∧ (v == w) = true := by
  unfold Combo.carries
  rw [Option.any_eq_true]

namespace DesignSpace

variable {space : DesignSpace V} {builder : Builder V H} {result : GenerationResult V H}

omit [PyStrings V] in
theorem buildPoint_axisValues {combo : Combo V} {p : DesignPoint V H}
    (h : buildPoint builder space combo = .ok p) : p.axisValues = combo := by
  obtain ⟨hw, -, h⟩ := bind_eq_ok.mp h
  obtain ⟨temporal, -, h⟩ := bind_eq_ok.mp h
  cases h
  rfl

omit [PyStrings V] in
theorem buildPoints_axisValues {combos : List (Combo V)} {points : List (DesignPoint V H)}
    (h : combos.mapM (buildPoint builder space) = .ok points) :
    points.map (·.axisValues) = combos := by
  have hforall := mapM_eq_ok.mp h
  clear h
  induction hforall with
  | nil => rfl
  | cons hpoint _ ih => rw [List.map_cons, ih, buildPoint_axisValues hpoint]

/-- The points of a result have the generated combinations, in their order. -/
theorem generate_eq_ok (h : space.generateWithExclusions builder = .ok result) :
    space.combinations = .ok (result.points.map (·.axisValues), result.exclusions) := by
  obtain ⟨⟨combos, exclusions⟩, hcombos, h⟩ := bind_eq_ok.mp h
  obtain ⟨points, hpoints, h⟩ := bind_eq_ok.mp h
  cases h
  rw [buildPoints_axisValues hpoints]
  exact hcombos

/-! ### Values that are accounted for -/

/-- In full mode, a value is accounted for by a combination that has it and that breaks no
constraint, or first breaks one that names the axis and has a reason. -/
def InCrossProduct (space : DesignSpace V) (a : String) (v : V) : Prop :=
  ∃ combo ∈ space.crossProduct, combo.carries a v ∧
    ∀ c, firstBroken space.constraints combo = some c → c.blamedAxis combo = a ∧ c.reason ≠ ""

/-- A value is explained by an exclusion of an attempt: a valid repair has replaced it on
the axis that the attempt is about, or the repaired combination has it on the axis that its
first broken constraint names. The constraint has a reason. -/
inductive Explained (space : DesignSpace V) (a : String) (v : V) : Prop
  | replaced {w : V} {combo : Combo V} {changes : List (Change V)} {change : Change V}
      (hattempt : Attempt.value a w ∈ space.attempts) (hw : (v == w) = true)
      (hrepair : space.repair (space.defaults.insert a w) = .ok (combo, changes))
      (hvalid : firstBroken space.constraints combo = none)
      (hlost : (combo.value a != w) = true)
      (hchange : (changes.find? fun change =>
        decide (change.axis = a) && change.original == w) = some change)
      (hreason : change.constraint.reason ≠ "")
  | rejected {attempt : Attempt V} {combo : Combo V} {changes : List (Change V)}
      {c : Constraint V} (hattempt : attempt ∈ space.attempts) (hne : attempt ≠ .defaults)
      (hrepair : space.repair (attempt.start space) = .ok (combo, changes))
      (hbroken : firstBroken space.constraints combo = some c)
      (haxis : c.blamedAxis combo = a) (hvalue : (v == combo.value a) = true)
      (hreason : c.reason ≠ "")

/-- An exclusion with a reason names the value. -/
def Names (exclusions : List (ExclusionRecord V)) (a : String) (v : V) : Prop :=
  ∃ x ∈ exclusions, x.axis = a ∧ v == x.value ∧ x.reason ≠ ""

theorem mem_exclusions {attempt : Attempt V} {combo : Combo V} {changes : List (Change V)}
    {x : ExclusionRecord V} : x ∈ attempt.exclusions space combo changes ↔
      attempt ≠ .defaults ∧ rejection space.constraints combo = some x ∨
      ∃ axis w change, attempt = .value axis w ∧ firstBroken space.constraints combo = none ∧
        (combo.value axis != w) = true ∧
        (changes.find? fun change =>
          decide (change.axis = axis) && change.original == w) = some change ∧
        x = { axis := axis, value := w, reason := change.constraint.reason
              constraintName := change.constraint.name } := by
  rw [← rejection_eq_none]
  unfold Attempt.exclusions recordRepairExclusion
  cases attempt with
  | defaults => simp
  | pair node engine =>
    rw [Option.mem_toList]
    simp
  | value axis w =>
    cases hrejection : rejection space.constraints combo with
    | some exclusion =>
      simp only [List.mem_singleton, reduceCtorEq, false_and, and_false, exists_false, or_false,
        ne_eq, not_false_iff, true_and, Option.some.injEq]
      exact eq_comm
    | none =>
      dsimp only
      cases hfind : changes.find? fun change =>
          decide (change.axis = axis) && change.original == w with
      | none => simp [hfind]
      | some change =>
        by_cases hlost : (combo.value axis != w) = true
        · rw [if_pos hlost]
          simp [hfind, hlost]
        · rw [if_neg hlost]
          simp [hlost]

theorem carries_eq {combo : Combo V} {a : String} (ha : a ∈ combo.keys) (v : V) :
    combo.carries a v = (v == combo.value a) := by
  obtain ⟨w, hw⟩ := Dict.mem_keys.mp ha
  rw [Combo.carries, Combo.value_of_get? hw, hw, Option.any_some]

theorem names_filterMap_rejection {cs : List (Constraint V)} {combos : List (Combo V)}
    {a : String} {v : V} : Names (combos.filterMap (rejection cs)) a v ↔
      ∃ combo ∈ combos, ∃ c, firstBroken cs combo = some c ∧ c.blamedAxis combo = a ∧
        (v == combo.value a) = true ∧ c.reason ≠ "" := by
  unfold Names rejection
  simp only [List.mem_filterMap, Option.map_eq_some_iff]
  constructor
  · rintro ⟨_, ⟨combo, hcombo, c, hbroken, rfl⟩, rfl, hv, hreason⟩
    exact ⟨combo, hcombo, c, hbroken, rfl, hv, hreason⟩
  · rintro ⟨combo, hcombo, c, hbroken, rfl, hv, hreason⟩
    exact ⟨_, ⟨combo, hcombo, c, hbroken, rfl⟩, rfl, hv, hreason⟩

/-- The full mode accounts for a value by a combination of the cross product. -/
theorem inCrossProduct_iff {a : String} {spec : AxisSpec V}
    (ha : space.axes.get? a = some spec) (v : V) : InCrossProduct space a v ↔
      (∃ combo ∈ space.fullCombinations.1, combo.carries a v) ∨
        Names space.fullCombinations.2 a v := by
  have hkeys : ∀ combo ∈ space.crossProduct, a ∈ combo.keys := fun combo hcombo =>
    (mem_keys_crossProduct hcombo a).mpr (Dict.mem_keys.mpr ⟨spec, ha⟩)
  rw [fullCombinations_eq, names_filterMap_rejection]
  simp only [List.mem_filter, Option.isNone_iff_eq_none]
  constructor
  · rintro ⟨combo, hcombo, hcarries, hbroken⟩
    cases hfirst : firstBroken space.constraints combo with
    | none => exact Or.inl ⟨combo, ⟨hcombo, hfirst⟩, hcarries⟩
    | some c =>
      obtain ⟨haxis, hreason⟩ := hbroken c hfirst
      rw [carries_eq (hkeys combo hcombo)] at hcarries
      exact Or.inr ⟨combo, hcombo, c, hfirst, haxis, hcarries, hreason⟩
  · rintro (⟨combo, ⟨hcombo, hfirst⟩, hcarries⟩ |
      ⟨combo, hcombo, c, hfirst, haxis, hcarries, hreason⟩)
    · refine ⟨combo, hcombo, hcarries, fun c hc => ?_⟩
      rw [hfirst] at hc
      cases hc
    · rw [← carries_eq (hkeys combo hcombo)] at hcarries
      refine ⟨combo, hcombo, hcarries, fun c' hc' => ?_⟩
      rw [hfirst] at hc'
      cases hc'
      exact ⟨haxis, hreason⟩

/-- The exclusions of the small coverage set name the explained values. -/
theorem names_iff_explained {exclusions : List (ExclusionRecord V)}
    (h : ∀ x, x ∈ exclusions ↔ ∃ a ∈ space.attempts, ∃ r,
      space.repair (a.start space) = .ok r ∧ x ∈ a.exclusions space r.1 r.2)
    (a : String) (v : V) : Names exclusions a v ↔ Explained space a v := by
  unfold Names
  simp only [h, mem_exclusions]
  constructor
  · rintro ⟨x, ⟨attempt, hattempt, r, hrepair, ⟨hne, hrejection⟩ |
      ⟨axis, w, change, rfl, hvalid, hlost, hchange, rfl⟩⟩, haxis, hvalue, hreason⟩
    · obtain ⟨c, hbroken, rfl⟩ := Option.map_eq_some_iff.mp hrejection
      change c.blamedAxis r.1 = a at haxis
      subst haxis
      exact .rejected hattempt hne hrepair hbroken rfl hvalue hreason
    · change axis = a at haxis
      subst haxis
      exact .replaced hattempt hvalue hrepair hvalid hlost hchange hreason
  · rintro (⟨hattempt, hw, hrepair, hvalid, hlost, hchange, hreason⟩ |
      ⟨hattempt, hne, hrepair, hbroken, haxis, hvalue, hreason⟩)
    · exact ⟨_, ⟨_, hattempt, _, hrepair, Or.inr ⟨_, _, _, rfl, hvalid, hlost, hchange, rfl⟩⟩,
        rfl, hw, hreason⟩
    · subst haxis
      exact ⟨_, ⟨_, hattempt, _, hrepair, Or.inl ⟨hne, Option.map_eq_some_iff.mpr
        ⟨_, hbroken, rfl⟩⟩⟩, rfl, hvalue, hreason⟩

/-- A value that the design space accounts for, by its mode. -/
def AccountsFor (space : DesignSpace V) (a : String) (v : V) : Prop :=
  match space.mode with
  | .full => InCrossProduct space a v
  | .ciAllAxes => (∃ combo, space.Kept combo ∧ combo.carries a v) ∨ Explained space a v

theorem accountsFor_iff [EquivBEq V] (h : space.generateWithExclusions builder = .ok result)
    {a : String} {spec : AxisSpec V} (ha : space.axes.get? a = some spec) (v : V) :
    space.AccountsFor a v ↔ (∃ p ∈ result.points, p.axisValues.carries a v) ∨
      Names result.exclusions a v := by
  have hcombinations := generate_eq_ok h
  have hpoints : (∃ p ∈ result.points, p.axisValues.carries a v) ↔
      ∃ combo ∈ result.points.map (·.axisValues), combo.carries a v := by
    simp
  rw [hpoints]
  unfold combinations at hcombinations
  unfold AccountsFor
  cases hmode : space.mode with
  | full =>
    simp only [hmode, Except.ok.injEq] at hcombinations
    rw [inCrossProduct_iff ha, hcombinations]
  | ciAllAxes =>
    simp only [hmode] at hcombinations
    obtain ⟨hkept, hexclusions⟩ := ciAllAxesCombinations_eq_ok hcombinations
    rw [names_iff_explained hexclusions]
    simp only [hkept]

/-- The manifest of the result never reports a missing value. -/
def Covers [LE V] [DecidableLE V] (builder : Builder V H) (space : DesignSpace V) : Prop :=
  ∀ result, space.generateWithExclusions builder = .ok result →
    (space.buildManifest result).NoneMissing

/-- The manifest reports no missing value exactly when every value of an axis is accounted
for, unless the generation fails. -/
theorem covers_iff [EquivBEq V] [LE V] [DecidableLE V] (builder : Builder V H)
    (space : DesignSpace V) : space.Covers builder ↔
      (∃ e, space.generateWithExclusions builder = .error e) ∨
        ∀ a spec, space.axes.get? a = some spec → ∀ v ∈ spec.values, space.AccountsFor a v := by
  unfold Covers
  cases hgenerate : space.generateWithExclusions builder with
  | error e => simp
  | ok result =>
    have herror : ¬∃ e, (Except.ok result : Except Error (GenerationResult V H)) = .error e := by
      simp
    rw [or_iff_right herror]
    have hcovers : (∀ r, (Except.ok result : Except Error (GenerationResult V H)) = .ok r →
        (space.buildManifest r).NoneMissing) ↔ (space.buildManifest result).NoneMissing := by
      simp
    rw [hcovers]
    unfold buildManifest
    rw [CoverageManifest.noneMissing_build]
    refine forall_congr' fun a => forall_congr' fun spec => forall_congr' fun ha =>
      forall_congr' fun v => forall_congr' fun _ => ?_
    exact (accountsFor_iff hgenerate ha v).symm

/-- A space without constraints covers its values. -/
theorem covers_sample : ∃ space, create sampleScenario (sampleConfig [] []) "full" = .ok space ∧
    space.Covers (hardwareBuilder sampleHashing sampleBase) := by
  have hcheck : ((create sampleScenario (sampleConfig [] []) "full").toOption.any fun space =>
      decide (space.mode = .full) && space.constraints.isEmpty &&
        space.axes.entries.all fun e => e.2.values.all fun v =>
          space.crossProduct.any fun combo => combo.carries e.1 v) = true := by decide +kernel
  obtain ⟨space, hspace, hcheck⟩ := (Option.any_eq_true ..).mp hcheck
  simp only [Bool.and_eq_true, decide_eq_true_iff, List.isEmpty_iff, List.all_eq_true,
    List.any_eq_true] at hcheck
  obtain ⟨⟨hmode, hconstraints⟩, hcarries⟩ := hcheck
  refine ⟨space, toOption_eq_some.mp hspace, (covers_iff _ space).mpr (Or.inr ?_)⟩
  intro a spec hspec v hv
  obtain ⟨combo, hcombo, hcarries⟩ := hcarries (a, spec) (Dict.get?_eq_some.mp hspec) v hv
  simp only [AccountsFor, hmode]
  refine ⟨combo, hcombo, hcarries, fun c hc => ?_⟩
  rw [hconstraints] at hc
  cases hc

/-- Both engines on the given process nodes, where fsa requires the node of a constraint. -/
def fsaConfig (nodes : List Scalar) (required : Scalar) : AxesConfig Scalar :=
  sampleConfig [("engine", [.str "block", .str "fsa"]), ("process_node", nodes)]
    [{ name := some "fsa_process"
       when := .ofList [("engine", .one (.str "fsa"))]
       require := .ofList [("process_node", .many [required])]
       reason := "fsa_process_node" }]

/-- The process node 28 is required for the engine fsa, and is not an axis value. The one
combination with fsa is rejected under the process node, so fsa is missing. -/
theorem fsa_missing : ∃ space,
    create sampleScenario (fsaConfig [.int 7] (.int 28)) "full" = .ok space ∧
    ¬space.Covers (hardwareBuilder sampleHashing sampleBase) := by
  have hcheck : ((create sampleScenario (fsaConfig [.int 7] (.int 28)) "full").toOption.any
      fun space =>
        (space.generateWithExclusions (hardwareBuilder sampleHashing sampleBase)).toOption.any
          fun result => ((space.buildManifest result).coverage.get? "engine").any
            fun cov => decide (cov.missing = [.str "fsa"])) = true := by decide +kernel
  obtain ⟨space, hspace, hcheck⟩ := (Option.any_eq_true ..).mp hcheck
  obtain ⟨result, hresult, hcheck⟩ := (Option.any_eq_true ..).mp hcheck
  obtain ⟨cov, hcov, hmissing⟩ := (Option.any_eq_true ..).mp hcheck
  refine ⟨space, toOption_eq_some.mp hspace, fun hcovers => ?_⟩
  have hnone := hcovers result (toOption_eq_some.mp hresult) _ _ hcov
  rw [of_decide_eq_true hmissing] at hnone
  cases hnone

/-! ### Pairs of an engine and a process node -/

/-- Every pair of an engine and a process node occurs in a point, or an exclusion with a
reason names the engine or the node. -/
def CoversPairs (builder : Builder V H) (space : DesignSpace V) : Prop :=
  ∀ result, space.generateWithExclusions builder = .ok result →
    ∀ engines nodes, space.axes.get? "engine" = some engines →
      space.axes.get? "process_node" = some nodes →
      ∀ engine ∈ engines.values, ∀ node ∈ nodes.values,
        (∃ p ∈ result.points, p.axisValues.carries "engine" engine ∧
          p.axisValues.carries "process_node" node) ∨
        Names result.exclusions "engine" engine ∨ Names result.exclusions "process_node" node

end DesignSpace

end Dse

end NpuArc
