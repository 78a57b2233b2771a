import NpuArc.Dse.Manifest
import Mathlib.Data.List.Sort

/-!
# Scenario-driven design-space generator

A design space has orthogonal axes, constraints, and a default value for each axis. In
`full` mode it generates all combinations within the constraints, and in `ci_all_axes` mode
a small set that is meant to touch every axis value: it starts from the defaults, replaces
one axis, or the engine and the process node, and repairs the violated constraints. What
is rejected or repaired away is recorded as an exclusion.
-/

namespace NpuArc

namespace Dse

/-- A type of axis values that contains the strings. -/
class PyStrings (V : Type) extends PyValue V where
  str : String → V

instance : PyStrings Scalar := ⟨.str⟩

variable {V H : Type}

/-- The value that `combo[axis]` reads. -/
def Combo.read (combo : Combo V) (axis : String) : Except Error V :=
  match combo.get? axis with
  | some v => .ok v
  | none => .error (.keyError axis)

/-! ### The axes configuration -/

/-- An entry of a rule as written: a list of allowed values or a single one. -/
inductive RuleEntry (V : Type)
  | one (v : V)
  | many (vs : List V)

/-- The allowed values of an entry. -/
def RuleEntry.values : RuleEntry V → List V
  | .one v => [v]
  | .many vs => vs

/-- A constraint as written. -/
structure RawConstraint (V : Type) where
  name : Option String := none
  when : Dict String (RuleEntry V) := .empty
  require : Dict String (RuleEntry V) := .empty
  excludeCombinations : List (Dict String (RuleEntry V)) := []
  reason : String := ""

/-- The declarative axes file. -/
structure AxesConfig (V : Type) where
  axes : Dict String (List V)
  defaults : Combo V := .empty
  constraints : List (RawConstraint V) := []

/-- The specifications of the axes; an axis without values is an error. -/
def buildAxes (config : AxesConfig V) : Except Error (Dict String (AxisSpec V)) :=
  config.axes.entries.foldlM
    (fun axes e =>
      if h : e.2 = [] then
        .error (.configError ("axis " ++ reprStr e.1 ++ " has no values") ("axes." ++ e.1))
      else .ok (axes.insert e.1 ⟨e.1, e.2, h⟩))
    .empty

/-- A rule with a list of values for each of its axes. -/
def normalizeRule (rule : Dict String (RuleEntry V)) : Rule V :=
  rule.mapValues fun _ entry => entry.values

/-- The constraints; one without a name is named by its position. -/
def buildConstraints (config : AxesConfig V) : List (Constraint V) :=
  config.constraints.mapIdx fun idx raw =>
    { name := raw.name.getD ("constraint_" ++ toString idx)
      when := normalizeRule raw.when
      require := normalizeRule raw.require
      excludeCombinations := raw.excludeCombinations.map normalizeRule
      reason := raw.reason }

/-! ### The design space -/

/-- What the generator reads of a scenario; the bandwidth is the declared external memory
bandwidth of its metadata, if any. -/
structure ScenarioBinding (V : Type) where
  name : String
  workloadRef : Option String
  bandwidthGbps : Option V

/-- How a design space is enumerated. -/
inductive Mode
  | full
  | ciAllAxes
  deriving DecidableEq

/-- The mode of a name. -/
def Mode.ofName (name : String) : Except Error Mode :=
  if name = "full" then .ok .full
  else if name = "ci_all_axes" then .ok .ciAllAxes
  else .error (.configError ("unknown DSE mode " ++ reprStr name) "mode")

/-- Generate design points from a scenario and declarative axes. -/
structure DesignSpace (V : Type) where
  scenario : ScenarioBinding V
  mode : Mode
  axes : Dict String (AxisSpec V)
  constraints : List (Constraint V)
  defaults : Combo V

/-- The axes that describe the workload and its scheduling. -/
def temporalAxes : List String :=
  ["queue_policy", "nonpreemptible_quantum_ms", "partition", "request_batch",
    "active_sequences", "token_block", "image_count", "action_horizon", "flow_steps",
    "resident_models", "inflight_jobs"]

/-- The canonical ids of the engine registry. -/
def engineFullIds : List String :=
  ["systolic", "os_systolic", "block", "tensor_core", "wmma", "gmma", "input_stationary", "fsa"]

/-- Output of the generation. -/
structure GenerationResult (V H : Type) where
  points : List (DesignPoint V H)
  exclusions : List (ExclusionRecord V)

/-- What a design-point id is the digest of. -/
structure IdSource (V H : Type) where
  hardware : H
  scenarioRef : String
  workloadRef : Option String
  temporal : Dict String V

/-- The functions that turn a combination into a design point: the hardware configuration
over a base configuration, and the digest. -/
structure Builder (V H : Type) where
  buildHardwareConfig : Combo V → Except Error H
  digestSha256 : IdSource V H → String

/-- A change of a repair. -/
structure Change (V : Type) where
  axis : String
  original : V
  newValue : V
  constraint : Constraint V

/-- A combination under repair. -/
structure Repair (V : Type) where
  combo : Combo V
  changes : List (Change V) := []
  changed : Bool := false

/-- The combinations seen so far, with the tuples of their axis values, and the exclusions. -/
structure Collected (V : Type) where
  seen : List (List V × Combo V) := []
  exclusions : List (ExclusionRecord V) := []

/-- All ways to take one element from each of some lists, the last one varying fastest. -/
def product {α : Type} : List (List α) → List (List α)
  | [] => [[]]
  | l :: ls => l.flatMap fun a => (product ls).map (a :: ·)

namespace DesignSpace

/-- A design space from a scenario and an axes configuration. A declared bandwidth of the
scenario pins the bandwidth axis. -/
def create (scenario : ScenarioBinding V) (config : AxesConfig V) (modeName : String) :
    Except Error (DesignSpace V) := do
  let mode ← Mode.ofName modeName
  let axes ← buildAxes config
  let axes := Dict.ofList (axes.entries.insertionSort fun a b => a.1 ≤ b.1)
  let constraints := buildConstraints config
  let defaults := Dict.ofList (config.defaults.entries.insertionSort fun a b => a.1 ≤ b.1)
  let pin :=
    match scenario.bandwidthGbps with
    | none => []
    | some bw =>
      if axes.contains "bandwidth_gbps" then
        [{ name := "scenario_bandwidth_match"
           when := .empty
           require := .ofList [("bandwidth_gbps", [bw])]
           reason := "scenario_bandwidth_match" }]
      else []
  .ok { scenario, mode, axes, constraints := constraints ++ pin, defaults }

variable [PyStrings V]

/-- The exclusion that names a constraint and the value of a combination on an axis. -/
def exclusionOf (c : Constraint V) (combo : Combo V) (axis : String) : ExclusionRecord V :=
  { axis := axis, value := combo.value axis, reason := c.reason, constraintName := c.name }

/-- Whether a combination satisfies all constraints. -/
def isValid : List (Constraint V) → Combo V → Bool
  | [], _ => true
  | c :: cs, combo =>
    if !c.matchesCombo combo then isValid cs combo
    else if c.requireViolations combo ≠ [] then false
    else if c.excludes combo then false
    else isValid cs combo

/-- Whether a combination satisfies all constraints, and the exclusion for the first one
that it violates. -/
def check : List (Constraint V) → Combo V → Bool × Option (ExclusionRecord V)
  | [], _ => (true, none)
  | c :: cs, combo =>
    if !c.matchesCombo combo then check cs combo
    else
      match c.requireViolations combo with
      | axis :: _ => (false, some (exclusionOf c combo axis))
      | [] =>
        if c.excludes combo then
          (false, some (exclusionOf c combo (c.when.keys.head?.getD "")))
        else check cs combo

/-! ### Full mode -/

/-- The cross product of the axis values. -/
def crossProduct (space : DesignSpace V) : List (Combo V) :=
  (product (space.axes.values.map (·.values))).map fun rawValues =>
    Dict.ofList (space.axes.keys.zip rawValues)

/-- Add a valid combination, or the exclusion of another one. -/
def addChecked (space : DesignSpace V) (acc : List (Combo V) × List (ExclusionRecord V))
    (combo : Combo V) : List (Combo V) × List (ExclusionRecord V) :=
  match check space.constraints combo with
  | (true, _) => (acc.1 ++ [combo], acc.2)
  | (false, some exclusion) => (acc.1, acc.2 ++ [exclusion])
  | (false, none) => acc

/-- All combinations within the constraints, and an exclusion for each other one. -/
def fullCombinations (space : DesignSpace V) : List (Combo V) × List (ExclusionRecord V) :=
  space.crossProduct.foldl space.addChecked ([], [])

/-! ### Repair -/

/-- Give an axis the first value that a constraint allows there. -/
def repairAxis (c : Constraint V) (r : Repair V) (axis : String) : Except Error (Repair V) :=
  match c.require.get? axis with
  | some (newValue :: _) => do
    let original ← r.combo.read axis
    if original != newValue then
      .ok { combo := r.combo.insert axis newValue
            changes := r.changes ++ [{ axis, original, newValue, constraint := c }]
            changed := true }
    else .ok r
  | _ => .ok r

/-- Repair the violations of one constraint. -/
def repairConstraint (r : Repair V) (c : Constraint V) : Except Error (Repair V) :=
  if !c.matchesCombo r.combo then .ok r
  else (c.requireViolations r.combo).foldlM (repairAxis c) r

/-- Go through the constraints until a round changes nothing, for some rounds at most. -/
def repairRounds (constraints : List (Constraint V)) :
    ℕ → Repair V → Except Error (Repair V)
  | 0, r => .ok r
  | rounds + 1, r => do
    let r ← constraints.foldlM repairConstraint { r with changed := false }
    if r.changed then repairRounds constraints rounds r else .ok r

/-- Repair a combination in ten rounds at most. -/
def repair (space : DesignSpace V) (combo : Combo V) :
    Except Error (Combo V × List (Change V)) := do
  let r ← repairRounds space.constraints 10 { combo }
  .ok (r.combo, r.changes)

/-! ### The small coverage set -/

/-- The tuple of the axis values of a combination. -/
def key (space : DesignSpace V) (combo : Combo V) : List V := space.axes.keys.map combo.value

/-- Add a combination unless one with the same axis values has been seen. -/
def add (space : DesignSpace V) (s : Collected V) (combo : Combo V) : Collected V :=
  if s.seen.any fun e => space.key combo == e.1 then s
  else { s with seen := s.seen ++ [(space.key combo, combo)] }

/-- Record that a repair has taken a requested value away. -/
def recordRepairExclusion (s : Collected V) (axis : String) (value : V)
    (changes : List (Change V)) : Collected V :=
  match changes.find? fun change => decide (change.axis = axis) && change.original == value with
  | some change =>
    { s with exclusions := s.exclusions ++
        [{ axis := axis, value := value, reason := change.constraint.reason
           constraintName := change.constraint.name }] }
  | none => s

/-- Record the exclusion of a rejected combination. -/
def recordCheck (space : DesignSpace V) (s : Collected V) (combo : Combo V) : Collected V :=
  match (check space.constraints combo).2 with
  | some exclusion => { s with exclusions := s.exclusions ++ [exclusion] }
  | none => s

/-- Try a value of one axis with the defaults of the others. -/
def tryValue (space : DesignSpace V) (axis : String) (s : Collected V) (value : V) :
    Except Error (Collected V) := do
  let (combo, changes) ← space.repair (space.defaults.insert axis value)
  if isValid space.constraints combo then
    let s := space.add s combo
    .ok (if combo.value axis != value then recordRepairExclusion s axis value changes else s)
  else .ok (space.recordCheck s combo)

/-- Try an engine on a process node. -/
def tryPair (space : DesignSpace V) (node : V) (s : Collected V) (engine : V) :
    Except Error (Collected V) := do
  let (combo, _) ← space.repair
    ((space.defaults.insert "process_node" node).insert "engine" engine)
  if isValid space.constraints combo then .ok (space.add s combo)
  else .ok (space.recordCheck s combo)

/-- Try the engines of the registry on the process nodes, where both axes have defaults.
The default node and the default engine are left to the single axes. -/
def tryPairs (space : DesignSpace V) (s : Collected V) : Except Error (Collected V) :=
  let defaultNode := space.defaults.value "process_node"
  let defaultEngine := space.defaults.value "engine"
  match space.axes.get? "process_node", space.axes.get? "engine" with
  | some nodes, some _ =>
    if defaultNode == PyValue.null || defaultEngine == PyValue.null then .ok s
    else
      nodes.values.foldlM
        (fun s node =>
          if node == defaultNode then .ok s
          else (engineFullIds.map PyStrings.str).foldlM
            (fun s engine => if engine == defaultEngine then .ok s else space.tryPair node s engine)
            s)
        s
  | _, _ => .ok s

/-- Start from the defaults, replace one axis, then engine and process node. -/
def ciAllAxesCombinations (space : DesignSpace V) :
    Except Error (List (Combo V) × List (ExclusionRecord V)) := do
  let (repairedDefaults, _) ← space.repair space.defaults
  let s := if isValid space.constraints repairedDefaults then space.add {} repairedDefaults else {}
  let s ← space.axes.entries.foldlM
    (fun s e => e.2.values.foldlM (space.tryValue e.1) s) s
  let s ← space.tryPairs s
  .ok (s.seen.map Prod.snd, s.exclusions)

/-! ### Generation -/

/-- The design point of a combination. -/
def buildPoint (builder : Builder V H) (space : DesignSpace V) (combo : Combo V) :
    Except Error (DesignPoint V H) := do
  let hw ← builder.buildHardwareConfig combo
  let temporal ← (space.axes.keys.filter fun axis => decide (axis ∈ temporalAxes)).mapM
    fun axis => (combo.read axis).map fun v => (axis, v)
  let idSource : IdSource V H :=
    { hardware := hw
      scenarioRef := space.scenario.name
      workloadRef := space.scenario.workloadRef
      temporal := Dict.ofList temporal }
  .ok { designPointId := builder.digestSha256 idSource
        hardwareConfig := hw
        scenarioRef := space.scenario.name
        workloadRef := space.scenario.workloadRef
        axisValues := combo }

/-- The combinations and the exclusions of the mode. -/
def combinations (space : DesignSpace V) :
    Except Error (List (Combo V) × List (ExclusionRecord V)) :=
  match space.mode with
  | .full => .ok space.fullCombinations
  | .ciAllAxes => space.ciAllAxesCombinations

/-- Generate design points and record structured exclusions. -/
def generateWithExclusions (builder : Builder V H) (space : DesignSpace V) :
    Except Error (GenerationResult V H) := do
  let (combos, exclusions) ← space.combinations
  let points ← combos.mapM (buildPoint builder space)
  .ok { points, exclusions }

/-- The coverage manifest of a generation result. -/
def buildManifest (space : DesignSpace V) (result : GenerationResult V H) :
    CoverageManifest V H :=
  CoverageManifest.build space.axes result.points result.exclusions

end DesignSpace

end Dse

end NpuArc
