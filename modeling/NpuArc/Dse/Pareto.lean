import NpuArc.Contracts.Errors
import NpuArc.Contracts.Result
import NpuArc.Library.Dict
import NpuArc.Scenarios.Schema
import Mathlib.Data.List.Sort

/-!
# Multi-objective Pareto frontier with hard gates

A design point enters the frontier only after it passes the hard gates. The objectives and
their directions are declared by the scenario or default. The reason of a failed gate is
the data that its text prints.
-/

namespace NpuArc

namespace Dse

/-- Direction of optimization for an objective. -/
inductive ObjectiveDirection
  | maximize
  | minimize
  deriving DecidableEq

/-- One objective mapped to a metrics field. -/
structure Objective where
  name : String
  metricField : String
  direction : ObjectiveDirection

/-- Typed reason codes for hard-gate failures. -/
inductive HardGateCode
  | complete
  | noCpuFallback
  | capacityFit
  | qualityGate
  | p99Deadline
  | powerThermal
  | terminalCompletion
  | authoritative
  deriving DecidableEq

def HardGateCode.value : HardGateCode → String
  | .complete => "complete"
  | .noCpuFallback => "no_cpu_fallback"
  | .capacityFit => "capacity_fit"
  | .qualityGate => "quality_gate"
  | .p99Deadline => "p99_deadline"
  | .powerThermal => "power_thermal"
  | .terminalCompletion => "terminal_completion"
  | .authoritative => "authoritative"

/-- What the reason of a gate result is about. -/
inductive GateReason
  | none
  | status (status : RunStatus)
  | engineCpu
  | invalidFootprint (footprint : PyFloat)
  | qualityUnresolved
  | overThermalLimit (power limit : PyFloat)
  | terminal (misses drops : Option ℤ)
  | trustLevel (level : RunTrustLevel) (required : Bool)

/-- The text of a reason, with floats printed in full and with two decimals. -/
def GateReason.text (full fixed2 : PyFloat → String) : GateReason → String
  | .none => ""
  | .status s => "status=" ++ s.value
  | .engineCpu => "engine_type=cpu"
  | .invalidFootprint footprint => "invalid footprint=" ++ full footprint
  | .qualityUnresolved => "quality_gate_required=true not resolved"
  | .overThermalLimit power limit =>
    "power=" ++ fixed2 power ++ "W > thermal_limit=" ++ full limit ++ "W"
  | .terminal misses drops =>
    " ".intercalate ((misses.map fun n => s!"deadline_miss_count={n}").toList ++
      (drops.map fun n => s!"drop_count={n}").toList)
  | .trustLevel level required =>
    "trust_level=" ++ level.value ++ if required then " (quality_gate_required)" else ""

/-- Result of one hard-gate check. -/
structure GateResult where
  code : HardGateCode
  passed : Bool
  reason : GateReason := .none

/-- A design-point result decorated with gate and objective information. -/
structure ParetoPoint where
  result : DesignPointResult
  gateResults : List GateResult
  objectiveValues : Dict String PyFloat

def ParetoPoint.passedAllGates (p : ParetoPoint) : Bool := p.gateResults.all (·.passed)

/-- The texts of the failed gates that have one. -/
def ParetoPoint.gateFailureReasons (full fixed2 : PyFloat → String) (p : ParetoPoint) :
    List String :=
  (p.gateResults.filter fun g => !g.passed && g.reason.text full fixed2 != "").map fun g =>
    g.code.value ++ ": " ++ g.reason.text full fixed2

/-- The objectives of a scenario that declares none. -/
def defaultObjectives : List Objective :=
  [⟨"completed_throughput_hz", "completed_throughput_hz", .maximize⟩,
    ⟨"latency_p99_ms", "p99_latency_s", .minimize⟩,
    ⟨"deadline_miss_count", "deadline_miss_count", .minimize⟩,
    ⟨"area_mm2", "area_mm2", .minimize⟩,
    ⟨"power_w", "power_w", .minimize⟩,
    ⟨"energy_joules", "energy_joules", .minimize⟩]

/-- Names of latencies in milliseconds and the fields in seconds that they stand for. -/
def aliasMap : List (String × String) :=
  [("latency_p99_ms", "p99_latency_s"), ("avg_latency_ms", "avg_latency_s"),
    ("p50_latency_ms", "p50_latency_s"), ("max_latency_ms", "max_latency_s")]

/-- A numeric metric value, `none` when it is missing. -/
def metricValue (metrics : Option EngineMetrics) (field : String) : Option PyFloat :=
  match metrics with
  | none => none
  | some m =>
    match m.fields.lookup field with
    | some value => value
    | none =>
      match aliasMap.lookup field with
      | some field => (m.fields.lookup field).join
      | none => none

/-- An entry of the declared objectives: a mapping, or a value of another type. -/
inductive RawObjective
  | mapping (name metricField direction : Option String)
  | other (typeName : String)

/-- The metadata of a scenario that the frontier reads. -/
structure ParetoMetadata where
  objectives : Option (List RawObjective) := none
  thermalLimitW : Option PyFloat := none
  qualityGateRequired : Bool := false

/-- The direction with a given name. -/
def ObjectiveDirection.ofValue (value : String) : Except Error ObjectiveDirection :=
  if value = "maximize" then .ok .maximize
  else if value = "minimize" then .ok .minimize
  else .error (.valueError (reprStr value ++ " is not a valid ObjectiveDirection"))

/-- The objective that an entry declares. -/
def RawObjective.parse : RawObjective → Except Error Objective
  | .other typeName =>
    .error (.configError ("objective entry must be a dict, got " ++ typeName)
      "metadata.objectives")
  | .mapping name metricField direction => do
    let name := if name.all (· = "") then metricField else name
    let metricField := metricField.or name
    let direction ← ObjectiveDirection.ofValue (direction.getD "maximize")
    match name, metricField with
    | some name, some metricField =>
      if name = "" ∨ metricField = "" then
        .error (.configError "objective must have 'name' and 'metric_field'"
          "metadata.objectives")
      else .ok ⟨name, metricField, direction⟩
    | _, _ =>
      .error (.configError "objective must have 'name' and 'metric_field'"
        "metadata.objectives")

/-- Scenario-declared objectives, or the default set. -/
def objectivesFromScenario (metadata : ParetoMetadata) : Except Error (List Objective) :=
  match metadata.objectives with
  | none => .ok defaultObjectives
  | some raw => if raw = [] then .ok defaultObjectives else raw.mapM RawObjective.parse

/-- A representative deadline of the scenario: the least declared one. -/
def scenarioDeadlineMs (sc : Scenario) : Option ℚ :=
  (sc.classes.filterMap (·.relativeDeadlineMs)).min?

/-- The thermal power limit, with a conservative default. -/
def scenarioThermalLimitW (metadata : ParetoMetadata) : PyFloat :=
  metadata.thermalLimitW.getD (.ofRat 150)

/-- A Pareto frontier with hard gates and configurable objectives. -/
structure MultiObjectivePareto where
  objectives : List Objective
  deadlineMs : Option PyFloat := none
  thermalLimitW : Option PyFloat := none
  qualityGateRequired : Bool := false

namespace MultiObjectivePareto

/-- The constructor, which falls back to the default objectives. -/
def create (objectives : Option (List Objective)) (deadlineMs thermalLimitW : Option PyFloat)
    (qualityGateRequired : Bool) : MultiObjectivePareto where
  objectives :=
    match objectives with
    | none => defaultObjectives
    | some objectives => if objectives = [] then defaultObjectives else objectives
  deadlineMs := deadlineMs
  thermalLimitW := thermalLimitW
  qualityGateRequired := qualityGateRequired

/-- The Pareto filter of a scenario with its metadata. -/
def fromScenario (sc : Scenario) (metadata : ParetoMetadata) :
    Except Error MultiObjectivePareto := do
  let objectives ← objectivesFromScenario metadata
  .ok (create (some objectives) ((scenarioDeadlineMs sc).map .ofRat)
    (some (scenarioThermalLimitW metadata)) metadata.qualityGateRequired)

/-- The memory footprint that does not fit any capacity. -/
def invalidFootprint (metrics : Option EngineMetrics) : Option PyFloat :=
  (metrics.bind (·.memoryFootprintGib)).filter fun footprint =>
    !((PyFloat.ofRat 0).le footprint && footprint.lt .posInf)

/-- The power above the thermal limit, with the limit. -/
def overThermalLimit (mp : MultiObjectivePareto) (metrics : Option EngineMetrics) :
    Option (PyFloat × PyFloat) :=
  match mp.thermalLimitW, metrics with
  | some limit, some m => if limit.lt m.powerW then some (m.powerW, limit) else none
  | _, _ => none

/-- A positive count. -/
def positive (count : Option ℤ) : Option ℤ := count.filter fun n => decide (0 < n)

/-- Apply the hard gates to a single design-point result. -/
def evaluateGates (mp : MultiObjectivePareto) (result : DesignPointResult) : List GateResult :=
  let complete := decide (result.status = .complete)
  let onCpu := decide (result.engineType.toLower = "cpu")
  let footprint := invalidFootprint result.metrics
  let overLimit := mp.overThermalLimit result.metrics
  let misses := positive (result.metrics.bind (·.deadlineMissCount))
  let drops := positive (result.metrics.bind (·.dropCount))
  let authOk :=
    if mp.qualityGateRequired then decide (result.trustLevel = .authoritative)
    else decide (result.trustLevel ≠ .nonAuthoritative)
  [{ code := .complete, passed := complete
     reason := if complete then .none else .status result.status },
   { code := .noCpuFallback, passed := !onCpu
     reason := if onCpu then .engineCpu else .none },
   { code := .capacityFit, passed := footprint.isNone
     reason := footprint.elim .none .invalidFootprint },
   { code := .qualityGate, passed := !mp.qualityGateRequired
     reason := if mp.qualityGateRequired then .qualityUnresolved else .none },
   { code := .powerThermal, passed := overLimit.isNone
     reason := overLimit.elim .none fun e => .overThermalLimit e.1 e.2 },
   { code := .terminalCompletion, passed := misses.isNone && drops.isNone
     reason := if misses.isNone && drops.isNone then .none else .terminal misses drops },
   { code := .authoritative, passed := authOk
     reason :=
       if authOk then .none else .trustLevel result.trustLevel mp.qualityGateRequired }]

/-- The value of an objective, the worst one when the metric is missing. -/
def objectiveValue (result : DesignPointResult) (obj : Objective) : PyFloat :=
  (metricValue result.metrics obj.metricField).getD
    (if obj.direction = .maximize then .negInf else .posInf)

/-- The objective values of a result under the names of the objectives. -/
def objectiveValues (mp : MultiObjectivePareto) (result : DesignPointResult) :
    Dict String PyFloat :=
  .ofList (mp.objectives.map fun obj => (obj.name, objectiveValue result obj))

/-- A result with its gates and its objective values. -/
def decorate (mp : MultiObjectivePareto) (result : DesignPointResult) : ParetoPoint where
  result := result
  gateResults := mp.evaluateGates result
  objectiveValues := mp.objectiveValues result

/-- Compare two points on the remaining objectives, given whether an earlier objective was
strictly better. -/
def dominatesFrom (a b : ParetoPoint) (strictlyBetter : Bool) : List Objective → Bool
  | [] => strictlyBetter
  | obj :: rest =>
    let av := (a.objectiveValues.get? obj.name).getD (.ofRat 0)
    let bv := (b.objectiveValues.get? obj.name).getD (.ofRat 0)
    match obj.direction with
    | .maximize =>
      if av.lt bv then false else dominatesFrom a b (strictlyBetter || bv.lt av) rest
    | .minimize =>
      if bv.lt av then false else dominatesFrom a b (strictlyBetter || av.lt bv) rest

/-- Whether a point dominates another: strictly better in at least one objective, not worse
in any. -/
def dominates (mp : MultiObjectivePareto) (a b : ParetoPoint) : Bool :=
  dominatesFrom a b false mp.objectives

/-- The decorated results that pass all gates. -/
def decorated (mp : MultiObjectivePareto) (results : List DesignPointResult) :
    List ParetoPoint :=
  (results.map mp.decorate).filter (·.passedAllGates)

/-- The Pareto-optimal points that pass all hard gates, sorted by design-point id. A point is
compared with the points at the other positions. -/
def computeFrontier (mp : MultiObjectivePareto) (results : List DesignPointResult) :
    List ParetoPoint :=
  let decorated := (mp.decorated results).zipIdx
  let frontier := decorated.filter fun candidate =>
    !decorated.any fun other => other.2 != candidate.2 && mp.dominates other.1 candidate.1
  (frontier.map Prod.fst).insertionSort fun p q =>
    p.result.designPointId ≤ q.result.designPointId

end MultiObjectivePareto

end Dse

end NpuArc
