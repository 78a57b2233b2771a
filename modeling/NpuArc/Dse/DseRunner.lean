import NpuArc.Calibration.TrustGate
import NpuArc.Contracts.LegacyResult
import NpuArc.Dse.Frontier
import NpuArc.Dse.Reclassification
import NpuArc.Dse.Space

/-!
# The scenario-driven exploration runner

Every generated point is evaluated once. An evaluation that raises becomes a failed result, and a
completed one gets the trust that the gate has in its parameters. The runner assembles the result
set, the coverage manifest and the frontier. A release recommendation is refused unless the result
set and all its results are authoritative.
-/

namespace NpuArc

open LegacyResult

/-! ### The release gate -/

/-- Raised when a result set is treated as authoritative that is not. -/
structure NonAuthoritativeRunError where
  message : String
  reason : String
  deriving DecidableEq

/-- The results of a set that are not authoritative. -/
def nonAuthoritative {V : Type} (rs : DesignSpaceResultV2 V) : List LabeledResult :=
  rs.results.filter fun r => decide (r.trustLevel ≠ .authoritative)

/-- Return recommended design points from an authoritative result set. -/
def releaseRecommendation {V : Type} (rs : DesignSpaceResultV2 V) :
    Except NonAuthoritativeRunError (List LabeledResult) :=
  let nonAuth := nonAuthoritative rs
  if rs.trustLevel ≠ .authoritative then
    .error
      { message := "Cannot produce release recommendation: result-set trust level is " ++
          rs.trustLevel.value
        reason := "trust_level=" ++ rs.trustLevel.value }
  else if nonAuth ≠ [] then
    .error
      { message := "Found " ++ toString nonAuth.length ++ " non-authoritative result(s): " ++
          ", ".intercalate ((nonAuth.take 5).map fun r =>
            String.ofList (r.designPointId.toList.take 12)) ++ "..."
        reason := toString nonAuth.length ++ " non_authoritative points" }
  else .ok (rs.results.filter fun r => decide (r.status = .complete))

namespace Dse

variable {V H P M : Type}

/-! ### Evaluating a point -/

/-- A design point together with its evaluation outcome. -/
structure EvaluatedPoint (V H : Type) where
  point : DesignPoint V H
  result : Option LabeledResult := none
  error : Option (ErrorRecord String) := none
  calibrationViolations : List Calibration.Violation := []

/-- An error record keeps the first two hundred characters of a message. -/
def errorRecord (code message : String) : ErrorRecord String where
  code := code
  message := String.ofList (message.toList.take 200)

/-- A runner with its configuration and the functions that it calls: the estimate of power,
performance and area, whose exceptions become messages; the run of the point's scenario, where only
compiling and running is guarded; and what is derived from a hardware configuration. -/
structure ScenarioDseRunner (V H P M : Type) where
  allowPartial : Bool := false
  trustMode : String := "exploratory"
  axes : Dict String (AxisSpec V)
  pareto : MultiObjectivePareto
  evaluatePpa : DesignPoint V H → Except (Option String) P
  runScenario : DesignPoint V H → P → Except Error (Except String M)
  engineMetrics : P → M → EngineMetrics
  configLabel : P → String
  calibrationRef : H → Except Error CalibrationRef
  trustGate : H → Calibration.GateResult
  engineType : H → String
  hardwareDigest : H → String
  inputDigest : String := ""
  workloadDigest : String := ""
  calibrationDigest : String := ""

namespace ScenarioDseRunner

/-- The trust in a completed point. -/
def pointTrust (trustMode : String) (gate : Calibration.GateResult) : RunTrustLevel :=
  if trustMode = "decision_grade" ∧
      (gate.ok = false ∨ gate.maxTrust = .t0 ∨ gate.maxTrust = .t1) then .nonAuthoritative
  else if gate.maxTrust = .t0 ∨ gate.maxTrust = .t1 then .exploratory
  else if gate.maxTrust = .t2 then .calibratedEstimate
  else .authoritative

/-- The result of a point whose evaluation failed. -/
def failedResult (r : ScenarioDseRunner V H P M) (point : DesignPoint V H) : LabeledResult where
  designPointId := point.designPointId
  status := .failed
  engineType := r.engineType point.hardwareConfig
  trustLevel := .nonAuthoritative

/-- A point whose evaluation failed. -/
def failedPoint (r : ScenarioDseRunner V H P M) (point : DesignPoint V H)
    (code message : String) : EvaluatedPoint V H where
  point := point
  result := some (r.failedResult point)
  error := some (errorRecord code message)

/-- Evaluate a single design point. -/
def evaluatePoint (r : ScenarioDseRunner V H P M) (point : DesignPoint V H) :
    Except Error (EvaluatedPoint V H) :=
  match r.evaluatePpa point with
  | .error message => .ok (r.failedPoint point "PPAError"
      ((message.filter fun s => decide (s ≠ "")).getD "unknown PPA error"))
  | .ok ppa => do
    match ← r.runScenario point ppa with
    | .error message => return r.failedPoint point "ScenarioError" message
    | .ok metrics =>
      let gate := r.trustGate point.hardwareConfig
      let trust := pointTrust r.trustMode gate
      let calibration ← r.calibrationRef point.hardwareConfig
      let result : LabeledResult :=
        { designPointId := point.designPointId
          status := .complete
          hardwareDigest := r.hardwareDigest point.hardwareConfig
          calibration := { calibration with trustLevel := trust }
          configLabel := r.configLabel ppa
          engineType := r.engineType point.hardwareConfig
          trustLevel := trust
          metrics := some (r.engineMetrics ppa metrics) }
      return { point, result := some result, calibrationViolations := gate.violations }

/-! ### The run -/

/-- The error that stands for a missing result. -/
def missingResult : ErrorRecord String :=
  errorRecord "UnknownError" "evaluation returned no result"

/-- The result of an evaluated point. -/
def resultOf (ep : EvaluatedPoint V H) : LabeledResult :=
  ep.result.getD
    { designPointId := ep.point.designPointId, status := .failed, trustLevel := .nonAuthoritative }

/-- The error of an evaluated point. -/
def errorOf (ep : EvaluatedPoint V H) : Option (ErrorRecord String) :=
  if ep.result.isSome then ep.error else some missingResult

/-- Enter an evaluated point into the manifest. -/
def recordPoint [BEq V] (m : CoverageManifest V H) (ep : EvaluatedPoint V H) :
    CoverageManifest V H :=
  let m := m.recordEvaluated ep.point
  match errorOf ep with
  | none => m.recordSuccess ep.point
  | some e => m.recordFailed ep.point (if e.message = "" then "error" else e.message)

/-- The counts of a run. -/
def summaryOf (evaluated : List (EvaluatedPoint V H)) : ResultSummary where
  generated := evaluated.length
  evaluated := evaluated.countP fun ep => ep.error.isNone || ep.result.isSome
  pruned := 0
  failed := evaluated.countP fun ep => ep.error.isSome
  filtered := 0
  complete := evaluated.countP fun ep =>
    ep.error.isNone && ep.result.any fun r => decide (r.status = .complete)
  inPart := evaluated.countP fun ep => ep.result.any fun r => decide (r.status = .inPart)

/-- What a run returns. -/
structure Output (V H : Type) [BEq V] where
  resultSet : DesignSpaceResultV2 String
  frontierDesignPointIds : List String
  manifest : CoverageManifest V H
  frontier : List ParetoPoint

/-- The parameters that violate the gate, in increasing order. -/
def violatingIds (evaluated : List (EvaluatedPoint V H)) : List String :=
  ((evaluated.flatMap fun ep => ep.calibrationViolations.map violationId).dedup).mergeSort
    fun a b => decide (a ≤ b)
where
  violationId : Calibration.Violation → String
    | .unknownCalibrationId id => id
    | .trustLevelTooLow id _ _ => id
    | .outOfCalibrationRange id _ _ => id

/-- Whether the run is partial: some point failed, and this is allowed. -/
def isPartial (r : ScenarioDseRunner V H P M) (evaluated : List (EvaluatedPoint V H)) : Bool :=
  (evaluated.any fun ep => ep.error.isSome) && r.allowPartial

/-- The results with their trust. In a partial run no result is authoritative. -/
def results (r : ScenarioDseRunner V H P M) (evaluated : List (EvaluatedPoint V H)) :
    List LabeledResult :=
  if r.isPartial evaluated then
    (evaluated.map resultOf).map fun result => { result with trustLevel := .nonAuthoritative }
  else evaluated.map resultOf

/-- Assemble the results of the evaluated points. -/
def assemble [BEq V] (r : ScenarioDseRunner V H P M) (generation : GenerationResult V H)
    (evaluated : List (EvaluatedPoint V H)) : Output V H :=
  let results := r.results evaluated
  let frontier := r.pareto.computeFrontier (results.map (·.toDesignPointResult))
  { resultSet :=
      { trustLevel := if r.isPartial evaluated then .nonAuthoritative else .exploratory
        summary := summaryOf evaluated
        results := results
        errors := evaluated.filterMap errorOf
        inputDigest := r.inputDigest
        workloadDigest := r.workloadDigest
        calibrationDigest := r.calibrationDigest }
    frontierDesignPointIds := frontier.map (·.result.designPointId)
    manifest := evaluated.foldl recordPoint
      (.build r.axes generation.points generation.exclusions)
    frontier := frontier }

/-- Evaluate all design points and return the results, the manifest and the frontier. -/
def run [BEq V] (r : ScenarioDseRunner V H P M) (generation : GenerationResult V H) :
    Except Error (Output V H) := do
  let evaluated ← generation.points.mapM r.evaluatePoint
  let output := r.assemble generation evaluated
  let violating := violatingIds evaluated
  if r.trustMode = "decision_grade" ∧ violating ≠ [] then
    .error (.configError ("decision-grade trust gate failed for calibration IDs: " ++
      ", ".intercalate violating) "trust_mode")
  else return output

/-- Return the release recommendation or refuse it. -/
def recommendation (_r : ScenarioDseRunner V H P M) (rs : DesignSpaceResultV2 String) :
    Except NonAuthoritativeRunError (List LabeledResult) :=
  releaseRecommendation rs

/-! ### What an evaluation returns -/

section Evaluation

variable {r : ScenarioDseRunner V H P M} {point : DesignPoint V H} {ep : EvaluatedPoint V H}

/-- Whether an evaluation of a point fails, so that the point has an error. -/
def Fails (r : ScenarioDseRunner V H P M) (point : DesignPoint V H) : Prop :=
  (∃ message, r.evaluatePpa point = .error message) ∨
    ∃ ppa message, r.evaluatePpa point = .ok ppa ∧ r.runScenario point ppa = .ok (.error message)

/-- A point that is evaluated has a result under its own id. It is either complete and has no
error, or failed, with an error and without authority. -/
structure Evaluated (point : DesignPoint V H) (ep : EvaluatedPoint V H)
    (result : LabeledResult) : Prop where
  point_eq : ep.point = point
  result_eq : ep.result = some result
  id : result.designPointId = point.designPointId
  outcome : ep.error = none ∧ result.status = .complete ∨
    ep.error.isSome = true ∧ result.status = .failed ∧ result.trustLevel = .nonAuthoritative

theorem evaluated_failedPoint (r : ScenarioDseRunner V H P M) (point : DesignPoint V H)
    (code message : String) :
    Evaluated point (r.failedPoint point code message) (r.failedResult point) :=
  ⟨rfl, rfl, rfl, Or.inr ⟨rfl, rfl, rfl⟩⟩

theorem evaluatePoint_eq_ok (h : r.evaluatePoint point = .ok ep) :
    (∃ result, Evaluated point ep result) ∧ (ep.error.isSome = true ↔ r.Fails point) := by
  unfold evaluatePoint at h
  cases hppa : r.evaluatePpa point with
  | error message =>
    rw [hppa] at h
    cases h
    exact ⟨⟨_, evaluated_failedPoint r point _ _⟩, iff_of_true rfl (Or.inl ⟨message, hppa⟩)⟩
  | ok ppa =>
    rw [hppa] at h
    obtain ⟨outcome, houtcome, h⟩ := bind_eq_ok.mp h
    cases outcome with
    | error message =>
      cases h
      exact ⟨⟨_, evaluated_failedPoint r point _ _⟩,
        iff_of_true rfl (Or.inr ⟨ppa, message, hppa, houtcome⟩)⟩
    | ok metrics =>
      obtain ⟨calibration, -, h⟩ := bind_eq_ok.mp h
      cases h
      refine ⟨⟨_, rfl, rfl, rfl, Or.inl ⟨rfl, rfl⟩⟩, iff_of_false (by simp) ?_⟩
      rintro (⟨message, hfail⟩ | ⟨ppa', message, hppa', hfail⟩)
      · rw [hppa] at hfail
        cases hfail
      · rw [hppa] at hppa'
        cases hppa'
        rw [houtcome] at hfail
        cases hfail

end Evaluation

/-! ### The evaluated points of a run -/

section Run

variable {r : ScenarioDseRunner V H P M}

/-- The points of a run with what their evaluations return. -/
structure Evaluates (r : ScenarioDseRunner V H P M) (points : List (DesignPoint V H))
    (evaluated : List (EvaluatedPoint V H)) : Prop where
  points : evaluated.map (·.point) = points
  result : ∀ ep ∈ evaluated, ∃ result, Evaluated ep.point ep result
  fails : ∀ ep ∈ evaluated, (ep.error.isSome = true ↔ r.Fails ep.point)

theorem evaluates_of_mapM {points : List (DesignPoint V H)}
    {evaluated : List (EvaluatedPoint V H)} (h : points.mapM r.evaluatePoint = .ok evaluated) :
    r.Evaluates points evaluated := by
  have hall := mapM_eq_ok.mp h
  clear h
  induction hall with
  | nil =>
    exact ⟨rfl, fun ep hep => absurd hep List.not_mem_nil,
      fun ep hep => absurd hep List.not_mem_nil⟩
  | @cons point ep points evaluated hep _ ih =>
    obtain ⟨⟨result, hresult⟩, hfails⟩ := evaluatePoint_eq_ok hep
    have hpoint := hresult.point_eq
    subst hpoint
    refine ⟨by rw [List.map_cons, ih.points], ?_, ?_⟩
    · exact List.forall_mem_cons.mpr ⟨⟨result, hresult⟩, ih.result⟩
    · exact List.forall_mem_cons.mpr ⟨hfails, ih.fails⟩

/-- A point fails exactly if one of the evaluated ones has an error. -/
theorem Evaluates.any_error {points : List (DesignPoint V H)}
    {evaluated : List (EvaluatedPoint V H)} (h : r.Evaluates points evaluated) :
    (evaluated.any fun ep => ep.error.isSome) = true ↔ ∃ point ∈ points, r.Fails point := by
  rw [List.any_eq_true, ← h.points]
  constructor
  · rintro ⟨ep, hep, herror⟩
    exact ⟨ep.point, List.mem_map_of_mem hep, (h.fails ep hep).mp herror⟩
  · rintro ⟨point, hpoint, hfails⟩
    obtain ⟨ep, hep, rfl⟩ := List.mem_map.mp hpoint
    exact ⟨ep, hep, (h.fails ep hep).mpr hfails⟩

theorem Evaluates.isPartial_iff {points : List (DesignPoint V H)}
    {evaluated : List (EvaluatedPoint V H)} (h : r.Evaluates points evaluated) :
    r.isPartial evaluated = true ↔
      (∃ point ∈ points, r.Fails point) ∧ r.allowPartial = true := by
  rw [isPartial, Bool.and_eq_true, h.any_error]

/-- What a run that returns has evaluated. -/
theorem run_eq_ok [BEq V] {generation : GenerationResult V H} {output : Output V H}
    (h : r.run generation = .ok output) :
    ∃ evaluated, r.Evaluates generation.points evaluated ∧
      output = r.assemble generation evaluated ∧
      (r.trustMode = "decision_grade" → violatingIds evaluated = []) := by
  obtain ⟨evaluated, hevaluated, h⟩ := bind_eq_ok.mp h
  dsimp only at h
  split_ifs at h with hgate
  cases h
  refine ⟨evaluated, evaluates_of_mapM hevaluated, rfl, fun hmode => ?_⟩
  by_contra hne
  exact hgate ⟨hmode, hne⟩

end Run

end ScenarioDseRunner

end Dse

end NpuArc
