import NpuArc.Contracts.Errors
import NpuArc.Contracts.Result
import NpuArc.Library.Dict
import NpuArc.Library.Maxima
import NpuArc.Library.Lists
import NpuArc.Library.PySlice
import NpuArc.Library.PyText

/-!
# Projection of results to the legacy shapes

A result set is projected back to the legacy shapes for language and for vision models. Both
show the design points that are on the frontier of throughput and area, and the fastest ones.
The frontier is computed over all results with metrics and kept as a set of identifiers, while
the points that are shown come from the complete and partial results.
-/

namespace NpuArc

namespace LegacyResult

/-- Calibration parameters in effect for a result. -/
structure CalibrationRef where
  processNodeNm : PyFloat := .ofRat 12
  nodeScale : PyFloat := .ofRat (270 / 100)
  dramEfficiency : PyFloat := .ofRat (85 / 100)
  peAreaRatioBlockSystolic : PyFloat := .ofRat 2
  trustLevel : RunTrustLevel := .exploratory

/-- A design-point result with the further fields that the projections read. -/
structure LabeledResult extends DesignPointResult where
  hardwareDigest : String := ""
  configLabel : String := ""
  calibration : CalibrationRef := {}

/-- Structured error for a failed or filtered design point. -/
structure ErrorRecord (V : Type) where
  code : String
  message : String := ""
  details : Dict String V := Dict.empty

/-- Aggregate counts for a run. -/
structure ResultSummary where
  generated : ℤ := 0
  evaluated : ℤ := 0
  pruned : ℤ := 0
  failed : ℤ := 0
  filtered : ℤ := 0
  complete : ℤ := 0
  inPart : ℤ := 0

/-- The container of the results of a run. -/
structure DesignSpaceResultV2 (V : Type) where
  trustLevel : RunTrustLevel := .exploratory
  summary : ResultSummary := {}
  results : List LabeledResult := []
  errors : List (ErrorRecord V) := []
  inputDigest : String := ""
  workloadDigest : String := ""
  calibrationDigest : String := ""

/-- Structured report of data that a projection drops. -/
structure LegacyLossReport where
  droppedFields : List String := []
  warnings : List String := []

/-- Throughput of a result. -/
def LabeledResult.tokPerS (r : LabeledResult) : PyFloat := (r.metrics.map (·.tokPerS)).getD .nan

/-- What the functions use of Python: the text of a detail, rounding to two digits, and sorting
by descending throughput, which is stable as long as every throughput is a number. -/
structure Python (V : Type) where
  ofStr : String → V
  round2 : PyFloat → PyFloat
  sortByTok : List LabeledResult → List LabeledResult
  perm_sortByTok : ∀ l, (sortByTok l).Perm l
  sortByTok_of_numbers : ∀ l, (∀ r ∈ l, r.tokPerS ≠ .nan) →
    sortByTok l = l.mergeSort fun a b => b.tokPerS.le a.tokPerS

/-- At least as fast and as small, and faster or smaller. -/
def beats (other m : EngineMetrics) : Bool :=
  m.tokPerS.le other.tokPerS && other.areaMm2.le m.areaMm2 &&
    (m.tokPerS.lt other.tokPerS || other.areaMm2.lt m.areaMm2)

/-- Find Pareto-optimal design-point identifiers (most throughput, least area). -/
def paretoIdsFromResults (results : List LabeledResult) : Finset String :=
  ((results.zipIdx.filter fun r => r.1.metrics.any fun m =>
    !results.zipIdx.any fun other =>
      decide (r.2 ≠ other.2) && other.1.metrics.any fun o => beats o m).map
        (·.1.designPointId)).toFinset

/-- Extract calibration parameters shared by the result set. -/
def calibrationFromResults (results : List LabeledResult) : CalibrationRef :=
  match results with
  | r :: _ => r.calibration
  | [] => {}

/-- A point of the legacy shape for language models. -/
structure LegacyPoint where
  label : String
  tokS : PyFloat
  areaMm2 : PyFloat
  powerW : PyFloat
  ttftMs : PyFloat

/-- A point of the legacy shape for vision models. -/
structure CvLegacyPoint extends LegacyPoint where
  sramSpillMb : PyFloat
  depthwiseUtilPct : PyFloat
  engineType : String
  pareto : Bool

/-- An error of the legacy shapes. -/
structure ErrorDetail (V : Type) where
  engineType : V
  dims : V
  memoryMode : V
  error : String

/-- A result that succeeded, at least in part, with its metrics. -/
def usable (r : LabeledResult) : Bool :=
  (r.status.value == "complete" || r.status.value == "partial") && r.metrics.isSome

/-- The engine types of the legacy prefixes. -/
def engineMap : List (String × String) :=
  [("syst", "systolic"), ("os_s", "os_systolic"), ("bloc", "block"), ("tens", "tensor_core"),
    ("wmma", "wmma"), ("gmma", "gmma"), ("inpu", "input_stationary"), ("fsa ", "fsa")]

/-- The legacy shape for language models. -/
structure LegacyLlm (V : Type) where
  cvModel : String := ""
  modelSpec : String
  batchM : ℤ
  totalConfigs : ℤ
  validResults : ℕ
  generated : ℤ
  evaluated : ℤ
  filteredByArea : ℤ
  errors : ℤ
  errorDetails : List (ErrorDetail V)
  paretoFrontier : List LegacyPoint
  topResults : List LegacyPoint
  calibration : CalibrationRef

/-- The legacy shape for vision models. -/
structure LegacyCv (V : Type) where
  cvModel : String
  validResults : ℕ
  generated : ℤ
  evaluated : ℤ
  filteredByArea : ℤ
  errors : ℤ
  errorDetails : List (ErrorDetail V)
  points : List CvLegacyPoint
  calibration : CalibrationRef

section Model

variable {V : Type} (py : Python V)

/-- The metrics of a result as a legacy point. -/
def legacyPointOf (r : LabeledResult) (m : EngineMetrics) : LegacyPoint where
  label := r.configLabel
  tokS := m.tokPerS
  areaMm2 := m.areaMm2
  powerW := m.powerW
  ttftMs := py.round2 m.ttftMs

/-- Convert results to legacy points for language models. -/
def legacyPoints (l : List LabeledResult) : List LegacyPoint :=
  l.filterMap fun r => r.metrics.map (legacyPointOf py r)

/-- Convert a result to a legacy point for vision models. -/
def cvLegacyPoint (r : LabeledResult) (m : EngineMetrics) (onPareto : Bool) :
    Except Error CvLegacyPoint :=
  match (words r.configLabel.toList).head? with
  | none => .error (.indexError "list index out of range")
  | some word => .ok {
      label := r.configLabel
      tokS := m.tokPerS
      areaMm2 := m.areaMm2
      powerW := m.powerW
      ttftMs := .ofRat 0
      sramSpillMb := m.sramSpillMb.getD (.ofRat 0)
      depthwiseUtilPct := m.depthwiseUtilPct.getD (.ofRat 0)
      engineType := (engineMap.lookup (String.ofList word)).getD r.engineType
      pareto := onPareto }

/-- Convert marked results to legacy points for vision models. -/
def cvLegacyPoints (listed : List (LabeledResult × Bool)) : Except Error (List CvLegacyPoint) :=
  (listed.filterMap fun r => r.1.metrics.map fun m => (r, m)).mapM fun r =>
    cvLegacyPoint r.1.1 r.2 r.1.2

/-- The errors in the legacy shape. -/
def errorDetails (errors : List (ErrorRecord V)) : List (ErrorDetail V) :=
  errors.map fun err =>
    { engineType := (err.details.get? "engine_type").getD (py.ofStr "unknown")
      dims := (err.details.get? "dims").getD (py.ofStr "?")
      memoryMode := (err.details.get? "memory_mode").getD (py.ofStr "unknown")
      error := if err.message = "" then err.code else err.message }

/-- A name, where there is something to drop. -/
def lost (name : String) (dropped : Prop) [Decidable dropped] : List String :=
  if dropped then [name] else []

/-- Complete and partial results by descending throughput. -/
def completeResults (results : List LabeledResult) : List LabeledResult :=
  py.sortByTok (results.filter usable)

/-- Project a result set to the legacy shape for language models. -/
def projectV2ToLegacyLlm (v2 : DesignSpaceResultV2 V) (modelSpec : String := "qwen2.5-3b")
    (batchM : ℤ := 1) (totalConfigs : ℤ := 0) (topN : ℤ := 20) :
    LegacyLlm V × LegacyLossReport :=
  let complete := completeResults py v2.results
  let paretoIds := paretoIdsFromResults v2.results
  let pareto := complete.filter fun r => decide (r.designPointId ∈ paretoIds)
  let top := sliceList complete 0 topN
  ({ modelSpec := modelSpec
     batchM := batchM
     totalConfigs := totalConfigs
     validResults := complete.length
     generated := v2.summary.generated
     evaluated := v2.summary.evaluated
     filteredByArea := v2.summary.filtered
     errors := v2.summary.failed
     errorDetails := errorDetails py v2.errors
     paretoFrontier := legacyPoints py pareto
     topResults := legacyPoints py top
     calibration := calibrationFromResults v2.results },
    { droppedFields := lost "input_digest" (v2.inputDigest ≠ "") ++
        lost "workload_digest" (v2.workloadDigest ≠ "") ++
        lost "calibration_digest" (v2.calibrationDigest ≠ "") ++
        lost "trust_level" (v2.trustLevel.value ≠ "exploratory") ++
        lost "hardware_digest" (∃ r ∈ v2.results, r.hardwareDigest ≠ "") ++
        lost "design_point_id" (∃ r ∈ v2.results, r.designPointId ≠ "") ++
        lost "summary.pruned" (v2.summary.pruned ≠ 0) ++
        lost "summary.complete" (v2.summary.complete ≠ 0) ++
        lost "summary.partial" (v2.summary.inPart ≠ 0) })

/-- Whether two listed results are of one design point. -/
def sameId (p q : LabeledResult × Bool) : Bool :=
  decide (p.1.designPointId = q.1.designPointId)

/-- The results that become points, with their mark: all that are on the frontier, and of the
fastest ones those whose design point is not seen yet. -/
def cvListed (v2 : DesignSpaceResultV2 V) (topN : ℤ) : List (LabeledResult × Bool) :=
  let complete := completeResults py v2.results
  let paretoIds := paretoIdsFromResults v2.results
  let points := (complete.filter fun r => decide (r.designPointId ∈ paretoIds)).map (·, true)
  -- The identifiers that are seen are those of the points so far.
  ((sliceList complete 0 topN).map (·, false)).foldl (Firsts.addNew sameId) points

/-- Project a result set to the legacy shape for vision models. -/
def projectV2ToLegacyCv (v2 : DesignSpaceResultV2 V) (cvModel : String := "") (topN : ℤ := 20) :
    Except Error (LegacyCv V × LegacyLossReport) := do
  let points ← cvLegacyPoints (cvListed py v2 topN)
  return ({ cvModel := cvModel
            validResults := (completeResults py v2.results).length
            generated := v2.summary.generated
            evaluated := v2.summary.evaluated
            filteredByArea := v2.summary.filtered
            errors := v2.summary.failed
            errorDetails := errorDetails py v2.errors
            points := points
            calibration := calibrationFromResults v2.results },
    { droppedFields := lost "input_digest" (v2.inputDigest ≠ "") ++ ["schema_version"] })

end Model

/-! ### The frontier -/

/-- Whether a result is measured to beat another one. -/
def surpasses (other r : LabeledResult) : Bool :=
  r.metrics.any fun m => other.metrics.any fun o => beats o m

theorem surpasses_of_metrics {r : LabeledResult} {m : EngineMetrics} (h : r.metrics = some m)
    (other : LabeledResult) : surpasses other r = other.metrics.any fun o => beats o m := by
  unfold surpasses
  rw [h, Option.any_some]

/-- The results of a list that no result of the list surpasses. -/
def frontier (l : List LabeledResult) : List LabeledResult :=
  l.filter fun r => !l.any fun other => surpasses other r

/-- Whether no result of a list surpasses one of its results. -/
abbrev Unsurpassed : List LabeledResult → LabeledResult → Prop :=
  Dominance.Undominated fun other r => surpasses other r = true

theorem mem_frontier {l : List LabeledResult} {r : LabeledResult} :
    r ∈ frontier l ↔ Unsurpassed l r := by
  simp [frontier, Dominance.Undominated]

theorem beats_self (m : EngineMetrics) : beats m m = false := by
  have hlt : ∀ x : PyFloat, x.lt x = false := by
    intro x
    cases x <;> simp [PyFloat.lt]
  simp [beats, hlt]

theorem metrics_isSome_of_usable {r : LabeledResult} (h : usable r = true) :
    r.metrics.isSome = true :=
  (Bool.and_eq_true_iff.mp h).2

/-- The Pareto-optimal identifiers are those of the results that are unsurpassed among all results
with metrics. -/
theorem mem_paretoIdsFromResults {results : List LabeledResult} {id : String} :
    id ∈ paretoIdsFromResults results ↔
      ∃ s, Unsurpassed (results.filter (·.metrics.isSome)) s ∧ s.designPointId = id := by
  have hkept : ∀ (r : LabeledResult) (i : ℕ), (r, i) ∈ results.zipIdx →
      ((r.metrics.any fun m => !results.zipIdx.any fun other =>
        decide (i ≠ other.2) && other.1.metrics.any fun o => beats o m) = true ↔
          Unsurpassed (results.filter (·.metrics.isSome)) r) := by
    intro r i hr
    have hmem : r ∈ results := by
      rw [List.mem_zipIdx_iff_getElem?] at hr
      exact List.mem_of_getElem? hr
    cases hm : r.metrics with
    | none => simp [Dominance.Undominated, hm]
    | some m =>
      rw [Option.any_some, Bool.not_eq_true', List.any_eq_false]
      constructor
      · intro hall
        refine ⟨List.mem_filter.mpr ⟨hmem, by rw [hm]; rfl⟩, fun o ho hbeats => ?_⟩
        obtain ⟨j, hj⟩ := List.getElem?_of_mem (List.mem_filter.mp ho).1
        have hbeaten : (o.metrics.any fun o => beats o m) = true :=
          (surpasses_of_metrics hm o).symm.trans hbeats
        refine hall (o, j) (List.mem_zipIdx_iff_getElem?.mpr hj) ?_
        rw [Bool.and_eq_true_iff, decide_eq_true_iff]
        refine ⟨?_, hbeaten⟩
        -- A result does not beat itself, so the other one stands elsewhere.
        rintro rfl
        obtain rfl : o = r :=
          Option.some.inj (hj.symm.trans (List.mem_zipIdx_iff_getElem?.mp hr))
        rw [hm, Option.any_some, beats_self] at hbeaten
        cases hbeaten
      · rintro ⟨-, hall⟩ ⟨o, j⟩ hj hbeaten
        obtain ⟨-, hbeaten⟩ := Bool.and_eq_true_iff.mp hbeaten
        have ho : o ∈ results := List.mem_of_getElem? (List.mem_zipIdx_iff_getElem?.mp hj)
        have hsome : o.metrics.isSome = true := by
          cases hom : o.metrics with
          | none =>
            rw [hom] at hbeaten
            cases hbeaten
          | some _ => rfl
        exact hall o (List.mem_filter.mpr ⟨ho, hsome⟩) ((surpasses_of_metrics hm o).trans hbeaten)
  rw [paretoIdsFromResults, List.mem_toFinset, List.mem_map]
  constructor
  · rintro ⟨⟨r, i⟩, hr, rfl⟩
    obtain ⟨hr, hany⟩ := List.mem_filter.mp hr
    exact ⟨r, (hkept r i hr).mp hany, rfl⟩
  · rintro ⟨s, hs, rfl⟩
    obtain ⟨i, hi⟩ := List.getElem?_of_mem (List.mem_filter.mp hs.1).1
    have hmem : (s, i) ∈ results.zipIdx := List.mem_zipIdx_iff_getElem?.mpr hi
    exact ⟨(s, i), List.mem_filter.mpr ⟨hmem, (hkept s i hmem).mpr hs⟩, rfl⟩

/-! ### What the projections show -/

section Projection

variable {V : Type} {py : Python V}

theorem completeResults_perm (py : Python V) (results : List LabeledResult) :
    (completeResults py results).Perm (results.filter usable) :=
  py.perm_sortByTok _

theorem cvLegacyPoint_ok {r : LabeledResult} {m : EngineMetrics} {onPareto : Bool} :
    (∃ point, cvLegacyPoint r m onPareto = .ok point) ↔ words r.configLabel.toList ≠ [] := by
  unfold cvLegacyPoint
  cases hwords : words r.configLabel.toList with
  | nil => simp
  | cons word rest => simp

/-- Points are made of results with metrics if every label has a word. -/
theorem cvLegacyPoints_ok {listed : List (LabeledResult × Bool)}
    (hmetrics : ∀ p ∈ listed, p.1.metrics.isSome = true) :
    (∃ points, cvLegacyPoints listed = .ok points) ↔
      ∀ p ∈ listed, words p.1.configLabel.toList ≠ [] := by
  constructor
  · rintro ⟨points, hpoints⟩ p hp
    obtain ⟨m, hm⟩ := Option.isSome_iff_exists.mp (hmetrics p hp)
    have hmem : (p, m) ∈ listed.filterMap fun r => r.1.metrics.map fun m => (r, m) :=
      List.mem_filterMap.mpr ⟨p, hp, by rw [hm]; rfl⟩
    obtain ⟨point, -, hpoint⟩ := exists_mem_of_forall₂ (mapM_eq_ok.mp hpoints) hmem
    exact cvLegacyPoint_ok.mp ⟨point, hpoint⟩
  · intro hlabels
    refine exists_mapM_eq_ok fun r hr => ?_
    obtain ⟨p, hp, hpr⟩ := List.mem_filterMap.mp hr
    obtain ⟨m, -, rfl⟩ := Option.map_eq_some_iff.mp hpr
    exact cvLegacyPoint_ok.mpr (hlabels p hp)

/-- The results that the projection for vision models marks. -/
def markedResults (listed : List (LabeledResult × Bool)) : List LabeledResult :=
  (listed.filter (·.2)).map (·.1)

/-- The frontier points of the projection for vision models, before the fastest are added. -/
def cvFrontier (py : Python V) (v2 : DesignSpaceResultV2 V) : List LabeledResult :=
  (completeResults py v2.results).filter fun r =>
    decide (r.designPointId ∈ paretoIdsFromResults v2.results)

theorem markedResults_cvListed (v2 : DesignSpaceResultV2 V) (topN : ℤ) :
    markedResults (cvListed py v2 topN) = cvFrontier py v2 := by
  have hunmarked : ∀ p ∈ (sliceList (completeResults py v2.results) 0 topN).map (·, false),
      p.2 = false := by
    intro p hp
    obtain ⟨r, -, rfl⟩ := List.mem_map.mp hp
    rfl
  rw [markedResults, cvListed, Firsts.filter_foldl_addNew hunmarked, List.filter_eq_self.mpr,
    List.map_map]
  · exact List.map_id _
  · intro p hp
    obtain ⟨r, -, rfl⟩ := List.mem_map.mp hp
    rfl

/-- Both projections show the frontier of the complete and partial results: the one for language
models these points, and the one for vision models marks these results, lists no design point
twice, and lists the frontier and the fastest results. -/
def KeepsFrontier (py : Python V) (v2 : DesignSpaceResultV2 V) (modelSpec : String)
    (batchM totalConfigs llmTopN : ℤ) (cvModel : String) (topN : ℤ) : Prop :=
  (projectV2ToLegacyLlm py v2 modelSpec batchM totalConfigs llmTopN).1.paretoFrontier.Perm
      (legacyPoints py (frontier (v2.results.filter usable))) ∧
  ∃ legacy loss, projectV2ToLegacyCv py v2 cvModel topN = .ok (legacy, loss) ∧
    cvLegacyPoints (cvListed py v2 topN) = .ok legacy.points ∧
    (markedResults (cvListed py v2 topN)).Perm (frontier (v2.results.filter usable)) ∧
    ((cvListed py v2 topN).map (·.1.designPointId)).Nodup ∧
    ∀ r ∈ frontier (v2.results.filter usable) ++
      sliceList (completeResults py v2.results) 0 topN,
      ∃ p ∈ cvListed py v2 topN, p.1.designPointId = r.designPointId

/-- The failed and filtered results do not disturb the frontier, no design point stands on it
twice, and no blank label is shown. -/
structure FrontierUndisturbed (py : Python V) (results : List LabeledResult) (topN : ℤ) :
    Prop where
  /-- An unsurpassed result that a failed or filtered one surpasses shares its design point with
  one that nothing surpasses. -/
  hidden : ∀ r, Unsurpassed (results.filter usable) r →
    (∃ other ∈ results, usable other = false ∧ surpasses other r = true) →
      ∃ s, Unsurpassed (results.filter (·.metrics.isSome)) s ∧ s.designPointId = r.designPointId
  /-- A surpassed result does not share its design point with one that nothing surpasses. -/
  stale : ∀ r ∈ results.filter usable, ∀ other ∈ results.filter usable,
    surpasses other r = true → ∀ s, Unsurpassed (results.filter (·.metrics.isSome)) s →
      s.designPointId ≠ r.designPointId
  /-- Unsurpassed results are of different design points. -/
  distinct : ((frontier (results.filter usable)).map (·.designPointId)).Nodup
  /-- Unsurpassed results have a label. -/
  labeled : ∀ r, Unsurpassed (results.filter usable) r → words r.configLabel.toList ≠ []
  /-- So does the first of the fastest results of any other design point. -/
  topLabeled : ∀ before r after,
    sliceList (completeResults py results) 0 topN = before ++ r :: after →
    (∀ s, Unsurpassed (results.filter usable) s → s.designPointId ≠ r.designPointId) →
    (∀ b ∈ before, b.designPointId ≠ r.designPointId) → words r.configLabel.toList ≠ []

/-- The identifiers on the frontier over all results are those of the frontier of the complete
and partial results. -/
theorem paretoIds_iff_frontier {results : List LabeledResult} :
    (∀ r ∈ results.filter usable, r.designPointId ∈ paretoIdsFromResults results ↔
      Unsurpassed (results.filter usable) r) ↔
    (∀ r, Unsurpassed (results.filter usable) r →
      (∃ other ∈ results, usable other = false ∧ surpasses other r = true) →
      ∃ s, Unsurpassed (results.filter (·.metrics.isSome)) s ∧
        s.designPointId = r.designPointId) ∧
    ∀ r ∈ results.filter usable, ∀ other ∈ results.filter usable, surpasses other r = true →
      ∀ s, Unsurpassed (results.filter (·.metrics.isSome)) s →
        s.designPointId ≠ r.designPointId := by
  constructor
  · intro h
    refine ⟨fun r hr _ => mem_paretoIdsFromResults.mp ((h r hr.1).mpr hr), ?_⟩
    intro r hr other hother hbeats s hs hid
    exact ((h r hr).mp (mem_paretoIdsFromResults.mpr ⟨s, hs, hid⟩)).2 other hother hbeats
  · rintro ⟨hhidden, hstale⟩ r hr
    constructor
    · intro hid
      obtain ⟨s, hs, hid⟩ := mem_paretoIdsFromResults.mp hid
      exact ⟨hr, fun other hother hbeats => hstale r hr other hother hbeats s hs hid⟩
    · intro hunsurpassed
      rw [mem_paretoIdsFromResults]
      obtain ⟨hmem, husable⟩ := List.mem_filter.mp hr
      by_cases hbad : ∃ other ∈ results, usable other = false ∧ surpasses other r = true
      · exact hhidden r hunsurpassed hbad
      · refine ⟨r, ⟨List.mem_filter.mpr ⟨hmem, metrics_isSome_of_usable husable⟩,
          fun other hother hbeats => ?_⟩, rfl⟩
        cases hother' : usable other with
        | false => exact hbad ⟨other, (List.mem_filter.mp hother).1, hother', hbeats⟩
        | true =>
          exact hunsurpassed.2 other
            (List.mem_filter.mpr ⟨(List.mem_filter.mp hother).1, hother'⟩) hbeats

/-- A result is listed if it is on the frontier, or is the first of the fastest results of a
design point that is not. -/
theorem mem_cvListed {v2 : DesignSpaceResultV2 V} {topN : ℤ} {r : LabeledResult} :
    (∃ mark, (r, mark) ∈ cvListed py v2 topN) ↔ r ∈ cvFrontier py v2 ∨ ∃ before after,
      sliceList (completeResults py v2.results) 0 topN = before ++ r :: after ∧
      ∀ b ∈ cvFrontier py v2 ++ before, b.designPointId ≠ r.designPointId := by
  have htrans : ∀ a b c, sameId a b = true → sameId b c = true → sameId a c = true := by
    simp only [sameId, decide_eq_true_iff]
    exact fun _ _ _ => Eq.trans
  have hdiffer : ∀ mark mark' b, sameId (r, mark) (b, mark') = false ↔
      b.designPointId ≠ r.designPointId := by
    intro mark mark' b
    rw [sameId, decide_eq_false_iff_not]
    exact ne_comm
  have hmem : ∀ mark, (r, mark) ∈ cvListed py v2 topN ↔
      (r, mark) ∈ (cvFrontier py v2).map (·, true) ∨ ∃ before after,
        (sliceList (completeResults py v2.results) 0 topN).map (·, false) =
          before ++ (r, mark) :: after ∧
        ∀ b ∈ (cvFrontier py v2).map (·, true) ++ before, sameId (r, mark) b = false :=
    fun mark => Firsts.mem_foldl_addNew htrans
  constructor
  · rintro ⟨mark, hmark⟩
    rcases (hmem mark).mp hmark with hfrontier | ⟨before, after, hsplit, hnew⟩
    · obtain ⟨r', hr', heq⟩ := List.mem_map.mp hfrontier
      obtain rfl : r' = r := congrArg Prod.fst heq
      exact .inl hr'
    · obtain ⟨before', rest, htop, rfl, hrest⟩ := List.map_eq_append_iff.mp hsplit
      obtain ⟨r', after', rfl, hr', rfl⟩ := List.map_eq_cons_iff.mp hrest
      obtain rfl : r' = r := congrArg Prod.fst hr'
      refine .inr ⟨before', after', htop, fun b hb => ?_⟩
      rcases List.mem_append.mp hb with hb | hb
      · exact (hdiffer mark true b).mp
          (hnew _ (List.mem_append_left _ (List.mem_map_of_mem hb)))
      · exact (hdiffer mark false b).mp
          (hnew _ (List.mem_append_right _ (List.mem_map_of_mem hb)))
  · rintro (hfrontier | ⟨before, after, htop, hnew⟩)
    · exact ⟨true, (hmem true).mpr (.inl (List.mem_map_of_mem hfrontier))⟩
    · refine ⟨false, (hmem false).mpr (.inr ⟨before.map (·, false), after.map (·, false),
        by rw [htop, List.map_append, List.map_cons], fun b hb => ?_⟩)⟩
      rcases List.mem_append.mp hb with hb | hb
      · obtain ⟨b', hb', rfl⟩ := List.mem_map.mp hb
        exact (hdiffer false true b').mpr (hnew b' (List.mem_append_left _ hb'))
      · obtain ⟨b', hb', rfl⟩ := List.mem_map.mp hb
        exact (hdiffer false false b').mpr (hnew b' (List.mem_append_right _ hb'))

/-- Only complete and partial results are listed. -/
theorem metrics_of_mem_cvListed {v2 : DesignSpaceResultV2 V} {topN : ℤ} :
    ∀ p ∈ cvListed py v2 topN, p.1.metrics.isSome = true := by
  have hcomplete : ∀ r ∈ completeResults py v2.results, r.metrics.isSome = true := by
    intro r hr
    have hmem := (completeResults_perm py v2.results).mem_iff.mp hr
    exact metrics_isSome_of_usable (List.mem_filter.mp hmem).2
  rintro ⟨r, mark⟩ hp
  rcases mem_cvListed.mp ⟨mark, hp⟩ with hr | ⟨before, after, htop, -⟩
  · exact hcomplete r (List.mem_filter.mp hr).1
  · refine hcomplete r (mem_of_mem_sliceList (a := 0) (b := topN) ?_)
    rw [htop]
    exact List.mem_append_right before List.mem_cons_self

/-- The listed identifiers are distinct if those on the frontier are. -/
theorem nodup_cvListed {v2 : DesignSpaceResultV2 V} {topN : ℤ} :
    ((cvListed py v2 topN).map (·.1.designPointId)).Nodup ↔
      ((cvFrontier py v2).map (·.designPointId)).Nodup := by
  constructor
  · intro h
    have hsublist : (((cvFrontier py v2).map (·, true)).map (·.1.designPointId)).Sublist
        ((cvListed py v2 topN).map (·.1.designPointId)) :=
      (Firsts.isPrefix_foldl_addNew _ _).sublist.map _
    rw [List.map_map] at hsublist
    exact h.sublist hsublist
  · intro h
    have hkept : ((cvFrontier py v2).map (·, true)).Pairwise
        fun b a => sameId a b = false := by
      rw [List.pairwise_map]
      refine (List.pairwise_map.mp h).imp fun hne => ?_
      rw [sameId, decide_eq_false_iff_not]
      exact hne.symm
    refine List.pairwise_map.mpr ((Firsts.pairwise_foldl_addNew hkept).imp fun hne => ?_)
    rw [sameId, decide_eq_false_iff_not] at hne
    exact Ne.symm hne

/-- Both projections keep the frontier exactly if the failed and filtered results do not disturb
it, no design point stands on it twice, and no blank label is shown. -/
theorem keepsFrontier_iff (py : Python V) (v2 : DesignSpaceResultV2 V) (modelSpec : String)
    (batchM totalConfigs llmTopN : ℤ) (cvModel : String) (topN : ℤ) :
    KeepsFrontier py v2 modelSpec batchM totalConfigs llmTopN cvModel topN ↔
      FrontierUndisturbed py v2.results topN := by
  have hperm : (cvFrontier py v2).Perm ((v2.results.filter usable).filter fun r =>
      decide (r.designPointId ∈ paretoIdsFromResults v2.results)) :=
    (completeResults_perm py v2.results).filter _
  have hsame : (cvFrontier py v2).Perm (frontier (v2.results.filter usable)) ↔
      ∀ r ∈ v2.results.filter usable, r.designPointId ∈ paretoIdsFromResults v2.results ↔
        Unsurpassed (v2.results.filter usable) r := by
    constructor
    · intro h r hr
      have hmem := (hperm.symm.trans h).mem_iff (a := r)
      rw [mem_frontier, List.mem_filter, decide_eq_true_iff, and_iff_right hr] at hmem
      exact hmem
    · intro h
      refine hperm.trans ?_
      rw [frontier, List.filter_congr]
      intro r hr
      rw [Bool.eq_iff_iff, decide_eq_true_iff, h r hr, ← mem_frontier, frontier, List.mem_filter,
        and_iff_right hr]
  rw [KeepsFrontier, markedResults_cvListed, hsame, nodup_cvListed]
  constructor
  · rintro ⟨-, legacy, loss, -, hpoints, hmarked, hnodup, -⟩
    have hlabels := (cvLegacyPoints_ok metrics_of_mem_cvListed).mp ⟨_, hpoints⟩
    have hfrontier := hsame.mpr hmarked
    have hmem : ∀ r, r ∈ cvFrontier py v2 ↔ Unsurpassed (v2.results.filter usable) r :=
      fun r => hfrontier.mem_iff.trans mem_frontier
    have hlisted : ∀ r, (∃ mark, (r, mark) ∈ cvListed py v2 topN) →
        words r.configLabel.toList ≠ [] := by
      rintro r ⟨mark, hr⟩
      exact hlabels _ hr
    obtain ⟨hidden, stale⟩ := paretoIds_iff_frontier.mp hmarked
    refine ⟨hidden, stale, (hfrontier.map _).nodup_iff.mp hnodup, fun r hr => ?_,
      fun before r after htop hnew hfirst => ?_⟩
    · exact hlisted r (mem_cvListed.mpr (.inl ((hmem r).mpr hr)))
    · refine hlisted r (mem_cvListed.mpr (.inr ⟨before, after, htop, fun b hb => ?_⟩))
      rcases List.mem_append.mp hb with hb | hb
      · exact hnew b ((hmem b).mp hb)
      · exact hfirst b hb
  · intro h
    have hmarked := paretoIds_iff_frontier.mpr ⟨h.hidden, h.stale⟩
    have hfrontier := hsame.mpr hmarked
    have hmem : ∀ r, r ∈ cvFrontier py v2 ↔ Unsurpassed (v2.results.filter usable) r :=
      fun r => hfrontier.mem_iff.trans mem_frontier
    have hlabels : ∀ p ∈ cvListed py v2 topN, words p.1.configLabel.toList ≠ [] := by
      rintro ⟨r, mark⟩ hp
      rcases mem_cvListed.mp ⟨mark, hp⟩ with hr | ⟨before, after, htop, hnew⟩
      · exact h.labeled r ((hmem r).mp hr)
      · exact h.topLabeled before r after htop
          (fun s hs => hnew s (List.mem_append_left _ ((hmem s).mpr hs)))
          (fun b hb => hnew b (List.mem_append_right _ hb))
    obtain ⟨points, hpoints⟩ := (cvLegacyPoints_ok metrics_of_mem_cvListed).mpr hlabels
    refine ⟨hfrontier.filterMap _, _, _, by rw [projectV2ToLegacyCv, hpoints]; rfl, hpoints,
      hmarked, (hfrontier.map _).nodup_iff.mpr h.distinct, fun r hr => ?_⟩
    rcases List.mem_append.mp hr with hr | hr
    · obtain ⟨mark, hp⟩ := mem_cvListed.mpr (.inl (hfrontier.mem_iff.mpr hr))
      exact ⟨_, hp, rfl⟩
    · have hrefl : ∀ p, sameId p p = true := fun p => decide_eq_true rfl
      have hmapped : (r, false) ∈ (sliceList (completeResults py v2.results) 0 topN).map
          (·, false) := List.mem_map_of_mem hr
      obtain ⟨p, hp, hid⟩ : ∃ p ∈ cvListed py v2 topN, sameId (r, false) p = true :=
        Firsts.exists_similar_foldl_addNew hrefl hmapped
      exact ⟨p, hp, (of_decide_eq_true hid).symm⟩

end Projection

/-! ### A result without a label -/

/-- Details are texts, and sorting is a merge sort. -/
def textPython : Python String where
  ofStr := id
  round2 := id
  sortByTok l := l.mergeSort fun a b => b.tokPerS.le a.tokPerS
  perm_sortByTok l := List.mergeSort_perm l _
  sortByTok_of_numbers _ _ := rfl

/-- A complete result with the label that results have by default. -/
def unlabeledResult : LabeledResult where
  designPointId := "block"
  status := .complete
  engineType := "block"
  metrics := some { tokPerS := .ofRat 100, areaMm2 := .ofRat 50, powerW := .ofRat 10 }

/-- The projection for vision models fails on the only result. -/
theorem unlabeledResult_not_projected :
    ¬KeepsFrontier textPython { results := [unlabeledResult] } "qwen2.5-3b" 1 0 20 "" 20 := by
  rintro ⟨-, legacy, loss, -, hpoints, -⟩
  have hid : unlabeledResult.designPointId ∈ paretoIdsFromResults [unlabeledResult] := by
    refine mem_paretoIdsFromResults.mpr ⟨unlabeledResult, ⟨List.mem_singleton_self _, ?_⟩, rfl⟩
    intro other hother
    obtain rfl := List.mem_singleton.mp (List.mem_filter.mp hother).1
    decide
  have hcomplete : unlabeledResult ∈ completeResults textPython [unlabeledResult] :=
    (completeResults_perm textPython _).mem_iff.mpr (List.mem_singleton_self _)
  obtain ⟨mark, hlisted⟩ : ∃ mark, (unlabeledResult, mark) ∈
      cvListed textPython { results := [unlabeledResult] } 20 :=
    mem_cvListed.mpr (.inl (List.mem_filter.mpr ⟨hcomplete, decide_eq_true hid⟩))
  have hlabels := (cvLegacyPoints_ok metrics_of_mem_cvListed).mp ⟨_, hpoints⟩
  have hempty : "".toList = [] := rfl
  have hblank : words "".toList = [] := by
    rw [hempty]
    exact words_eq_nil.mpr (List.forall_mem_nil _)
  exact hlabels _ hlisted hblank

end LegacyResult

end NpuArc
