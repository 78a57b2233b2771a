import NpuArc.Library.EqSet
import NpuArc.Dse.Models
import Mathlib.Data.String.Basic

/-!
# Coverage manifest for scenario-driven design-space enumeration

The manifest tracks which generated points entered evaluation and how they were classified,
once by design-point id and once by the values of every axis. Each `record` operation
updates both. `validate` lists the violations of the count invariants and of the coverage
of the requested values. The per-axis fields of pruned, failed and filtered values are
written and never read back by the checks.
-/

namespace NpuArc

namespace Dse

/-- Structured record explaining why a requested value was not generated. -/
structure ExclusionRecord (V : Type*) where
  axis : String
  value : V
  reason : String
  constraintName : String := ""

/-- Per-axis coverage bookkeeping. -/
structure AxisCoverage (V : Type*) [BEq V] where
  axis : String
  requested : EqSet V := .empty
  generated : EqSet V := .empty
  evaluated : EqSet V := .empty
  successful : EqSet V := .empty
  pruned : EqSet V := .empty
  failed : EqSet V := .empty
  filtered : EqSet V := .empty
  exclusions : List (ExclusionRecord V) := []

namespace AxisCoverage

variable {V : Type*} [BEq V] [EquivBEq V]

/-- Values with at least one structured exclusion carrying a reason. -/
def excludedValues (cov : AxisCoverage V) : EqSet V :=
  .ofList ((cov.exclusions.filter fun e => e.reason != "").map (·.value))

/-- Requested values that are neither generated nor excluded, in increasing order. -/
def missing [LE V] [DecidableLE V] (cov : AxisCoverage V) : List V :=
  ((cov.requested.sdiff cov.generated).sdiff cov.excludedValues).toList.mergeSort
    fun a b => decide (a ≤ b)

/-- Nothing is missing exactly when every requested value is generated or excluded. -/
theorem missing_eq_nil [LE V] [DecidableLE V] {cov : AxisCoverage V} : cov.missing = [] ↔
    ∀ v ∈ cov.requested, v ∈ cov.generated ∨ v ∈ cov.excludedValues := by
  rw [missing, ← List.length_eq_zero_iff, List.length_mergeSort, List.length_eq_zero_iff,
    EqSet.toList_eq_nil]
  simp only [EqSet.mem_sdiff]
  grind

end AxisCoverage

/-- A violation that `validate` reports. -/
inductive Violation (V : Type*)
  | generatedCount (generated evaluated pruned : ℕ)
  | evaluatedCount (evaluated successful filtered failed : ℕ)
  | duplicateIds (ids : List String)
  | missingValues (axis : String) (values : List V)

/-- Whether a violation is about the counts. -/
def Violation.isCount {V : Type*} : Violation V → Bool
  | .generatedCount .. | .evaluatedCount .. => true
  | .duplicateIds _ | .missingValues .. => false

/-- The text of a violation, with the printed forms of a list of ids and of values. -/
def Violation.message {V : Type*} (printIds : List String → String)
    (printValues : List V → String) : Violation V → String
  | .generatedCount generated evaluated pruned =>
    s!"invariant violated: generated({generated}) != evaluated({evaluated}) + pruned({pruned})"
  | .evaluatedCount evaluated successful filtered failed =>
    s!"invariant violated: evaluated({evaluated}) != " ++
      s!"successful({successful}) + filtered({filtered}) + failed({failed})"
  | .duplicateIds ids => "duplicate design_point_ids detected: " ++ printIds ids
  | .missingValues axis values =>
    "axis " ++ reprStr axis ++ " has missing values without exclusion reason: " ++
      printValues values

/-- Coverage manifest across all design-space axes. -/
structure CoverageManifest (V H : Type*) [BEq V] where
  axes : Dict String (AxisSpec V)
  points : List (DesignPoint V H)
  exclusions : List (ExclusionRecord V) := []
  coverage : Dict String (AxisCoverage V) := .empty
  evaluatedIds : EqSet String := .empty
  prunedIds : EqSet String := .empty
  successfulIds : EqSet String := .empty
  filteredIds : EqSet String := .empty
  failedIds : EqSet String := .empty

namespace CoverageManifest

variable {V H : Type*} [BEq V] [EquivBEq V]

/-- Update the coverage of every axis of a point with the value of the point there. -/
def eachAxis (f : AxisCoverage V → V → AxisCoverage V) (point : DesignPoint V H)
    (m : CoverageManifest V H) : CoverageManifest V H :=
  { m with
    coverage := point.axisValues.entries.foldl
      (fun cov e => cov.modify e.1 (f · e.2)) m.coverage }

/-- A manifest that knows the requested values only. -/
def requestedOnly (axes : Dict String (AxisSpec V)) (points : List (DesignPoint V H))
    (exclusions : List (ExclusionRecord V)) : CoverageManifest V H :=
  { axes, points, exclusions
    coverage := axes.mapValues fun name spec =>
      { axis := name, requested := .ofList spec.values } }

/-- Mark the axis values of a point as generated. -/
def addGenerated (m : CoverageManifest V H) (point : DesignPoint V H) : CoverageManifest V H :=
  m.eachAxis (fun cov v => { cov with generated := cov.generated.insert v }) point

/-- File an exclusion under its axis. -/
def addExclusion (m : CoverageManifest V H) (exclusion : ExclusionRecord V) :
    CoverageManifest V H :=
  { m with
    coverage := m.coverage.modify exclusion.axis fun cov =>
      { cov with exclusions := cov.exclusions ++ [exclusion] } }

/-- Per-axis coverage from the requested, generated and excluded values. -/
def build (axes : Dict String (AxisSpec V)) (points : List (DesignPoint V H))
    (exclusions : List (ExclusionRecord V)) : CoverageManifest V H :=
  exclusions.foldl addExclusion (points.foldl addGenerated (requestedOnly axes points exclusions))

/-- The number of points whose id is in a set. -/
def countIn (m : CoverageManifest V H) (ids : EqSet String) : ℕ :=
  m.points.countP fun p => decide (p.designPointId ∈ ids)

def generatedCount (m : CoverageManifest V H) : ℕ := m.points.length

def evaluatedCount (m : CoverageManifest V H) : ℕ := m.countIn m.evaluatedIds

def prunedCount (m : CoverageManifest V H) : ℕ := m.countIn m.prunedIds

def successfulCount (m : CoverageManifest V H) : ℕ := m.countIn m.successfulIds

def filteredCount (m : CoverageManifest V H) : ℕ := m.countIn m.filteredIds

def failedCount (m : CoverageManifest V H) : ℕ := m.countIn m.failedIds

/-- The design-point ids that appear more than once, in increasing order. -/
def duplicateIds (m : CoverageManifest V H) : List String :=
  let ids := m.points.map (·.designPointId)
  (EqSet.ofList (ids.filter fun id => decide (1 < ids.count id))).toList.mergeSort
    fun a b => decide (a ≤ b)

/-- Mark a generated point as having entered evaluation. -/
def recordEvaluated (m : CoverageManifest V H) (point : DesignPoint V H) :
    CoverageManifest V H :=
  { m with evaluatedIds := m.evaluatedIds.insert point.designPointId }.eachAxis
    (fun cov v => { cov with evaluated := cov.evaluated.insert v }) point

/-- Mark a generated point as successful. -/
def recordSuccess (m : CoverageManifest V H) (point : DesignPoint V H) :
    CoverageManifest V H :=
  let m := m.recordEvaluated point
  { m with successfulIds := m.successfulIds.insert point.designPointId }.eachAxis
    (fun cov v => { cov with successful := cov.successful.insert v }) point

/-- Remove a point from the successful and evaluated sets when it is reclassified. -/
def clearSuccessState (m : CoverageManifest V H) (point : DesignPoint V H) :
    CoverageManifest V H :=
  { m with
    evaluatedIds := m.evaluatedIds.erase point.designPointId
    successfulIds := m.successfulIds.erase point.designPointId }.eachAxis
    (fun cov v => { cov with
      evaluated := cov.evaluated.erase v
      successful := cov.successful.erase v }) point

/-- Record an exclusion reason for every axis value of a pruned point. -/
def addPointExclusion (m : CoverageManifest V H) (point : DesignPoint V H) (reason : String) :
    CoverageManifest V H :=
  { m with
    coverage := point.axisValues.entries.foldl
      (fun cov e => cov.modify e.1 fun c => { c with
        exclusions := c.exclusions ++ [{ axis := e.1, value := e.2, reason := reason }] })
      m.coverage }

/-- Mark a generated point as pruned before evaluation. -/
def recordPruned (m : CoverageManifest V H) (point : DesignPoint V H) (reason : String) :
    CoverageManifest V H :=
  let m := m.clearSuccessState point
  let m := { m with prunedIds := m.prunedIds.insert point.designPointId }.eachAxis
    (fun cov v => { cov with pruned := cov.pruned.insert v }) point
  m.addPointExclusion point reason

/-- Mark an evaluated point as failed; the reason is not stored. -/
def recordFailed (m : CoverageManifest V H) (point : DesignPoint V H) (_reason : String) :
    CoverageManifest V H :=
  let m := { m with successfulIds := m.successfulIds.erase point.designPointId }
  let m := m.recordEvaluated point
  { m with failedIds := m.failedIds.insert point.designPointId }.eachAxis
    (fun cov v => { cov with failed := cov.failed.insert v }) point

/-- Mark an evaluated point as filtered after evaluation; the reason is not stored. -/
def recordFiltered (m : CoverageManifest V H) (point : DesignPoint V H) (_reason : String) :
    CoverageManifest V H :=
  let m := { m with successfulIds := m.successfulIds.erase point.designPointId }
  let m := m.recordEvaluated point
  { m with filteredIds := m.filteredIds.insert point.designPointId }.eachAxis
    (fun cov v => { cov with filtered := cov.filtered.insert v }) point

/-- The violations of the count invariants. -/
def countViolations (m : CoverageManifest V H) : List (Violation V) :=
  (if m.generatedCount = m.evaluatedCount + m.prunedCount then []
    else [.generatedCount m.generatedCount m.evaluatedCount m.prunedCount]) ++
  (if m.evaluatedCount = m.successfulCount + m.filteredCount + m.failedCount then []
    else [.evaluatedCount m.evaluatedCount m.successfulCount m.filteredCount m.failedCount])

/-- The violations of the invariants and of the coverage of the requested values. -/
def validate [LE V] [DecidableLE V] (m : CoverageManifest V H) : List (Violation V) :=
  m.countViolations ++
  (if m.duplicateIds = [] then [] else [.duplicateIds m.duplicateIds]) ++
  m.coverage.entries.filterMap fun e =>
    if e.2.missing = [] then none else some (.missingValues e.1 e.2.missing)

end CoverageManifest

end Dse

end NpuArc
