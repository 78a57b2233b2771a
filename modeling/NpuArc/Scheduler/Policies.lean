import Mathlib.Data.Prod.Lex
import Mathlib.Data.String.Basic
import NpuArc.Contracts.Errors
import NpuArc.Library.Dict
import Mathlib.Algebra.Order.Ring.Rat
import Mathlib.Data.List.Defs

/-!
# Scheduling policies

Service-class priority with earliest deadline first inside a class. The canonical
key orders jobs by higher priority, earlier absolute deadline, earlier release,
and finally by job id.
-/

namespace NpuArc

/-- Canonical ordering keys; a smaller key is scheduled earlier. -/
abbrev PolicyKey := ℤ ×ₗ (ℤ ×ₗ (ℤ ×ₗ String))

/-- The canonical ordering key of a job. -/
def policyKey (priorityClassLevel absoluteDeadlinePs releasePs : ℤ) (jobId : String) : PolicyKey :=
  toLex (-priorityClassLevel, toLex (absoluteDeadlinePs, toLex (releasePs, jobId)))

/-- Jobs with different ids have different keys. -/
theorem policyKey_injective {p d r p' d' r' : ℤ} {j j' : String}
    (h : policyKey p d r j = policyKey p' d' r' j') : j = j' := by
  simp only [policyKey, EmbeddingLike.apply_eq_iff_eq, Prod.mk.injEq] at h
  exact h.2.2.2

/-- Inside one priority class, jobs with a common relative deadline are ordered by
their release time and then by their id. -/
theorem policyKey_lt_of_release {p d r r' : ℤ} {j j' : String}
    (h : r < r' ∨ (r = r' ∧ j < j')) : policyKey p (r + d) r j < policyKey p (r' + d) r' j' := by
  simp only [policyKey, Prod.Lex.toLex_lt_toLex, lt_irrefl, true_and, false_or]
  rcases h with h | ⟨rfl, h⟩
  · left
    omega
  · right
    exact ⟨rfl, Or.inr ⟨rfl, h⟩⟩

/-! ### Admission control

Four independent checks before a job is admitted: resident memory, jobs in
flight, requested bandwidth fraction, and blocking by lower-priority holders of
an exclusive resource. Fractions are exact rationals. -/

/-- Result of an admission check. -/
structure AdmissionResult where
  admitted : Bool
  reason : String
  /-- The outcome of each named check, in the order of the code. -/
  checks : List (String × Bool)

/-- The recorded demand of a job in flight. -/
structure Reservation where
  memoryBytes : ℤ
  bandwidthFraction : ℚ
  priority : ℤ
  exclusiveResources : List String

/-- Stateful admission controller. -/
structure AdmissionController where
  memoryAvailableBytes : ℤ
  maxInflightJobs : ℕ
  maxBandwidthFraction : ℚ
  memoryUsedBytes : ℤ := 0
  inflight : Dict String Reservation := .empty
  bandwidthFractionUsed : ℚ := 0

namespace AdmissionController

/-- A controller without jobs in flight; the limits are checked. -/
def new (memoryAvailableBytes maxInflightJobs : ℤ) (maxBandwidthFraction : ℚ) :
    Except Error AdmissionController :=
  if memoryAvailableBytes < 0 then
    .error (.valueError ("memory_available_bytes must be non-negative, got " ++
      toString memoryAvailableBytes))
  else if maxInflightJobs ≤ 0 then
    .error (.valueError ("max_inflight_jobs must be positive, got " ++ toString maxInflightJobs))
  else if ¬(0 < maxBandwidthFraction ∧ maxBandwidthFraction ≤ 1) then
    .error (.valueError "max_bandwidth_fraction must be in (0, 1]")
  else .ok
    { memoryAvailableBytes := memoryAvailableBytes
      maxInflightJobs := maxInflightJobs.toNat
      maxBandwidthFraction := maxBandwidthFraction }

def memoryFreeBytes (a : AdmissionController) : ℤ := a.memoryAvailableBytes - a.memoryUsedBytes

def inflightCount (a : AdmissionController) : ℕ := a.inflight.size

/-- The admission result for a demand, without modifying the controller. -/
def check (a : AdmissionController) (jobId : String) (memoryBytes : ℤ) (bandwidthFraction : ℚ)
    (priority : ℤ) (exclusiveResources : List String)
    (lowerPriorityHolders : Dict String ℤ) : AdmissionResult :=
  let memoryOk := decide (memoryBytes ≤ a.memoryFreeBytes)
  let inflightOk := decide (a.inflightCount < a.maxInflightJobs)
  let bwOk := decide
    (a.bandwidthFractionUsed + bandwidthFraction ≤ a.maxBandwidthFraction + 1 / 10 ^ 12)
  -- a resource without a recorded holder counts as held at infinite priority
  let blocking := exclusiveResources.any fun res =>
    (lowerPriorityHolders.get? res).any fun held => decide (held < priority)
  let checks := [("memory", memoryOk), ("inflight", inflightOk), ("bandwidth", bwOk),
    ("lower_priority_blocking", !blocking)]
  let admitted := checks.all Prod.snd
  let failed := (checks.filter fun e => !e.2).map Prod.fst
  { admitted := admitted
    reason := if admitted then "" else
      "admission rejected for " ++ jobId ++ ": " ++ ", ".intercalate failed
    checks := checks }

/-- Admit a job if all checks pass and record the reservation. -/
def admitJob (a : AdmissionController) (jobId : String) (memoryBytes : ℤ) (bandwidthFraction : ℚ)
    (priority : ℤ) (exclusiveResources : List String)
    (lowerPriorityHolders : Dict String ℤ) : AdmissionResult × AdmissionController :=
  let result := a.check jobId memoryBytes bandwidthFraction priority exclusiveResources
    lowerPriorityHolders
  if !result.admitted then (result, a)
  else
    ({ admitted := true, reason := "", checks := result.checks },
      { a with
        memoryUsedBytes := a.memoryUsedBytes + memoryBytes
        bandwidthFractionUsed := a.bandwidthFractionUsed + bandwidthFraction
        inflight := a.inflight.insert jobId
          { memoryBytes, bandwidthFraction, priority, exclusiveResources } })

/-- Release the reservation of a job. Returns whether there was one. -/
def release (a : AdmissionController) (jobId : String) : Bool × AdmissionController :=
  match a.inflight.get? jobId with
  | none => (false, a)
  | some info =>
    (true,
      { a with
        inflight := a.inflight.erase jobId
        memoryUsedBytes := a.memoryUsedBytes - info.memoryBytes
        bandwidthFractionUsed := a.bandwidthFractionUsed - info.bandwidthFraction })

end AdmissionController

end NpuArc
