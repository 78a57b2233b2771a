import NpuArc.Contracts.Errors
import NpuArc.Library.Dict
import Mathlib.Algebra.Order.Floor.Ring
import Mathlib.Data.Prod.Lex
import Mathlib.Data.Rat.Floor
import Mathlib.Data.List.Sort
import Mathlib.Data.List.Dedup
import Mathlib.Data.String.Basic

/-!
# Deterministic temporal metrics

The collector keeps one record per job, the busy intervals of each resource, and
queue-size samples. `compute` condenses them into `ScenarioMetrics`. All internal
times are integer picoseconds; derived ratios are exact rationals.
-/

namespace NpuArc

/-! ### Unit conversions -/

def psPerMs : ℤ := 1000000000

def psPerS : ℤ := 1000000000000

def psToMs (ps : ℤ) : ℚ := ps / psPerMs

/-- Rounding to the nearest integer, ties to the even one. -/
def roundHalfEven (x : ℚ) : ℤ :=
  let f := ⌊x⌋
  if x - f < 1 / 2 then f
  else if 1 / 2 < x - f then f + 1
  else if f % 2 = 0 then f else f + 1

/-- Convert milliseconds to integer picoseconds. -/
def msToPs (ms : ℚ) : ℤ := roundHalfEven (ms * psPerMs)

theorem msToPs_nonneg {ms : ℚ} (h : 0 ≤ ms) : 0 ≤ msToPs ms := by
  have hf : 0 ≤ ⌊ms * psPerMs⌋ := Int.floor_nonneg.mpr (mul_nonneg h (by decide))
  unfold msToPs roundHalfEven
  dsimp only
  split_ifs <;> omega

/-! ### Per-job records -/

/-- Terminal outcome of a job in the metrics window. -/
inductive JobOutcome
  | completed
  | dropped
  | replaced
  | rejected
  | timeout
  deriving DecidableEq

/-- The record of one job while a simulation runs. -/
structure JobMetricRecord where
  jobId : String
  classId : String
  arrivalPs : ℤ
  deadlinePs : ℤ
  isWarmup : Bool := false
  isMeasurement : Bool := false
  workPs : ℤ := 0
  resourceRequirements : Dict String ℤ := .empty
  startPs : Option ℤ := none
  completePs : Option ℤ := none
  outcome : JobOutcome := .completed
  observationAgePs : ℤ := 0

/-- Arrival-to-complete latency; `none` if not completed. -/
def JobMetricRecord.latencyPs (r : JobMetricRecord) : Option ℤ :=
  r.completePs.map (· - r.arrivalPs)

/-- Arrival-to-start latency; `none` if never started. -/
def JobMetricRecord.startLatencyPs (r : JobMetricRecord) : Option ℤ :=
  r.startPs.map (· - r.arrivalPs)

/-! ### Aggregated metrics -/

/-- Metrics for a single workload class within the measurement window. -/
structure ClassMetrics where
  classId : String
  releasedCount : ℕ
  completedCount : ℕ
  droppedCount : ℕ
  replacedCount : ℕ
  rejectedCount : ℕ
  timeoutCount : ℕ
  deadlineMissCount : ℕ
  completedThroughputHz : ℚ
  latencyP50Ms : ℚ
  latencyP99Ms : ℚ
  latencyMaxMs : ℚ
  startLatencyP50Ms : ℚ
  startLatencyP99Ms : ℚ
  observationAgeP50Ms : ℚ
  observationAgeP99Ms : ℚ
  offeredLoadRatio : ℚ
  achievedUtilization : ℚ

/-- Utilization of a single resource over the measurement window. -/
structure ResourceUtilization where
  resourceName : String
  busyTimePs : ℤ
  windowTimePs : ℤ
  utilization : ℚ

/-- Final deterministic metrics for a scenario run. -/
structure ScenarioMetrics where
  windowStartPs : ℤ
  windowEndPs : ℤ
  windowTimePs : ℤ
  releasedCount : ℕ
  completedCount : ℕ
  droppedCount : ℕ
  replacedCount : ℕ
  rejectedCount : ℕ
  timeoutCount : ℕ
  deadlineMissCount : ℕ
  completedThroughputHz : ℚ
  latencyP50Ms : ℚ
  latencyP99Ms : ℚ
  latencyMaxMs : ℚ
  startLatencyP50Ms : ℚ
  startLatencyP99Ms : ℚ
  observationAgeP50Ms : ℚ
  observationAgeP99Ms : ℚ
  peakQueue : ℕ
  resourceUtilization : List ResourceUtilization
  classMetrics : List ClassMetrics
  recoveryTimePs : Option ℤ
  stable : Bool

/-! ### Percentiles and interval unions -/

/-- Nearest-rank percentile of an ascending list, `0` for the empty list. -/
def nearestRankPercentile (sortedValues : List ℚ) (percentile : ℚ) : ℚ :=
  let n : ℤ := sortedValues.length
  let rank := max 1 (min ⌈percentile / 100 * n⌉ n)
  sortedValues.getD (rank - 1).toNat 0

/-- The 50th and 99th percentile and the maximum, in milliseconds. -/
def percentileMs (valuesPs : List ℤ) : ℚ × ℚ × ℚ :=
  let sortedMs := (valuesPs.map psToMs).insertionSort (· ≤ ·)
  (nearestRankPercentile sortedMs 50, nearestRankPercentile sortedMs 99, sortedMs.getLastD 0)

/-- Add up a sorted list of intervals, merging an interval that starts inside the
current one. -/
def unionLoop : List (ℤ × ℤ) → ℤ → ℤ → ℤ → ℤ
  | [], total, curStart, curEnd => total + (curEnd - curStart)
  | (start, stop) :: rest, total, curStart, curEnd =>
    if start ≤ curEnd then unionLoop rest total curStart (max curEnd stop)
    else unionLoop rest (total + (curEnd - curStart)) start stop

/-- Total covered length of a list of half-open intervals. -/
def unionIntervalsLength (intervals : List (ℤ × ℤ)) : ℤ :=
  match intervals.insertionSort fun a b => (toLex a : ℤ ×ₗ ℤ) ≤ toLex b with
  | [] => 0
  | (start, stop) :: rest => unionLoop rest 0 start stop

/-! ### Collector -/

/-- Per-job and per-resource observations of a run. -/
structure MetricsCollector where
  jobs : Dict String JobMetricRecord := .empty
  resourceIntervals : Dict String (List (ℤ × ℤ)) := .empty
  classResourceIntervals : Dict String (List (ℤ × ℤ)) := .empty
  queueSizes : Dict String (List (ℤ × ℕ)) := .empty
  recoveryTimePs : Option ℤ := none

namespace MetricsCollector

/-- Record a job arrival. -/
def recordArrival (m : MetricsCollector) (record : JobMetricRecord) :
    Except Error MetricsCollector :=
  if m.jobs.contains record.jobId then
    .error (.configError ("duplicate metric job_id " ++ reprStr record.jobId) "metrics.job_id")
  else .ok { m with jobs := m.jobs.insert record.jobId record }

/-- Change the record of a job. -/
def update (m : MetricsCollector) (jobId : String) (f : JobMetricRecord → JobMetricRecord) :
    MetricsCollector :=
  { m with jobs := m.jobs.modify jobId f }

/-- Record when a job first started executing. -/
def recordStart (m : MetricsCollector) (jobId : String) (startPs : ℤ) : MetricsCollector :=
  m.update jobId fun r =>
    if r.startPs.all (fun t => decide (startPs < t)) then { r with startPs := some startPs } else r

/-- Record a job completion. -/
def recordComplete (m : MetricsCollector) (jobId : String) (completePs : ℤ) : MetricsCollector :=
  m.update jobId fun r => { r with completePs := some completePs, outcome := .completed }

/-- Record a job dropped by a full FIFO. -/
def recordDrop (m : MetricsCollector) (jobId : String) : MetricsCollector :=
  m.update jobId fun r => { r with outcome := .dropped }

/-- Record a job replaced in a mailbox. -/
def recordReplace (m : MetricsCollector) (jobId : String) : MetricsCollector :=
  m.update jobId fun r => { r with outcome := .replaced }

/-- Record a job rejected by admission control. -/
def recordReject (m : MetricsCollector) (jobId : String) : MetricsCollector :=
  m.update jobId fun r => { r with outcome := .rejected }

/-- Record the observation age of a mailbox item. -/
def recordObservationAge (m : MetricsCollector) (jobId : String) (agePs : ℤ) : MetricsCollector :=
  m.update jobId fun r => { r with observationAgePs := agePs }

/-- Append an element to the list stored under a key, creating it if needed. -/
def appendTo {V : Type} (d : Dict String (List V)) (key : String) (v : V) :
    Dict String (List V) :=
  d.insert key ((d.get? key).getD [] ++ [v])

/-- Record a busy interval of a resource, and of a class on that resource. -/
def recordResourceBusy (m : MetricsCollector) (resourceName : String) (startPs endPs : ℤ)
    (classId : Option String) : MetricsCollector :=
  if endPs ≤ startPs then m
  else
    { m with
      resourceIntervals := appendTo m.resourceIntervals resourceName (startPs, endPs)
      classResourceIntervals := match classId with
        | none => m.classResourceIntervals
        | some cid => appendTo m.classResourceIntervals (cid ++ ":" ++ resourceName)
            (startPs, endPs) }

/-- Record a queue size sample. -/
def recordQueueSize (m : MetricsCollector) (queueName : String) (size : ℕ) (nowPs : ℤ) :
    MetricsCollector :=
  { m with queueSizes := appendTo m.queueSizes queueName (nowPs, size) }

/-- Record the earliest time at which the backlog drained after overload. -/
def recordRecoveryTime (m : MetricsCollector) (timePs : ℤ) : MetricsCollector :=
  if m.recoveryTimePs.all (fun t => decide (timePs < t)) then
    { m with recoveryTimePs := some timePs }
  else m

/-! ### Computation -/

/-- The released jobs of the measurement window. Without measurement jobs every job
outside the warmup counts. -/
def measurementJobs (m : MetricsCollector) : List JobMetricRecord :=
  match m.jobs.values.filter (fun j => j.isMeasurement && !j.isWarmup) with
  | [] => m.jobs.values.filter fun j => !j.isWarmup
  | jobs => jobs

/-- The records with a given outcome. -/
def withOutcome (jobs : List JobMetricRecord) (outcome : JobOutcome) : List JobMetricRecord :=
  jobs.filter fun j => decide (j.outcome = outcome)

/-- A completion past the deadline, or an outcome that counts as a miss. -/
def isDeadlineMiss (j : JobMetricRecord) : Bool :=
  match j.outcome with
  | .completed => j.completePs.any fun t => decide (j.deadlinePs < t)
  | .dropped | .replaced | .timeout => true
  | .rejected => false

/-- The parts of a list of intervals inside the window. -/
def clip (windowStartPs windowEndPs : ℤ) (intervals : List (ℤ × ℤ)) : List (ℤ × ℤ) :=
  (intervals.filter fun e => decide (windowStartPs < e.2 ∧ e.1 < windowEndPs)).map
    fun e => (max e.1 windowStartPs, min e.2 windowEndPs)

/-- The largest element of a nonempty list, `0` for the empty list. -/
def maxOf : List ℤ → ℤ
  | [] => 0
  | x :: xs => xs.foldl max x

/-- Completed jobs per second of the window. -/
def throughputHz (completed : ℕ) (windowTimePs : ℤ) : ℚ :=
  if 0 < windowTimePs then completed * psPerS / windowTimePs else 0

/-- The metrics of one class among the released jobs. -/
def computeClass (m : MetricsCollector) (released : List JobMetricRecord)
    (windowStartPs windowEndPs windowTimePs : ℤ) (computeCapacity : ℤ) (cid : String) :
    ClassMetrics :=
  let classJobs := released.filter fun j => decide (j.classId = cid)
  let completed := withOutcome classJobs .completed
  let (latP50, latP99, latMax) := percentileMs (completed.filterMap (·.latencyPs))
  let (startP50, startP99, _) := percentileMs (classJobs.filterMap (·.startLatencyPs))
  let (ageP50, ageP99, _) := percentileMs
    ((classJobs.map (·.observationAgePs)).filter fun a => decide (0 < a))
  { classId := cid
    releasedCount := classJobs.length
    completedCount := completed.length
    droppedCount := (withOutcome classJobs .dropped).length
    replacedCount := (withOutcome classJobs .replaced).length
    rejectedCount := (withOutcome classJobs .rejected).length
    timeoutCount := (withOutcome classJobs .timeout).length
    deadlineMissCount := (classJobs.filter isDeadlineMiss).length
    completedThroughputHz := throughputHz completed.length windowTimePs
    latencyP50Ms := latP50
    latencyP99Ms := latP99
    latencyMaxMs := latMax
    startLatencyP50Ms := startP50
    startLatencyP99Ms := startP99
    observationAgeP50Ms := ageP50
    observationAgeP99Ms := ageP99
    offeredLoadRatio :=
      if 0 < windowTimePs ∧ classJobs ≠ [] then
        ((classJobs.map (·.workPs)).sum *
          maxOf (classJobs.map fun j => (j.resourceRequirements.get? "compute").getD 1) : ℤ) /
          (windowTimePs * computeCapacity : ℤ)
      else 0
    achievedUtilization :=
      if 0 < windowTimePs then
        unionIntervalsLength (clip windowStartPs windowEndPs
          ((m.classResourceIntervals.get? (cid ++ ":compute")).getD [])) /
          (windowTimePs * computeCapacity : ℤ)
      else 0 }

/-- The utilization of one resource. -/
def computeUtilization (m : MetricsCollector) (windowStartPs windowEndPs windowTimePs : ℤ)
    (name : String) : ResourceUtilization :=
  let busy := unionIntervalsLength
    (clip windowStartPs windowEndPs ((m.resourceIntervals.get? name).getD []))
  { resourceName := name
    busyTimePs := busy
    windowTimePs := windowTimePs
    utilization := if 0 < windowTimePs then busy / windowTimePs else 0 }

/-- The smallest element of a nonempty list, or a default. -/
def minD : List ℤ → ℤ → ℤ
  | [], d => d
  | x :: xs, _ => xs.foldl min x

/-- Compute final metrics from the collected records. A missing window bound is the
earliest or the latest arrival of a released job. -/
def compute (m : MetricsCollector) (windowStart windowEnd : Option ℤ)
    (computeCapacity : ℤ) : ScenarioMetrics :=
  let released := m.measurementJobs
  let windowStartPs := windowStart.getD (minD (released.map (·.arrivalPs)) 0)
  let windowEndPs := windowEnd.getD
    (if released.isEmpty then windowStartPs else maxOf (released.map (·.arrivalPs)))
  let windowTimePs := max 0 (windowEndPs - windowStartPs)
  let completed := withOutcome released .completed
  let dropped := withOutcome released .dropped
  let replaced := withOutcome released .replaced
  let rejected := withOutcome released .rejected
  let timedOut := withOutcome released .timeout
  let deadlineMisses := released.filter isDeadlineMiss
  let (latP50, latP99, latMax) := percentileMs (completed.filterMap (·.latencyPs))
  let (startP50, startP99, _) := percentileMs (released.filterMap (·.startLatencyPs))
  let (ageP50, ageP99, _) := percentileMs
    ((released.map (·.observationAgePs)).filter fun a => decide (0 < a))
  let classIds := ((released.map (·.classId)).dedup).insertionSort (· ≤ ·)
  { windowStartPs := windowStartPs
    windowEndPs := windowEndPs
    windowTimePs := windowTimePs
    releasedCount := released.length
    completedCount := completed.length
    droppedCount := dropped.length
    replacedCount := replaced.length
    rejectedCount := rejected.length
    timeoutCount := timedOut.length
    deadlineMissCount := deadlineMisses.length
    completedThroughputHz := throughputHz completed.length windowTimePs
    latencyP50Ms := latP50
    latencyP99Ms := latP99
    latencyMaxMs := latMax
    startLatencyP50Ms := startP50
    startLatencyP99Ms := startP99
    observationAgeP50Ms := ageP50
    observationAgeP99Ms := ageP99
    peakQueue := (m.queueSizes.values.flatten.map Prod.snd).foldl max 0
    resourceUtilization := (m.resourceIntervals.keys.insertionSort (· ≤ ·)).map
      (m.computeUtilization windowStartPs windowEndPs windowTimePs)
    classMetrics := classIds.map
      (m.computeClass released windowStartPs windowEndPs windowTimePs computeCapacity)
    recoveryTimePs := m.recoveryTimePs
    stable := dropped.isEmpty && replaced.isEmpty && timedOut.isEmpty && deadlineMisses.isEmpty }

end MetricsCollector

end NpuArc
