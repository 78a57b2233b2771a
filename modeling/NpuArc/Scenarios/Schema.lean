import NpuArc.Contracts.Errors
import NpuArc.Scheduler.Metrics

/-!
# Scenario schema

A scenario describes workload classes with periodic or explicit arrivals, service
times, deadlines, queue policies, and resource requirements. Times in milliseconds
are exact rationals. `Scenario.validate` collects the checks of the schema.
-/

namespace NpuArc

/-- Queueing policy for a workload class. -/
inductive QueuePolicy
  | fifo
  | mailboxLatest
  deriving DecidableEq, Inhabited

/-- Arrival pattern mode. -/
inductive ArrivalMode
  | periodic
  | trace
  deriving DecidableEq, Inhabited

/-- Arrival pattern for a workload class. -/
structure ArrivalPattern where
  mode : ArrivalMode
  periodMs : Option ℚ := none
  count : Option ℤ := none
  offsetMs : ℚ := 0
  releasesMs : List ℚ := []
  deriving Inhabited

namespace ArrivalPattern

/-- The checks of the field validators and of the mode consistency. -/
def validate (p : ArrivalPattern) : Except Error Unit :=
  if p.count.any fun v => decide (v ≤ 0) then .error (.valueError "count must be positive")
  else
    match p.mode with
    | .periodic =>
      if p.periodMs.all fun v => decide (v ≤ 0) then
        .error (.valueError "periodic mode requires positive period_ms")
      else if p.count.all fun v => decide (v ≤ 0) then
        .error (.valueError "periodic mode requires positive count")
      else if p.offsetMs < 0 then .error (.valueError "offset_ms must be non-negative")
      else .ok ()
    | .trace =>
      if p.releasesMs = [] then .error (.valueError "trace mode requires non-empty releases_ms")
      else if p.releasesMs.any fun r => decide (r < 0) then
        .error (.valueError "release times must be non-negative")
      else if p.releasesMs ≠ p.releasesMs.insertionSort (· ≤ ·) then
        .error (.valueError "releases_ms must be sorted ascending")
      else .ok ()

/-- The inter-arrival period in picoseconds of a periodic pattern. -/
def periodPs (p : ArrivalPattern) : ℤ := msToPs (p.periodMs.getD 0)

/-- All release times in picoseconds. -/
def releaseTimesPs (p : ArrivalPattern) : List ℤ :=
  match p.mode with
  | .periodic => (List.range (p.count.getD 0).toNat).map fun i : ℕ =>
      msToPs (p.offsetMs + (i : ℚ) * p.periodMs.getD 0)
  | .trace => p.releasesMs.map msToPs

/-- An accepted pattern releases nothing before time zero. -/
theorem releaseTimesPs_nonneg {p : ArrivalPattern} (h : p.validate = .ok ()) :
    ∀ t ∈ p.releaseTimesPs, 0 ≤ t := by
  intro t ht
  unfold validate at h
  unfold releaseTimesPs at ht
  split at h
  · cases h
  · cases hm : p.mode with
    | periodic =>
      simp only [hm] at h ht
      split_ifs at h with hperiod hcount hoffset
      obtain ⟨i, _, rfl⟩ := List.mem_map.mp ht
      have hpos : 0 ≤ p.periodMs.getD 0 := by
        cases hp : p.periodMs with
        | none => simp
        | some v =>
          simp only [hp, Option.all_some, decide_eq_true_eq, not_le] at hperiod
          exact hperiod.le
      exact msToPs_nonneg (add_nonneg (not_lt.mp hoffset) (mul_nonneg (Nat.cast_nonneg i) hpos))
    | trace =>
      simp only [hm] at h ht
      split_ifs at h with hempty hneg hsorted
      obtain ⟨r, hr, rfl⟩ := List.mem_map.mp ht
      simp only [List.any_eq_true, decide_eq_true_eq, not_exists, not_and, not_lt] at hneg
      exact msToPs_nonneg (hneg r hr)

end ArrivalPattern

/-- A single workload class within a scenario. -/
structure WorkloadClass where
  id : String
  arrival : ArrivalPattern
  workMs : ℚ
  relativeDeadlineMs : Option ℚ := none
  timeoutMs : Option ℚ := none
  priority : ℤ := 0
  queuePolicy : QueuePolicy := .fifo
  queueCapacity : ℕ := 1000
  streamId : Option String := none
  resourceRequirements : Dict String ℤ := Dict.ofList [("compute", 1)]
  memoryBytes : ℤ := 0
  bandwidthFraction : ℚ := 0
  admissionExcluded : Bool := false

instance : Inhabited WorkloadClass := ⟨{ id := "", arrival := default, workMs := 0 }⟩

/-- The value of an optional number unless it is missing or zero. -/
def orElse (x : Option ℚ) (y : ℚ) : ℚ :=
  match x with
  | none => y
  | some v => if v = 0 then y else v

namespace WorkloadClass

def workPs (cls : WorkloadClass) : ℤ := msToPs cls.workMs

/-- The relative deadline, which defaults to the service time. -/
def relativeDeadlinePs (cls : WorkloadClass) : ℤ :=
  msToPs (orElse cls.relativeDeadlineMs cls.workMs)

/-- The hard timeout, which defaults to the relative deadline. -/
def timeoutPs (cls : WorkloadClass) : ℤ :=
  msToPs (orElse cls.timeoutMs (orElse cls.relativeDeadlineMs cls.workMs))

/-- The stream of a mailbox class: its stream id unless missing or empty. -/
def stream (cls : WorkloadClass) : String :=
  match cls.streamId with
  | none => cls.id
  | some s => if s = "" then cls.id else s

/-- The checks of the field constraints and validators. -/
def validate (cls : WorkloadClass) : Except Error Unit := do
  if cls.id.toList.all Char.isWhitespace then
    .error (.valueError "class id must be non-empty")
  else if cls.workMs ≤ 0 then .error (.valueError "work_ms must be positive")
  else if cls.queueCapacity < 1 then .error (.valueError "queue_capacity must be at least 1")
  else if cls.memoryBytes < 0 then .error (.valueError "memory_bytes must be non-negative")
  else if cls.bandwidthFraction < 0 then
    .error (.valueError "bandwidth_fraction must be non-negative")
  else cls.arrival.validate

end WorkloadClass

/-- A deterministic temporal scenario. -/
structure Scenario where
  name : String
  warmupCount : ℕ := 10
  measurementCount : ℕ := 1000
  maxSimulationTimeMs : ℚ := 1000000
  recoveryPhaseStartMs : Option ℚ := none
  classes : List WorkloadClass
  computeCapacity : ℤ := 1
  resources : Dict String ℤ := .empty
  memoryAvailableBytes : ℤ := 8000000000
  maxInflightJobs : ℤ := 128
  maxBandwidthFraction : ℚ := 1
  preemptionEnabled : Bool := true

namespace Scenario

/-- The checks of the schema. -/
def validate (sc : Scenario) : Except Error Unit := do
  if sc.name.toList.all Char.isWhitespace then
    .error (.valueError "scenario name must be non-empty")
  else if sc.measurementCount < 1 then
    .error (.valueError "measurement_count must be at least 1")
  else if sc.classes = [] then .error (.valueError "classes must not be empty")
  else if sc.computeCapacity < 1 then .error (.valueError "compute_capacity must be at least 1")
  else if sc.memoryAvailableBytes < 0 then
    .error (.valueError "memory_available_bytes must be non-negative")
  else if sc.maxInflightJobs < 1 then
    .error (.valueError "max_inflight_jobs must be at least 1")
  else if ¬(0 < sc.maxBandwidthFraction ∧ sc.maxBandwidthFraction ≤ 1) then
    .error (.valueError "max_bandwidth_fraction must be in (0, 1]")
  else if ¬(sc.classes.map (·.id)).Nodup then
    .error (.valueError "workload class ids must be unique")
  else sc.classes.forM WorkloadClass.validate

/-- Look up a workload class by id. -/
def getClass (sc : Scenario) (classId : String) : Except Error WorkloadClass :=
  match sc.classes.find? fun cls => decide (cls.id = classId) with
  | some cls => .ok cls
  | none => .error (.configError ("unknown class " ++ reprStr classId) "classes")

end Scenario

end NpuArc
