import NpuArc.Library.Decimal
import NpuArc.Scenarios.Schema
import NpuArc.Scheduler.Policies
import NpuArc.Scheduler.Queues
import NpuArc.Scheduler.Resources

/-!
# Compiling a scenario

The compiler turns arrival patterns into a sorted list of job releases and
instantiates resources, queues, and admission control. The memory plan of an
optional workload fixture enters only through its total of usable bytes.
-/

namespace NpuArc

/-- A single compiled job release event. -/
structure JobRelease where
  jobId : String
  classId : String
  arrivalPs : ℤ
  workPs : ℤ
  deadlinePs : ℤ
  timeoutPs : ℤ
  isWarmup : Bool
  isMeasurement : Bool
  sequence : ℕ
  deriving DecidableEq, Inhabited

/-- A queue object of a compiled scenario. -/
inductive CompiledQueue
  | fifo (queue : BoundedFIFO String)
  | mailbox (queue : MailboxLatest String)

/-- Runnable output of the compiler. -/
structure CompiledScenario where
  scenario : Scenario
  releases : List JobRelease
  resources : Dict String CapacityResource
  queues : Dict String CompiledQueue
  admission : AdmissionController
  windowStartPs : ℤ
  windowEndPs : ℤ

/-- A number in decimal, padded with zeros to at least six digits. -/
def padSix (idx : ℕ) : String := String.ofList (paddedDigits 6 idx)

/-- The id of the release of a class with a given index. -/
def makeJobId (classId : String) (idx : ℕ) : String := classId ++ "-" ++ padSix idx

def fifoKey (classId : String) : String := "fifo:" ++ classId

def mailboxKey (stream : String) : String := "mailbox:" ++ stream

/-- The release of a class with a given index, arrival time, and sequence number. -/
def makeRelease (scenario : Scenario) (cls : WorkloadClass) (total idx : ℕ) (arrivalPs : ℤ)
    (seq : ℕ) : JobRelease :=
  let warmup := min scenario.warmupCount total
  let measure := min scenario.measurementCount (total - warmup)
  { jobId := makeJobId cls.id idx
    classId := cls.id
    arrivalPs := arrivalPs
    workPs := cls.workPs
    deadlinePs := arrivalPs + cls.relativeDeadlinePs
    timeoutPs := arrivalPs + cls.timeoutPs
    isWarmup := decide (idx < warmup)
    isMeasurement := decide (warmup ≤ idx ∧ idx < warmup + measure)
    sequence := seq }

/-- The releases of one class, numbered from a first sequence number. -/
def classReleases (scenario : Scenario) (cls : WorkloadClass) (seq : ℕ) : List JobRelease :=
  let releaseTimes := cls.arrival.releaseTimesPs
  releaseTimes.zipIdx.map fun e =>
    makeRelease scenario cls releaseTimes.length e.2 e.1 (seq + e.2)

/-- The releases of all classes in class order, numbered consecutively. -/
def allReleases (scenario : Scenario) : List WorkloadClass → ℕ → List JobRelease
  | [], _ => []
  | cls :: classes, seq =>
    classReleases scenario cls seq ++
      allReleases scenario classes (seq + cls.arrival.releaseTimesPs.length)

/-- The sort key of a release. -/
def releaseKey (r : JobRelease) : ℤ ×ₗ ℕ := toLex (r.arrivalPs, r.sequence)

/-- The releases in order of arrival, ties in order of their sequence. -/
def sortedReleases (scenario : Scenario) : List JobRelease :=
  (allReleases scenario scenario.classes 0).insertionSort fun a b => releaseKey a ≤ releaseKey b

/-- Create capacity resources; a named resource may override the compute units. -/
def buildResources (scenario : Scenario) : Except Error (Dict String CapacityResource) := do
  let compute ← CapacityResource.new "compute" scenario.computeCapacity
  scenario.resources.entries.foldlM
    (fun resources e => do
      if e.2 ≤ 0 then
        .error (.configError ("resource " ++ reprStr e.1 ++ " capacity must be positive, got " ++
          toString e.2) ("resources." ++ e.1))
      else
        let resource ← CapacityResource.new e.1 e.2
        .ok (resources.insert e.1 resource))
    (Dict.empty.insert "compute" compute)

/-- Add the queue of one class. Classes on one stream share its mailbox. -/
def buildQueue (queues : Dict String CompiledQueue) (cls : WorkloadClass) :
    Except Error (Dict String CompiledQueue) :=
  match cls.queuePolicy with
  | .fifo => do
    let queue ← BoundedFIFO.new cls.queueCapacity (fifoKey cls.id)
    .ok (queues.insert (fifoKey cls.id) (.fifo queue))
  | .mailboxLatest =>
    let key := mailboxKey cls.stream
    if queues.contains key then .ok queues
    else .ok (queues.insert key (.mailbox { name := key }))

/-- Create queue objects for all classes. -/
def buildQueues (scenario : Scenario) : Except Error (Dict String CompiledQueue) :=
  scenario.classes.foldlM buildQueue Dict.empty

/-- Build the admission controller. The usable bytes of a fixture's memory plan raise
the available memory when the plan could be made. -/
def buildAdmission (scenario : Scenario) (planUsableBytes : Option ℤ) :
    Except Error AdmissionController :=
  let memoryAvailable := match planUsableBytes with
    | none => scenario.memoryAvailableBytes
    | some bytes => max scenario.memoryAvailableBytes bytes
  AdmissionController.new memoryAvailable scenario.maxInflightJobs scenario.maxBandwidthFraction

/-- Extend the end of the window by the expected end of one periodic class. -/
def extendWindow (measurementReleases : List JobRelease) (windowEndPs : ℤ)
    (cls : WorkloadClass) : ℤ :=
  match cls.arrival.mode with
  | .trace => windowEndPs
  | .periodic =>
    match measurementReleases.filter fun r => decide (r.classId = cls.id) with
    | [] => windowEndPs
    | first :: rest =>
      max windowEndPs (first.arrivalPs + (rest.length + 1 : ℕ) * cls.arrival.periodPs)

/-- Compile a scenario into a runnable form. -/
def compileScenario (scenario : Scenario) (planUsableBytes : Option ℤ) :
    Except Error CompiledScenario := do
  let releases := sortedReleases scenario
  let measurementReleases := releases.filter (·.isMeasurement)
  let arrivals := measurementReleases.map (·.arrivalPs)
  let windowStartPs := MetricsCollector.minD arrivals 0
  let lastArrival := if arrivals.isEmpty then windowStartPs else MetricsCollector.maxOf arrivals
  let windowEndPs := scenario.classes.foldl (extendWindow measurementReleases) lastArrival
  let resources ← buildResources scenario
  let queues ← buildQueues scenario
  let admission ← buildAdmission scenario planUsableBytes
  .ok
    { scenario := scenario
      releases := releases
      resources := resources
      queues := queues
      admission := admission
      windowStartPs := windowStartPs
      windowEndPs := windowEndPs }

end NpuArc
