import NpuArc.Scenarios.Compiler
import NpuArc.Scheduler.Kernel
import NpuArc.Scheduler.Policies

/-!
# The scenario runner

The runner drives the kernel through a compiled scenario. Kernel jobs are registered
only when they begin executing; FIFO queues and mailboxes hold admitted jobs until
dispatch. Times, queues, and resource accounts are those of the source. The runner
subscripts its tables with ids of compiled releases only, so a lookup that cannot fail
is a total function here; every `raise` statement is an `Except.error`.

The last field of the state is a history variable: each elementary action is logged
together with the state it found. No function reads it.
-/

namespace NpuArc

/-- Payloads of the events that the runner schedules. -/
inductive RunnerPayload
  /-- The arrival of a release, followed by a dispatch. -/
  | arrival (release : JobRelease)
  /-- A dispatch at the current time. -/
  | dispatch
  /-- The completion of a running job. -/
  | complete (jobId : String)
  deriving DecidableEq

/-- Events of the runner's kernel. -/
abbrev RunnerEvent := Event (KernelPayload RunnerPayload)

/-- Where a dispatch candidate was found. -/
inductive CandidateSource
  | preempted
  | fifo
  | mailbox
  deriving DecidableEq

/-- A dispatch candidate. -/
structure Candidate where
  jobId : String
  source : CandidateSource
  deriving DecidableEq

/-- The mutable state of the runner, with the kernel, the metrics collector, and the
admission controller it drives. -/
structure RunnerCore where
  kernel : Kernel RunnerPayload
  collector : MetricsCollector
  resourceUsed : Dict String ℤ
  /-- The completion event of each running job. -/
  running : Dict String RunnerEvent
  preempted : List String
  preemptedRemaining : Dict String ℤ
  startTimes : Dict String ℤ
  fifoQueues : Dict String (BoundedFIFO String)
  mailboxes : Dict String (MailboxLatest String)
  admission : AdmissionController
  admitted : List String
  recoveryRecorded : Bool

/-- Elementary actions of the runner. -/
inductive Action
  | arrive (jobId : String)
  | offer (jobId : String)
  | start (jobId : String)
  | preempt (jobId : String)
  | complete (jobId : String)
  | check
  deriving DecidableEq

/-- The runner state with its history, most recent action first. -/
structure RunnerState extends RunnerCore where
  history : List (Action × RunnerCore)

/-- Log an action together with the state it finds. -/
def RunnerState.log (s : RunnerState) (a : Action) : RunnerState :=
  { s with history := (a, s.toRunnerCore) :: s.history }

namespace Runner

variable (c : CompiledScenario)

/-! ### Tables of the compiled scenario -/

/-- The releases of the scenario by job id. -/
def releaseById : Dict String JobRelease := Dict.ofList (c.releases.map fun r => (r.jobId, r))

/-- The release of a job. -/
def releaseOf (jobId : String) : JobRelease := ((releaseById c).get? jobId).getD default

/-- The workload class of a release. -/
def classOf (release : JobRelease) : WorkloadClass :=
  match c.scenario.getClass release.classId with
  | .ok cls => cls
  | .error _ => default

/-- The workload class of a job. -/
def classFor (jobId : String) : WorkloadClass := classOf c (releaseOf c jobId)

/-- The units of each resource that a job requires while it runs. -/
def requirements (jobId : String) : Dict String ℤ := (classFor c jobId).resourceRequirements

/-- The simulation limit in picoseconds. -/
def maxTimePs : ℤ := msToPs c.scenario.maxSimulationTimeMs

/-- The start of the recovery phase, if there is one. -/
def recoveryPhaseStartPs : Option ℤ := c.scenario.recoveryPhaseStartMs.map msToPs

/-! ### Resources -/

/-- The units of a resource in use. -/
def usedUnits (used : Dict String ℤ) (name : String) : ℤ := (used.get? name).getD 0

/-- Whether requirements fit beside the units in use. An unknown resource never fits. -/
def fits (used : Dict String ℤ) (req : Dict String ℤ) : Bool :=
  req.entries.all fun e =>
    match c.resources.get? e.1 with
    | none => false
    | some resource => decide (e.2 ≤ resource.capacity - usedUnits used e.1)

/-- Take the units of some requirements. -/
def takeUnits (used : Dict String ℤ) (req : Dict String ℤ) : Dict String ℤ :=
  req.entries.foldl (fun used e => used.modify e.1 (· + e.2)) used

/-- Give back the units of some requirements, clamped at zero. -/
def giveUnits (used : Dict String ℤ) (req : Dict String ℤ) : Dict String ℤ :=
  req.entries.foldl (fun used e => used.modify e.1 fun u => max 0 (u - e.2)) used

/-- Whether the resources of a job are available. -/
def canAllocate (jobId : String) (s : RunnerState) : Bool :=
  fits c s.resourceUsed (requirements c jobId)

/-- Take the resources of a job. -/
def allocate (jobId : String) (s : RunnerState) : RunnerState :=
  { s with resourceUsed := takeUnits s.resourceUsed (requirements c jobId) }

/-- Give back the resources of a job. -/
def releaseResources (jobId : String) (s : RunnerState) : RunnerState :=
  { s with resourceUsed := giveUnits s.resourceUsed (requirements c jobId) }

/-! ### Policy -/

/-- The canonical ordering key of a job. -/
def jobKey (jobId : String) : PolicyKey :=
  policyKey (classFor c jobId).priority (releaseOf c jobId).deadlinePs
    (releaseOf c jobId).arrivalPs jobId

/-- The lowest priority at which a resource is held by a running job of a priority
below the given one. -/
def lowerPriorityHolders (priority : ℤ) (s : RunnerState) : Dict String ℤ :=
  s.running.keys.foldl
    (fun holders jobId =>
      let cls := classFor c jobId
      if cls.priority < priority then
        cls.resourceRequirements.keys.foldl
          (fun holders name =>
            holders.insert name (match holders.get? name with
              | none => cls.priority
              | some p => min p cls.priority))
          holders
      else holders)
    Dict.empty

/-! ### Recovery tracking -/

/-- The number of queued or running jobs as the runner counts them. The mailboxes are
asked for their dictionary key. -/
def backlogCount (s : RunnerState) : ℕ :=
  (s.fifoQueues.values.map (·.size)).sum +
    (s.mailboxes.entries.filter fun e => e.2.hasPending e.1).length +
    s.running.size + s.preempted.length

/-- Record the recovery time if the backlog has drained after the start of the
recovery phase. -/
def maybeRecordRecovery (s : RunnerState) : RunnerState :=
  let s := s.log .check
  if s.recoveryRecorded then s
  else if (recoveryPhaseStartPs c).all (fun t => decide (s.kernel.nowPs < t)) then s
  else if backlogCount s = 0 then
    { s with
      collector := s.collector.recordRecoveryTime s.kernel.nowPs
      recoveryRecorded := true }
  else s

/-! ### Starting jobs -/

/-- Schedule a dispatch event at the current time. -/
def scheduleDispatch (s : RunnerState) : Except Error RunnerState := do
  let (_, kernel) ← s.kernel.schedule s.kernel.nowPs .dispatch (.client .dispatch)
  .ok { s with kernel := kernel }

/-- Remove a job from the head of its FIFO, or take what its mailbox holds. -/
def dequeueFromRunner (jobId : String) (s : RunnerState) : RunnerState :=
  let cls := classFor c jobId
  match cls.queuePolicy with
  | .fifo =>
    match s.fifoQueues.get? (fifoKey cls.id) with
    | none => s
    | some q =>
      if q.peek.map Prod.snd = some jobId then
        { s with fifoQueues := s.fifoQueues.insert (fifoKey cls.id) q.dequeue.2 }
      else s
  | .mailboxLatest =>
    match s.mailboxes.get? (mailboxKey cls.stream) with
    | none => s
    | some mb =>
      match mb.take cls.stream s.kernel.nowPs with
      | (none, _) => s
      | (some (agePs, _), mb') =>
        { s with
          mailboxes := s.mailboxes.insert (mailboxKey cls.stream) mb'
          collector := s.collector.recordObservationAge jobId agePs }

/-- Resume a job in the kernel, or register it there as running. -/
def activate (jobId : String) (remaining : ℤ) (kernel : Kernel RunnerPayload) :
    Except Error (Kernel RunnerPayload) :=
  if kernel.jobs.contains jobId then
    .ok (kernel.modifyJob jobId fun job => { job with state := .running, remainingPs := remaining })
  else
    let relDeadline := max 0 ((releaseOf c jobId).deadlinePs - kernel.nowPs)
    match kernel.registerJob jobId remaining kernel.nowPs (some relDeadline)
        (classFor c jobId).priority [] with
    | (.ok (), kernel') => .ok (kernel'.modifyJob jobId fun job => { job with state := .running })
    | (.error e, _) => .error e

/-- Allocate resources and begin or resume executing a job. -/
def startJob (jobId : String) (s : RunnerState) : Except Error RunnerState := do
  let s := allocate c jobId (s.log (.start jobId))
  let s := { s with preempted := s.preempted.filter (· ≠ jobId) }
  let s := dequeueFromRunner c jobId s
  let remaining := (s.preemptedRemaining.get? jobId).getD (releaseOf c jobId).workPs
  let kernel ← activate c jobId remaining s.kernel
  let (completion, kernel) ←
    kernel.schedule (kernel.nowPs + remaining) .timer (.client (.complete jobId))
  .ok
    { s with
      preemptedRemaining := s.preemptedRemaining.erase jobId
      kernel := kernel
      startTimes := s.startTimes.insert jobId s.kernel.nowPs
      collector := s.collector.recordStart jobId s.kernel.nowPs
      running := s.running.insert jobId completion }

/-- Start a job if its resources are available. Returns whether it was started. -/
def tryStart (jobId : String) (s : RunnerState) : Except Error (RunnerState × Bool) :=
  if canAllocate c jobId s then do
    let s' ← startJob c jobId s
    .ok (s', true)
  else .ok (s, false)

/-! ### Preemption -/

/-- Insert a job at the head of the private list of a FIFO, without a capacity check. -/
def putBack (jobId : String) (q : BoundedFIFO String) : BoundedFIFO String :=
  { q with items := (q.sequence, jobId) :: q.items, sequence := q.sequence + 1 }

/-- Put a preempted FIFO job back at the head of its queue. -/
def requeue (jobId : String) (s : RunnerState) : RunnerState :=
  let cls := classFor c jobId
  match cls.queuePolicy with
  | .fifo =>
    { s with fifoQueues := s.fifoQueues.modify (fifoKey cls.id) (putBack jobId) }
  | .mailboxLatest => s

/-- Hide a running job from the kernel until the runner resumes it. -/
def hideJob (jobId : String) (kernel : Kernel RunnerPayload) : Kernel RunnerPayload :=
  match kernel.jobs.get? jobId with
  | none => kernel
  | some job =>
    if job.state = .running then
      kernel.modifyJob jobId fun job =>
        { job with state := .pending, releasePs := maxTimePs c + 1 }
    else kernel

/-- Move a running job back to the preempted set. -/
def preemptJob (jobId : String) (s : RunnerState) : RunnerState :=
  match s.running.get? jobId with
  | none => s
  | some event =>
    let s := s.log (.preempt jobId)
    let remaining := match s.kernel.jobs.get? jobId with
      | some job => job.remainingPs
      | none => 0
    let startPs := (s.startTimes.get? jobId).getD s.kernel.nowPs
    let s :=
      { s with
        running := s.running.erase jobId
        kernel := hideJob c jobId (s.kernel.cancelEvent event)
        startTimes := s.startTimes.erase jobId
        collector := s.collector.recordResourceBusy "compute" startPs s.kernel.nowPs
          (some (classFor c jobId).id)
        preemptedRemaining := s.preemptedRemaining.insert jobId remaining }
    let s := releaseResources c jobId s
    requeue c jobId { s with preempted := s.preempted.insert jobId }

/-- Preempt victims in the given order until a job fits, skipping those it does not
outrank. Returns whether a victim was preempted. -/
def preemptLoop (jobId : String) : List String → Bool → RunnerState → RunnerState × Bool
  | [], preemptedAny, s => (s, preemptedAny)
  | victim :: running, preemptedAny, s =>
    if canAllocate c jobId s then (s, preemptedAny)
    else if jobKey c jobId < jobKey c victim then
      preemptLoop jobId running true (preemptJob c victim s)
    else preemptLoop jobId running preemptedAny s

/-- The running jobs, lowest rank first. -/
def runningByRank (s : RunnerState) : List String :=
  s.running.keys.insertionSort fun a b => jobKey c b ≤ jobKey c a

/-- Preempt lower-ranked running jobs until a job can start. -/
def preemptFor (jobId : String) (s : RunnerState) : RunnerState × Bool :=
  preemptLoop c jobId (runningByRank c s) false s

/-! ### Dispatch -/

/-- The part of a string after its first colon. -/
def afterColon (key : String) : String :=
  String.ofList ((key.toList.dropWhile fun ch => decide (ch ≠ ':')).drop 1)

/-- Collect dispatch candidates from the preempted set, FIFO heads, and mailboxes. -/
def collectCandidates (s : RunnerState) : List Candidate :=
  (s.preempted.filter fun jobId => !s.running.contains jobId).map (⟨·, .preempted⟩) ++
    s.fifoQueues.values.filterMap (fun q => q.peek.map fun head => ⟨head.2, .fifo⟩) ++
    s.mailboxes.entries.filterMap (fun e =>
      (e.2.peek (afterColon e.1) s.kernel.nowPs).map fun pending => ⟨pending.2, .mailbox⟩)

/-- Offer a job to the resources, preempting lower-ranked jobs when that is enabled. -/
def offer (jobId : String) (s : RunnerState) : Except Error RunnerState := do
  let (s, started) ← tryStart c jobId (s.log (.offer jobId))
  if started then .ok s
  else if !c.scenario.preemptionEnabled then .ok s
  else
    let (s, preemptedAny) := preemptFor c jobId s
    if preemptedAny then do
      let (s, _) ← tryStart c jobId s
      .ok s
    else .ok s

/-- Offer the candidates in order, each job once and no running job. -/
def dispatchLoop : List Candidate → List String → RunnerState → Except Error RunnerState
  | [], _, s => .ok s
  | candidate :: candidates, seen, s =>
    if candidate.jobId ∈ seen ∨ s.running.contains candidate.jobId = true then
      dispatchLoop candidates seen s
    else do
      let s ← offer c candidate.jobId s
      dispatchLoop candidates (candidate.jobId :: seen) s

/-- Dispatch ready jobs to resources in policy order. -/
def dispatch (s : RunnerState) : Except Error RunnerState :=
  match collectCandidates s with
  | [] => .ok (maybeRecordRecovery c s)
  | candidates => do
    let sorted := candidates.insertionSort fun a b => jobKey c a.jobId ≤ jobKey c b.jobId
    let s ← dispatchLoop c sorted [] s
    .ok (maybeRecordRecovery c s)

/-! ### Arrival -/

/-- Release the admission reservation of a job that holds one. -/
def releaseAdmission (jobId : String) (s : RunnerState) : RunnerState :=
  if jobId ∈ s.admitted then
    { s with
      admission := (s.admission.release jobId).2
      admitted := s.admitted.filter (· ≠ jobId) }
  else s

/-- Retire the job that a mailbox arrival replaced. -/
def replaceJob (oldJobId : String) (s : RunnerState) : RunnerState :=
  let s := releaseAdmission oldJobId { s with collector := s.collector.recordReplace oldJobId }
  if s.running.contains oldJobId then preemptJob c oldJobId s
  else if oldJobId ∈ s.preempted then
    { s with
      preempted := s.preempted.filter (· ≠ oldJobId)
      preemptedRemaining := s.preemptedRemaining.erase oldJobId }
  else s

/-- Commit the admission reservation of a queued job. -/
def commitAdmission (release : JobRelease) (cls : WorkloadClass) (s : RunnerState) :
    RunnerState :=
  if cls.admissionExcluded then s
  else
    { s with
      admission := (s.admission.admitJob release.jobId cls.memoryBytes cls.bandwidthFraction
        cls.priority [] (lowerPriorityHolders c cls.priority s)).2
      admitted := s.admitted.insert release.jobId }

/-- Put an arrived job into its FIFO or mailbox. Returns whether it was queued; a full
FIFO drops it. -/
def enqueueArrival (release : JobRelease) (cls : WorkloadClass) (s : RunnerState) :
    Except Error (RunnerState × Bool) :=
  match cls.queuePolicy with
  | .fifo =>
    match s.fifoQueues.get? (fifoKey cls.id) with
    | none => .error (.keyError (fifoKey cls.id))
    | some q =>
      match q.enqueue release.jobId with
      | (.ok _, q') => .ok
          ({ s with
              fifoQueues := s.fifoQueues.insert (fifoKey cls.id) q'
              collector := s.collector.recordQueueSize q'.name q'.size s.kernel.nowPs }, true)
      | (.error _, q') => .ok
          ({ s with
              fifoQueues := s.fifoQueues.insert (fifoKey cls.id) q'
              collector := s.collector.recordDrop release.jobId }, false)
  | .mailboxLatest =>
    match s.mailboxes.get? (mailboxKey cls.stream) with
    | none => .error (.keyError (mailboxKey cls.stream))
    | some mb =>
      let old := mb.peek cls.stream s.kernel.nowPs
      let (replaced, mb') := mb.put cls.stream release.jobId s.kernel.nowPs
      let s := { s with mailboxes := s.mailboxes.insert (mailboxKey cls.stream) mb' }
      match replaced, old with
      | true, some (_, oldJobId) => .ok (replaceJob c oldJobId s, true)
      | _, _ => .ok (s, true)

/-- The metric record of a fresh arrival. -/
def arrivalRecord (release : JobRelease) (cls : WorkloadClass) : JobMetricRecord :=
  { jobId := release.jobId
    classId := release.classId
    arrivalPs := release.arrivalPs
    deadlinePs := release.deadlinePs
    isWarmup := release.isWarmup
    isMeasurement := release.isMeasurement
    workPs := release.workPs
    resourceRequirements := cls.resourceRequirements }

/-- Whether admission control rejects an arriving job. -/
def isRejected (release : JobRelease) (cls : WorkloadClass) (s : RunnerState) : Bool :=
  !cls.admissionExcluded &&
    !(s.admission.check release.jobId cls.memoryBytes cls.bandwidthFraction cls.priority []
      (lowerPriorityHolders c cls.priority s)).admitted

/-- Record an arrival, check its admission, and queue it. -/
def receive (release : JobRelease) (cls : WorkloadClass) (s : RunnerState) :
    Except Error RunnerState := do
  let s := s.log (.arrive release.jobId)
  let collector ← s.collector.recordArrival (arrivalRecord release cls)
  let s := { s with collector := collector }
  if isRejected c release cls s then
    .ok { s with collector := s.collector.recordReject release.jobId }
  else
    let (s, queued) ← enqueueArrival c release cls s
    .ok (if queued then commitAdmission c release cls s else s)

/-- Handle a job arrival. Every branch of the source ends with a recovery check and a
new dispatch event. -/
def onArrival (release : JobRelease) (s : RunnerState) : Except Error RunnerState := do
  let cls ← c.scenario.getClass release.classId
  let s ← receive c release cls s
  scheduleDispatch (maybeRecordRecovery c s)

/-- Handle an arrival and then run the dispatcher. -/
def onArrivalAndDispatch (release : JobRelease) (s : RunnerState) : Except Error RunnerState := do
  let s ← onArrival c release s
  dispatch c s

/-! ### Completion -/

/-- Complete a job in the kernel; a scheduler error is suppressed. -/
def suppressComplete (jobId : String) (kernel : Kernel RunnerPayload) : Kernel RunnerPayload :=
  match kernel.completeJob jobId with
  | .ok kernel' => kernel'
  | .error _ => kernel

/-- Retire a running job: kernel, metrics, resources, and admission. -/
def retire (jobId : String) (s : RunnerState) : RunnerState :=
  let s := s.log (.complete jobId)
  let startPs := (s.startTimes.get? jobId).getD s.kernel.nowPs
  let s :=
    { s with
      running := s.running.erase jobId
      kernel := suppressComplete jobId s.kernel
      startTimes := s.startTimes.erase jobId
      collector := (s.collector.recordResourceBusy "compute" startPs s.kernel.nowPs
        (some (classFor c jobId).id)).recordComplete jobId s.kernel.nowPs }
  releaseAdmission jobId (releaseResources c jobId s)

/-- Handle a job completion. -/
def onComplete (jobId : String) (s : RunnerState) : Except Error RunnerState :=
  if !s.running.contains jobId then .ok s
  else scheduleDispatch (maybeRecordRecovery c (retire c jobId s))

/-! ### Run -/

/-- The payloads of the runner's events. -/
def call : RunnerPayload → RunnerState → Except Error RunnerState
  | .arrival release, s => onArrivalAndDispatch c release s
  | .dispatch, s => dispatch c s
  | .complete jobId, s => onComplete c jobId s

/-- The runner as the client of its kernel, without a dispatch callback. -/
def host : Host RunnerPayload RunnerState where
  kernel s := s.kernel
  setKernel k s := { s with kernel := k }
  call := call c
  dispatchCallback := none

/-- The FIFO queues among the compiled queues. -/
def fifoQueuesOf (queues : Dict String CompiledQueue) : Dict String (BoundedFIFO String) :=
  queues.filterMapValues fun
    | .fifo q => some q
    | .mailbox _ => none

/-- The mailboxes among the compiled queues. -/
def mailboxesOf (queues : Dict String CompiledQueue) : Dict String (MailboxLatest String) :=
  queues.filterMapValues fun
    | .fifo _ => none
    | .mailbox mb => some mb

/-- The state of a new runner. -/
def init : RunnerState where
  kernel := {}
  collector := {}
  resourceUsed := c.resources.mapValues fun _ _ => 0
  running := .empty
  preempted := []
  preemptedRemaining := .empty
  startTimes := .empty
  fifoQueues := fifoQueuesOf c.queues
  mailboxes := mailboxesOf c.queues
  admission := c.admission
  admitted := []
  recoveryRecorded := false
  history := []

/-- Schedule an arrival event for every release, and a dispatch at time zero. -/
def scheduleArrivals (s : RunnerState) : Except Error RunnerState := do
  let kernel ← c.releases.foldlM
    (fun (k : Kernel RunnerPayload) release => do
      let (_, k') ← k.schedule release.arrivalPs .dispatch (.client (.arrival release))
      .ok k')
    s.kernel
  let (_, kernel) ← kernel.schedule 0 .dispatch (.client .dispatch)
  .ok { s with kernel := kernel }

/-- The next event of the run: the earliest live event up to the simulation limit. -/
def nextEvent (s : RunnerState) : Option RunnerEvent :=
  s.kernel.queue.peek.filter fun ev => decide (ev.timePs ≤ maxTimePs c)

/-- The outer loop of the run. `none` means that the rounds did not suffice. -/
def runLoop : ℕ → RunnerState → Except Error (Option RunnerState)
  | 0, _ => .ok none
  | rounds + 1, s =>
    match nextEvent c s with
    | none => .ok (some s)
    | some _ => do
      let s' ← (host c).runUntil (some (maxTimePs c)) 1000 s
      runLoop rounds s'

/-- Record a drop for every job that is still queued in a FIFO. -/
def drain (s : RunnerState) : MetricsCollector :=
  (s.fifoQueues.values.flatMap (·.contents)).foldl (·.recordDrop ·) s.collector

/-- The metrics of a run that ended in a given state. -/
def finish (s : RunnerState) : ScenarioMetrics :=
  (drain s).compute (some c.windowStartPs) (some c.windowEndPs) c.scenario.computeCapacity

/-- Run the compiled scenario and return metrics; `none` if the rounds of the outer
loop did not suffice. -/
def run (rounds : ℕ) : Except Error (Option ScenarioMetrics) := do
  let s ← scheduleArrivals c (init c)
  let final ← runLoop c rounds s
  .ok (final.map (finish c))

end Runner

end NpuArc
