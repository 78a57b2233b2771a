import NpuArc.Library.Dict
import NpuArc.Scheduler.Events

/-!
# The discrete-event scheduler kernel

The kernel keeps simulated time, the event queue, and the state of every
registered job. Payloads are closures in the source; here they are data, either
one of the kernel's own callbacks or a payload of the client, and a `Host` says how
the client's payloads act on the state that contains the kernel.
-/

namespace NpuArc

/-- Lifecycle states of a scheduled job. -/
inductive JobState
  | pending
  | ready
  | running
  | completed
  | rejected
  deriving DecidableEq

/-- The name of a state in error messages. -/
def JobState.name : JobState → String
  | .pending => "PENDING"
  | .ready => "READY"
  | .running => "RUNNING"
  | .completed => "COMPLETED"
  | .rejected => "REJECTED"

/-- A schedulable unit of work. `workPs` is the total service time, `remainingPs` is
updated as the job executes, and all times are absolute picoseconds. -/
structure JobHandle where
  jobId : String
  releasePs : ℤ
  deadlinePs : ℤ
  workPs : ℤ
  remainingPs : ℤ
  state : JobState
  priorityClass : ℤ
  relativeDeadlinePs : ℤ
  dependsOn : List String
  deriving DecidableEq

/-- Payloads of kernel events. -/
inductive KernelPayload (π : Type)
  /-- The release of a job registered for a later time. -/
  | release (jobId : String)
  /-- A call of the dispatch callback. -/
  | dispatch
  /-- A payload scheduled by the client. -/
  | client (payload : π)
  deriving DecidableEq

/-- The kernel state. Handles in the lists of completed and rejected jobs are
represented by the ids of their jobs. -/
structure Kernel (π : Type) where
  nowPs : ℤ := 0
  queue : EventQueue (KernelPayload π) := .empty
  jobs : Dict String JobHandle := .empty
  completed : List String := []
  rejected : List String := []
  /-- Whether a dispatch callback is set. -/
  hasDispatchCallback : Bool := false
  nextDispatchTime : Option ℤ := none

namespace Kernel

variable {π : Type}

/-- Change the handle of a registered job. -/
def modifyJob (k : Kernel π) (jobId : String) (f : JobHandle → JobHandle) : Kernel π :=
  { k with jobs := k.jobs.modify jobId f }

/-- The handle of a registered job. -/
def getJob (k : Kernel π) (jobId : String) : Except Error JobHandle :=
  match k.jobs.get? jobId with
  | some job => .ok job
  | none => .error (.schedulerError ("unknown job_id " ++ reprStr jobId))

/-- Schedule an event at a time that is not in the past. -/
def schedule (k : Kernel π) (timePs : ℤ) (phase : EventPhase) (payload : KernelPayload π) :
    Except Error (Event (KernelPayload π) × Kernel π) :=
  if timePs < k.nowPs then
    .error (.schedulerError ("cannot schedule event at " ++ toString timePs ++ " ps (now=" ++
      toString k.nowPs ++ " ps)"))
  else do
    let (event, queue) ← k.queue.push timePs phase payload
    .ok (event, { k with queue := queue })

/-- Cancel a previously scheduled event. -/
def cancelEvent (k : Kernel π) (event : Event (KernelPayload π)) : Kernel π :=
  { k with queue := (k.queue.cancel event).2 }

/-- Schedule a dispatch event if a callback is set, coalescing requests for the same
or a later timestamp. -/
def scheduleDispatch (k : Kernel π) (timePs : ℤ) : Except Error (Kernel π) :=
  if !k.hasDispatchCallback then .ok k
  else if k.nextDispatchTime.any (fun t => decide (t ≤ timePs)) then .ok k
  else do
    let (_, queue) ← k.queue.push timePs .dispatch .dispatch
    .ok { k with queue := queue, nextDispatchTime := some timePs }

/-- Whether every dependency of a job is completed. A dependency that is not
registered falls back to the job itself. -/
def dependenciesSatisfied (k : Kernel π) (job : JobHandle) : Bool :=
  job.dependsOn.all fun dep => decide (((k.jobs.get? dep).getD job).state = .completed)

/-- Make a pending job ready. -/
def makeReady (k : Kernel π) (jobId : String) : Kernel π :=
  k.modifyJob jobId fun job => if job.state = .pending then { job with state := .ready } else job

/-- Depth-first search along dependencies. The stack lists its top first, and each
round pops one entry. -/
def detectLoop (jobs : Dict String JobHandle) (start : String) :
    ℕ → List String → List String → Bool
  | 0, _, _ => false
  | _ + 1, [], _ => false
  | fuel + 1, current :: stack, visited =>
    if current ∈ visited then
      if current = start then true else detectLoop jobs start fuel stack visited
    else
      match jobs.get? current with
      | none => detectLoop jobs start fuel stack (current :: visited)
      | some job => detectLoop jobs start fuel (job.dependsOn.reverse ++ stack) (current :: visited)

/-- Whether a job participates in a dependency cycle. Each registered job is expanded
at most once, so the dependencies bound the number of rounds. -/
def detectCycle (k : Kernel π) (startJobId : String) : Bool :=
  detectLoop k.jobs startJobId ((k.jobs.values.map fun j => j.dependsOn.length).sum + 2)
    [startJobId] []

/-- Register a new job and schedule its release. The kernel is returned also when an
exception is raised, as the source leaves it. -/
def registerJob (k : Kernel π) (jobId : String) (workPs releasePs : ℤ)
    (relativeDeadlinePs : Option ℤ) (priorityClass : ℤ) (dependsOn : List String) :
    Except Error Unit × Kernel π :=
  let relDeadline := relativeDeadlinePs.getD workPs
  if jobId = "" then
    (.error (.configError "job_id must be non-empty" "job_id"), k)
  else if k.jobs.contains jobId then
    (.error (.configError ("duplicate job_id " ++ reprStr jobId) "job_id"), k)
  else if workPs < 0 then
    (.error (.schedulerError ("job " ++ reprStr jobId ++ " work_ps must be non-negative, got " ++
      toString workPs)), k)
  else if releasePs < k.nowPs then
    (.error (.schedulerError ("job " ++ reprStr jobId ++ " release_ps " ++ toString releasePs ++
      " is in the past (now=" ++ toString k.nowPs ++ ")")), k)
  else if relDeadline < 0 then
    (.error (.schedulerError ("job " ++ reprStr jobId ++
      " relative_deadline_ps must be non-negative, got " ++ toString relDeadline)), k)
  else if jobId ∈ dependsOn then
    (.error (.schedulerError ("job " ++ reprStr jobId ++ " depends on itself")), k)
  else
    let job : JobHandle :=
      { jobId := jobId
        releasePs := releasePs
        deadlinePs := releasePs + relDeadline
        workPs := workPs
        remainingPs := workPs
        state := .pending
        priorityClass := priorityClass
        relativeDeadlinePs := relDeadline
        dependsOn := dependsOn }
    let k1 := { k with jobs := k.jobs.insert jobId job }
    if k1.detectCycle jobId then
      (.error (.schedulerError ("cyclic dependency detected involving " ++ reprStr jobId)), k1)
    else if releasePs = k1.nowPs then
      if k1.dependenciesSatisfied job then
        let k2 := k1.makeReady jobId
        match k2.scheduleDispatch releasePs with
        | .ok k3 => (.ok (), k3)
        | .error e => (.error e, k2)
      -- the dependencies are checked again when one of them completes
      else (.ok (), k1)
    else
      match k1.queue.push releasePs .release (.release jobId) with
      | .ok (_, queue) => (.ok (), { k1 with queue := queue })
      | .error e => (.error e, k1)

/-- Make every pending job ready whose dependencies are completed and whose release
time has been reached. -/
def wakeDependents (k : Kernel π) : Kernel π :=
  { k with
    jobs := k.jobs.mapValues fun _ other =>
      if other.state = .pending ∧ k.dependenciesSatisfied other = true ∧
          other.releasePs ≤ k.nowPs then
        { other with state := .ready }
      else other }

/-- Jobs in the ready state. -/
def hasReady (k : Kernel π) : Bool := k.jobs.values.any fun j => decide (j.state = .ready)

/-- Complete a job, record it once, and wake the jobs that depend on it. -/
def completeJobInternal (k : Kernel π) (jobId : String) : Except Error (Kernel π) :=
  let k1 := k.modifyJob jobId fun job => { job with remainingPs := 0, state := .completed }
  let k2 := { k1 with
    completed := if jobId ∈ k1.completed then k1.completed else k1.completed ++ [jobId] }
  let k3 := k2.wakeDependents
  if k3.hasReady then k3.scheduleDispatch k3.nowPs else .ok k3

/-- Mark a running job as completed. A completed job stays as it is. -/
def completeJob (k : Kernel π) (jobId : String) : Except Error (Kernel π) := do
  let job ← k.getJob jobId
  if job.state = .completed then .ok k
  else if job.state ≠ .running then
    .error (.schedulerError ("cannot complete job " ++ reprStr jobId ++ " in state " ++
      job.state.name))
  else k.completeJobInternal jobId

/-- Let one job consume the elapsed time if it is running. -/
def consumeStep (delta : ℤ) (k : Kernel π) (jobId : String) : Except Error (Kernel π) :=
  match k.jobs.get? jobId with
  | none => .ok k
  | some job =>
    if job.state ≠ .running then .ok k
    else
      let remaining := job.remainingPs - min delta job.remainingPs
      let k1 := k.modifyJob jobId fun job => { job with remainingPs := remaining }
      if remaining = 0 then k1.completeJobInternal jobId else .ok k1

/-- Running jobs consume work as time advances; a job without remaining work is
completed on the spot. -/
def consumeElapsedWork (k : Kernel π) (previousTimePs : ℤ) : Except Error (Kernel π) :=
  let delta := k.nowPs - previousTimePs
  if delta ≤ 0 then .ok k else k.jobs.keys.foldlM (consumeStep delta) k

/-- The release callback of a job. -/
def releasePayload (k : Kernel π) (jobId : String) : Except Error (Kernel π) := do
  let job ← k.getJob jobId
  if job.state ≠ .pending then .ok k
  else if k.dependenciesSatisfied job then (k.makeReady jobId).scheduleDispatch k.nowPs
  else .ok k

/-- All ready jobs, sorted by job id. -/
def readyJobs (k : Kernel π) : List JobHandle :=
  (k.jobs.values.filter fun j => decide (j.state = .ready)).insertionSort
    fun a b => a.jobId ≤ b.jobId

/-- Mark a job as rejected. -/
def rejectJob (k : Kernel π) (jobId : String) : Except Error (Kernel π) := do
  let _ ← k.getJob jobId
  .ok { k.modifyJob jobId (fun job => { job with state := .rejected }) with
    rejected := k.rejected ++ [jobId] }

/-- Consume some of the remaining work of a running job. -/
def consumeWork (k : Kernel π) (jobId : String) (durationPs : ℤ) : Except Error (Kernel π) := do
  let job ← k.getJob jobId
  if job.state ≠ .running then
    .error (.schedulerError ("cannot consume work for job " ++ reprStr jobId ++ " in state " ++
      job.state.name))
  else if durationPs < 0 then
    .error (.schedulerError ("consume_work duration must be non-negative, got " ++
      toString durationPs))
  else if job.remainingPs < durationPs then
    .error (.schedulerError ("job " ++ reprStr jobId ++ " over-consumed: duration " ++
      toString durationPs ++ " > remaining " ++ toString job.remainingPs))
  else .ok (k.modifyJob jobId fun job => { job with remainingPs := job.remainingPs - durationPs })

/-- Whether a processed event advanced time, completed a job, started a job, was a
dispatch without ready jobs, or consumed work. -/
def madeProgress (old : Kernel π) (ev : Event (KernelPayload π)) (new : Kernel π) : Bool :=
  decide (old.nowPs < new.nowPs) ||
  decide (old.completed.length < new.completed.length) ||
  new.jobs.entries.any (fun e => decide (e.2.state = .running) &&
    !(old.jobs.get? e.1).any fun j => decide (j.state = .running)) ||
  (decide (ev.phase = .dispatch) && !old.hasReady) ||
  old.jobs.entries.any (fun e => decide (e.2.state = .running) &&
    (new.jobs.get? e.1).any fun j => decide (j.remainingPs < e.2.remainingPs))

end Kernel

/-- A state that contains a kernel, with the actions of the client's payloads and of
its dispatch callback. -/
structure Host (π σ : Type) where
  kernel : σ → Kernel π
  setKernel : Kernel π → σ → σ
  /-- Invoke a payload of the client. -/
  call : π → σ → Except Error σ
  /-- The dispatch callback, which receives the ready jobs. -/
  dispatchCallback : Option (List JobHandle → σ → Except Error σ)

namespace Host

variable {π σ : Type}

/-- Invoke the payload of an event. -/
def invoke (h : Host π σ) : KernelPayload π → σ → Except Error σ
  | .release jobId, s => do
    let k ← (h.kernel s).releasePayload jobId
    .ok (h.setKernel k s)
  | .dispatch, s =>
    let s' := h.setKernel { h.kernel s with nextDispatchTime := none } s
    match h.dispatchCallback with
    | none => .ok s'
    | some callback =>
      match (h.kernel s').readyJobs with
      | [] => .ok s'
      | ready => callback ready s'
  | .client payload, s => h.call payload s

/-- Process the earliest live event: advance time, let running jobs consume work,
invoke the payload, and require progress. -/
def processEvent (h : Host π σ) (s : σ) : Except Error σ :=
  match (h.kernel s).queue.pop with
  | (none, _) => .ok s
  | (some ev, queue) =>
    if ev.timePs < (h.kernel s).nowPs then
      .error (.schedulerError ("event at " ++ toString ev.timePs ++
        " ps is before current time " ++ toString (h.kernel s).nowPs ++ " ps"))
    else do
      let k ← Kernel.consumeElapsedWork
        { h.kernel s with queue := queue, nowPs := ev.timePs } (h.kernel s).nowPs
      let s' ← h.invoke ev.payload (h.setKernel k s)
      if (h.kernel s).madeProgress ev (h.kernel s') then .ok s'
      else .error (.schedulerError ("zero-time livelock detected: event did not advance " ++
        "time, consume work, or terminate a job"))

/-- Process events until the queue is empty, the next event is past the end time, or
the given number of events has been processed. -/
def runUntil (h : Host π σ) (endTimePs : Option ℤ) : ℕ → σ → Except Error σ
  | 0, s => .ok s
  | maxEvents + 1, s =>
    match (h.kernel s).queue.peek with
    | none => .ok s
    | some ev =>
      if endTimePs.any (fun t => decide (t < ev.timePs)) then .ok s
      else do
        let s' ← h.processEvent s
        h.runUntil endTimePs maxEvents s'

/-- Process events one at a time until no job is pending, ready, or running, or until the
queue is empty, the next event is too late, or the number of rounds is exhausted. -/
def runUntilComplete (h : Host π σ) (maxTimePs : ℤ) : ℕ → σ → Except Error σ
  | 0, s => .ok s
  | maxEvents + 1, s =>
    if (h.kernel s).jobs.values.all (fun j =>
        decide (j.state ≠ .pending ∧ j.state ≠ .ready ∧ j.state ≠ .running)) then .ok s
    else
      match (h.kernel s).queue.peek with
      | none => .ok s
      | some ev =>
        if maxTimePs < ev.timePs then .ok s
        else do
          let s' ← h.runUntil none 1 s
          h.runUntilComplete maxTimePs maxEvents s'

end Host

end NpuArc
