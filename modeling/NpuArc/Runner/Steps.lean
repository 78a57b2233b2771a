import NpuArc.Runner.Views
import NpuArc.Scheduler.AdmissionRuns
import NpuArc.Scheduler.Quiet

/-!
# Elementary steps of the runner

One specification for each elementary operation: what it logs, which fields it
changes, and how it changes the views. All later invariants are derived from these
specifications and never unfold the operations again.
-/

namespace NpuArc

namespace Runner

variable {c : CompiledScenario} {s s' : RunnerState} {jobId : String}

/-! ### Starting -/

/-- The work that a job has left when it is started: what its last preemption recorded,
or else the work of its release. -/
def remainingOf (c : CompiledScenario) (jobId : String) (s : RunnerCore) : ℤ :=
  (s.preemptedRemaining.get? jobId).getD (releaseOf c jobId).workPs

/-- What starting a job does; `ev` is its completion event. -/
structure Started (c : CompiledScenario) (jobId : String) (s s' : RunnerState)
    (ev : RunnerEvent) : Prop where
  history : s'.history = (.start jobId, s.toRunnerCore) :: s.history
  used : s'.resourceUsed = takeUnits s.resourceUsed (requirements c jobId)
  running : s'.running = s.running.insert jobId ev
  preempted : s'.preempted = s.preempted.filter (· ≠ jobId)
  preemptedRemaining : s'.preemptedRemaining = s.preemptedRemaining.erase jobId
  fifoAt : ∀ key, s'.fifoAt key = fifoAfterTake c jobId key s.toRunnerCore
  pendingAt : ∀ key stream, s'.pendingAt key stream =
    pendingAfterTake c jobId key stream s.toRunnerCore
  shape : SameShape s.toRunnerCore s'.toRunnerCore
  kernel : ∃ k, activate c jobId (remainingOf c jobId s.toRunnerCore) s.kernel = .ok k ∧
    k.schedule (k.nowPs + remainingOf c jobId s.toRunnerCore) .timer (.client (.complete jobId)) =
      .ok (ev, s'.kernel)
  verdict : ∀ a, s'.verdict a = s.verdict a
  recovery : s'.collector.recoveryTimePs = s.collector.recoveryTimePs ∧
    s'.recoveryRecorded = s.recoveryRecorded
  startTimes : s'.startTimes = s.startTimes.insert jobId s.now
  books : SameBooks s.toRunnerCore s'.toRunnerCore
  reserved : SameAdmission s.toRunnerCore s'.toRunnerCore

/-- A successful start does what `Started` says. -/
theorem startJob_spec (h : startJob c jobId s = .ok s') : ∃ ev, Started c jobId s s' ev := by
  unfold startJob at h
  obtain ⟨t, ht⟩ : ∃ t : RunnerState, t =
      { allocate c jobId (s.log (.start jobId)) with
        preempted := (allocate c jobId (s.log (.start jobId))).preempted.filter (· ≠ jobId) } :=
    ⟨_, rfl⟩
  simp only [← ht] at h
  obtain ⟨fifos, mailboxes, collector, hframe⟩ := dequeueFromRunner_frame (c := c) jobId t
  have hfifo := fun key => dequeueFromRunner_fifoAt (c := c) jobId key t
  have hpending := fun key stream => dequeueFromRunner_pendingAt (c := c) jobId key stream t
  have hshape := dequeueFromRunner_sameShape (c := c) jobId t
  have hverdict := fun a => dequeueFromRunner_verdict (c := c) jobId a t
  have hbooks := dequeueFromRunner_books (c := c) jobId t
  rw [hframe] at h hfifo hpending hshape hverdict hbooks
  simp only [bind_eq_ok] at h
  obtain ⟨k, hactivate, ⟨ev, k'⟩, hschedule, heq⟩ := h
  cases heq
  subst ht
  refine ⟨ev, rfl, rfl, rfl, rfl, rfl, hfifo, hpending,
    ⟨hshape.capacityAt, hshape.mailboxes⟩, ⟨k, hactivate, hschedule⟩,
    fun a => ?_, ⟨(hverdict "").2, rfl⟩, rfl, ⟨hbooks.resource, hbooks.ofClass, fun a => ?_⟩,
    rfl, rfl⟩
  · refine (MetricsCollector.verdict_update_of_eq (fun r => ?_) a).trans (hverdict a).1
    split_ifs <;> rfl
  · refine (MetricsCollector.profile_update_of_eq (fun r => ?_) a).trans (hbooks.profile a)
    split_ifs <;> rfl

/-! ### Preemption -/

/-- The FIFO of a state after a preempted job was put back at its head. -/
def fifoAfterReturn (c : CompiledScenario) (jobId key : String) (s : RunnerCore) : List String :=
  if IsFifo c jobId ∧ key = fifoKeyOf c jobId ∧ (s.capacityAt key).isSome then
    jobId :: s.fifoAt key
  else s.fifoAt key

/-- The execution segment of a running job ends and is booked as busy time. -/
structure Booked (c : CompiledScenario) (jobId : String) (s s' : RunnerCore) : Prop where
  startTimes : s'.startTimes = s.startTimes.erase jobId
  resource : s'.collector.resourceIntervals = (s.collector.recordResourceBusy "compute"
    ((s.startTimes.get? jobId).getD s.now) s.now (some (classFor c jobId).id)).resourceIntervals
  ofClass : s'.collector.classResourceIntervals = (s.collector.recordResourceBusy "compute"
    ((s.startTimes.get? jobId).getD s.now) s.now
    (some (classFor c jobId).id)).classResourceIntervals
  profile : ∀ a, s'.profile a = s.profile a

/-- What preempting a running job does; `ev` is its cancelled completion event. -/
structure Preempted (c : CompiledScenario) (jobId : String) (s s' : RunnerState)
    (ev : RunnerEvent) : Prop where
  history : s'.history = (.preempt jobId, s.toRunnerCore) :: s.history
  used : s'.resourceUsed = giveUnits s.resourceUsed (requirements c jobId)
  running : s'.running = s.running.erase jobId
  preempted : s'.preempted = s.preempted.insert jobId
  preemptedRemaining : s'.preemptedRemaining = s.preemptedRemaining.insert jobId
    (match s.kernel.jobs.get? jobId with
      | some job => job.remainingPs
      | none => 0)
  kernel : s'.kernel = hideJob c jobId (s.kernel.cancelEvent ev)
  fifoAt : ∀ key, s'.fifoAt key = fifoAfterReturn c jobId key s.toRunnerCore
  pendingAt : ∀ key stream, s'.pendingAt key stream = s.pendingAt key stream
  shape : SameShape s.toRunnerCore s'.toRunnerCore
  verdict : ∀ a, s'.verdict a = s.verdict a
  recovery : s'.collector.recoveryTimePs = s.collector.recoveryTimePs ∧
    s'.recoveryRecorded = s.recoveryRecorded
  booked : Booked c jobId s.toRunnerCore s'.toRunnerCore
  reserved : SameAdmission s.toRunnerCore s'.toRunnerCore

@[simp] theorem putBack_contents (jobId : String) (q : BoundedFIFO String) :
    (putBack jobId q).contents = jobId :: q.contents := rfl

@[simp] theorem putBack_capacity (jobId : String) (q : BoundedFIFO String) :
    (putBack jobId q).capacity = q.capacity := rfl

/-- Putting a job back touches no state besides the FIFO of its class. -/
theorem requeue_cases (jobId : String) (s : RunnerState) :
    (¬IsFifo c jobId ∧ requeue c jobId s = s) ∨
    (IsFifo c jobId ∧ requeue c jobId s =
      { s with fifoQueues := s.fifoQueues.modify (fifoKeyOf c jobId) (putBack jobId) }) := by
  unfold requeue IsFifo
  dsimp only
  split
  · next h => exact Or.inr ⟨h, rfl⟩
  · next h => exact Or.inl ⟨by simp [h], rfl⟩

theorem requeue_fifoAt (jobId key : String) (s : RunnerState) :
    (requeue c jobId s).fifoAt key = fifoAfterReturn c jobId key s.toRunnerCore := by
  unfold fifoAfterReturn
  rcases requeue_cases (c := c) jobId s with ⟨hF, h⟩ | ⟨hF, h⟩
  · rw [h, if_neg fun hh => hF hh.1]
  · rw [h]
    simp only [RunnerCore.fifoAt, RunnerCore.capacityAt, Dict.get?_modify]
    by_cases hkey : key = fifoKeyOf c jobId
    · subst hkey
      rcases Option.eq_none_or_eq_some (s.fifoQueues.get? (fifoKeyOf c jobId)) with hq | ⟨q, hq⟩
      · simp [hq]
      · simp [hq, hF]
    · simp [hkey]

theorem requeue_sameShape (jobId : String) (s : RunnerState) :
    SameShape s.toRunnerCore (requeue c jobId s).toRunnerCore := by
  rcases requeue_cases (c := c) jobId s with ⟨_, h⟩ | ⟨_, h⟩
  · rw [h]
    exact SameShape.refl _
  · rw [h]
    refine ⟨fun key => ?_, fun _ => Iff.rfl⟩
    simp only [RunnerCore.capacityAt, Dict.get?_modify]
    by_cases hkey : key = fifoKeyOf c jobId
    · subst hkey
      cases s.fifoQueues.get? (fifoKeyOf c jobId) <;> simp
    · simp [hkey]

/-- Preempting a running job does what `Preempted` says. -/
theorem preemptJob_spec {ev : RunnerEvent} (h : s.running.get? jobId = some ev) :
    Preempted c jobId s (preemptJob c jobId s) ev := by
  unfold preemptJob
  simp only [h]
  have hcol := s.collector.verdict_recordResourceBusy "compute"
    ((s.startTimes.get? jobId).getD s.kernel.nowPs) s.kernel.nowPs (some (classFor c jobId).id)
  -- the state before the job is put back into its queue
  obtain ⟨t, ht⟩ : ∃ t : RunnerState, t =
    { releaseResources c jobId
      { s.log (.preempt jobId) with
        running := s.running.erase jobId
        kernel := hideJob c jobId (s.kernel.cancelEvent ev)
        startTimes := s.startTimes.erase jobId
        collector := s.collector.recordResourceBusy "compute"
          ((s.startTimes.get? jobId).getD s.kernel.nowPs) s.kernel.nowPs
          (some (classFor c jobId).id)
        preemptedRemaining := s.preemptedRemaining.insert jobId
          (match s.kernel.jobs.get? jobId with
            | some job => job.remainingPs
            | none => 0) } with
      preempted := s.preempted.insert jobId } := ⟨_, rfl⟩
  have hfifo := fun key => requeue_fifoAt (c := c) jobId key t
  have hshape := requeue_sameShape (c := c) jobId t
  have hspec : Preempted c jobId s (requeue c jobId t) ev := by
    rcases requeue_cases (c := c) jobId t with ⟨_, hr⟩ | ⟨_, hr⟩
    all_goals
      rw [hr] at hfifo hshape ⊢
      subst ht
      exact ⟨rfl, rfl, rfl, rfl, rfl, rfl, hfifo, fun _ _ => rfl,
        ⟨hshape.capacityAt, hshape.mailboxes⟩, hcol.1, ⟨hcol.2, rfl⟩,
        ⟨rfl, rfl, rfl, MetricsCollector.profile_recordResourceBusy _ _ _ _ _⟩, ⟨rfl, rfl⟩⟩
  rw [ht] at hspec
  exact hspec

/-! ### Completion -/

/-- The reservation of a job is given back if it has one. -/
structure ReservationReleased (jobId : String) (s s' : RunnerCore) : Prop where
  admission : s'.admission =
    if jobId ∈ s.admitted then (s.admission.release jobId).2 else s.admission
  admitted : s'.admitted = s.admitted.filter (· ≠ jobId)

/-- Releasing a reservation touches nothing besides admission control. -/
theorem releaseAdmission_frame (jobId : String) (s : RunnerState) :
    ∃ admission admitted, releaseAdmission jobId s =
        { s with admission := admission, admitted := admitted } ∧
      ReservationReleased jobId s.toRunnerCore (releaseAdmission jobId s).toRunnerCore := by
  unfold releaseAdmission
  split_ifs with hmem
  · refine ⟨_, _, rfl, ?_, rfl⟩
    rw [if_pos hmem]
  · refine ⟨s.admission, s.admitted, rfl, ?_, ?_⟩
    · rw [if_neg hmem]
    · symm
      rw [List.filter_eq_self]
      intro a ha
      refine decide_eq_true ?_
      rintro rfl
      exact hmem ha

/-- What retiring a running job does. -/
structure Retired (c : CompiledScenario) (jobId : String) (s s' : RunnerState) : Prop where
  history : s'.history = (.complete jobId, s.toRunnerCore) :: s.history
  used : s'.resourceUsed = giveUnits s.resourceUsed (requirements c jobId)
  running : s'.running = s.running.erase jobId
  preempted : s'.preempted = s.preempted
  preemptedRemaining : s'.preemptedRemaining = s.preemptedRemaining
  kernel : s'.kernel = suppressComplete jobId s.kernel
  fifoAt : ∀ key, s'.fifoAt key = s.fifoAt key
  pendingAt : ∀ key stream, s'.pendingAt key stream = s.pendingAt key stream
  shape : SameShape s.toRunnerCore s'.toRunnerCore
  verdict : ∀ a, s'.verdict a = if a = jobId then
      (s.verdict a).map fun v => { v with completePs := some s.now, outcome := .completed }
    else s.verdict a
  recovery : s'.collector.recoveryTimePs = s.collector.recoveryTimePs ∧
    s'.recoveryRecorded = s.recoveryRecorded
  booked : Booked c jobId s.toRunnerCore s'.toRunnerCore
  released : ReservationReleased jobId s.toRunnerCore s'.toRunnerCore

/-- Retiring a job does what `Retired` says. -/
theorem retire_spec (jobId : String) (s : RunnerState) :
    Retired c jobId s (retire c jobId s) := by
  have hcol := s.collector.verdict_recordResourceBusy "compute"
    ((s.startTimes.get? jobId).getD s.kernel.nowPs) s.kernel.nowPs (some (classFor c jobId).id)
  unfold retire
  dsimp only
  generalize ht : releaseResources c jobId _ = t
  obtain ⟨admission, admitted, hframe, hreleased⟩ := releaseAdmission_frame jobId t
  rw [hframe] at hreleased ⊢
  rw [← ht] at hreleased ⊢
  refine ⟨rfl, rfl, rfl, rfl, rfl, rfl, fun _ => rfl, fun _ _ => rfl,
    ⟨fun _ => rfl, fun _ => Iff.rfl⟩, fun a => ?_, ⟨hcol.2, rfl⟩, ⟨rfl, rfl, rfl, fun a => ?_⟩,
    hreleased.admission, hreleased.admitted⟩
  · refine (MetricsCollector.verdict_update (g := fun v =>
      { v with completePs := some s.now, outcome := .completed }) (fun _ => rfl) a).trans ?_
    have hbusy : ∀ a, (MetricsCollector.recordResourceBusy _ _ _ _ _).verdict a = s.verdict a :=
      hcol.1
    rw [← hbusy a]
    rfl
  · refine (MetricsCollector.profile_update_of_eq (f := fun r =>
      { r with completePs := some s.now, outcome := .completed }) (fun _ => rfl) a).trans ?_
    exact MetricsCollector.profile_recordResourceBusy _ _ _ _ _ a

/-! ### Arrival -/

/-- The fate of an arriving job. -/
inductive ReceivedCase (c : CompiledScenario) (release : JobRelease) (s s' : RunnerState) : Prop
  /-- Admission control rejects the job. -/
  | rejected (hfifo : ∀ key, s'.fifoAt key = s.fifoAt key)
      (hpending : ∀ key stream, s'.pendingAt key stream = s.pendingAt key stream)
      (hverdict : ∀ a, s'.verdict a = if a = release.jobId then
        some (release.verdict .rejected) else s.verdict a)
  /-- The FIFO of the class is full and drops the job. -/
  | dropped (hF : IsFifo c release.jobId)
      (hfifo : ∀ key, s'.fifoAt key = s.fifoAt key)
      (hpending : ∀ key stream, s'.pendingAt key stream = s.pendingAt key stream)
      (hverdict : ∀ a, s'.verdict a = if a = release.jobId then
        some (release.verdict .dropped) else s.verdict a)
  /-- The FIFO of the class has room and takes the job. -/
  | queued (hF : IsFifo c release.jobId) (capacity : ℕ)
      (hcapacity : s.capacityAt (fifoKeyOf c release.jobId) = some capacity)
      (hroom : (s.fifoAt (fifoKeyOf c release.jobId)).length < capacity)
      (hfifo : ∀ key, s'.fifoAt key = if key = fifoKeyOf c release.jobId then
        s.fifoAt key ++ [release.jobId] else s.fifoAt key)
      (hpending : ∀ key stream, s'.pendingAt key stream = s.pendingAt key stream)
      (hverdict : ∀ a, s'.verdict a = if a = release.jobId then
        some (release.verdict .completed) else s.verdict a)
  /-- The mailbox of the stream takes the job, replacing what was pending there. -/
  | posted (hF : ¬IsFifo c release.jobId)
      (hfifo : ∀ key, s'.fifoAt key = s.fifoAt key)
      (hpending : ∀ key stream, s'.pendingAt key stream =
        if key = mailboxKey (streamOf c release.jobId) ∧ stream = streamOf c release.jobId then
          some release.jobId
        else s.pendingAt key stream)
      (hverdict : ∀ a, s'.verdict a = if a = release.jobId then
          some (release.verdict .completed)
        else if pendingOf c release.jobId s.toRunnerCore = some a then
          (s.verdict a).map fun v => { v with outcome := .replaced }
        else s.verdict a)

/-- The record of an arrived job is filed, without busy time. -/
structure Filed (c : CompiledScenario) (release : JobRelease) (s s' : RunnerCore) : Prop where
  resource : s'.collector.resourceIntervals = s.collector.resourceIntervals
  ofClass : s'.collector.classResourceIntervals = s.collector.classResourceIntervals
  profile : ∀ a, s'.profile a = if a = release.jobId then
      some ⟨release.classId, release.workPs, (classFor c release.jobId).resourceRequirements⟩
    else s.profile a

/-- The admission request that an arrival makes for its job. -/
def admissionRequest (c : CompiledScenario) (jobId : String) : AdmissionRequest :=
  { jobId := jobId
    memoryBytes := (classFor c jobId).memoryBytes
    bandwidthFraction := (classFor c jobId).bandwidthFraction
    priority := (classFor c jobId).priority }

/-- The pending job that an arrival replaces. -/
def replacedBy (c : CompiledScenario) (jobId : String) (s : RunnerCore) : Option String :=
  if IsFifo c jobId then none else pendingOf c jobId s

/-- The reservation of a queued job is committed unless its class is excluded. -/
structure ReservationCommitted (c : CompiledScenario) (jobId : String) (s s' : RunnerCore) :
    Prop where
  admission : s'.admission = if (classFor c jobId).admissionExcluded then s.admission
    else (s.admission.admitRequest (admissionRequest c jobId)).2
  admitted : s'.admitted = if (classFor c jobId).admissionExcluded then s.admitted
    else s.admitted.insert jobId

/-- What an arrival does to the reservations. -/
inductive Reserved (c : CompiledScenario) (release : JobRelease) (s s' : RunnerState) : Prop
  /-- The job is rejected or dropped. -/
  | turnedAway (outcome : JobOutcome) (hne : outcome ≠ .completed)
      (hverdict : s'.verdict release.jobId = some (release.verdict outcome))
      (h : SameAdmission s.toRunnerCore s'.toRunnerCore)
  /-- The job passed its check. The job it replaces gives back its reservation, and then its
  own is committed. -/
  | granted (u : RunnerCore)
      (hverdict : s'.verdict release.jobId = some (release.verdict .completed))
      (hpassed : (classFor c release.jobId).admissionExcluded = false →
        (s.admission.checkRequest (admissionRequest c release.jobId)).admitted = true)
      (hkept : replacedBy c release.jobId s.toRunnerCore = none →
        SameAdmission s.toRunnerCore u)
      (hreplaced : ∀ old, replacedBy c release.jobId s.toRunnerCore = some old →
        ReservationReleased old s.toRunnerCore u)
      (hcommitted : ReservationCommitted c release.jobId u s'.toRunnerCore)

/-- What receiving an arrival does. -/
structure Received (c : CompiledScenario) (release : JobRelease) (s s' : RunnerState) :
    Prop where
  history : s'.history = (.arrive release.jobId, s.toRunnerCore) :: s.history
  used : s'.resourceUsed = s.resourceUsed
  running : s'.running = s.running
  preempted : s'.preempted = s.preempted
  preemptedRemaining : s'.preemptedRemaining = s.preemptedRemaining
  kernel : s'.kernel = s.kernel
  shape : SameShape s.toRunnerCore s'.toRunnerCore
  recovery : s'.collector.recoveryTimePs = s.collector.recoveryTimePs ∧
    s'.recoveryRecorded = s.recoveryRecorded
  fresh : s.verdict release.jobId = none
  fate : ReceivedCase c release s s'
  startTimes : s'.startTimes = s.startTimes
  filed : Filed c release s.toRunnerCore s'.toRunnerCore
  reserved : Reserved c release s s'

/-- Committing a reservation touches nothing besides admission control. Without exclusive
resources it does not depend on what the running jobs hold. -/
private theorem commitAdmission_frame {release : JobRelease} {cls : WorkloadClass}
    (hcls : classFor c release.jobId = cls) (s : RunnerState) :
    ∃ admission admitted, commitAdmission c release cls s =
        { s with admission := admission, admitted := admitted } ∧
      ReservationCommitted c release.jobId s.toRunnerCore
        (commitAdmission c release cls s).toRunnerCore := by
  subst hcls
  unfold commitAdmission
  cases hexcluded : (classFor c release.jobId).admissionExcluded with
  | true =>
    refine ⟨s.admission, s.admitted, rfl, ?_, ?_⟩
    · simp [hexcluded]
    · simp [hexcluded]
  | false =>
    refine ⟨_, _, rfl, ?_, ?_⟩
    · simp only [hexcluded, Bool.false_eq_true, if_false]
      rfl
    · simp [hexcluded]

/-- Replacing a job that neither runs nor is preempted only records its replacement and
releases its admission. -/
private theorem replaceJob_frame (c : CompiledScenario) (old : String) (s : RunnerState)
    (hrunning : s.running.get? old = none) (hpreempted : old ∉ s.preempted) :
    ∃ admission admitted, replaceJob c old s =
        { s with
          collector := s.collector.recordReplace old
          admission := admission
          admitted := admitted } ∧
      ReservationReleased old s.toRunnerCore (replaceJob c old s).toRunnerCore := by
  unfold replaceJob
  obtain ⟨admission, admitted, hframe, hreleased⟩ :=
    releaseAdmission_frame old { s with collector := s.collector.recordReplace old }
  rw [hframe] at hreleased
  simp only [hframe, Dict.contains_eq_false.mpr hrunning, Bool.false_eq_true, if_false, hpreempted]
  exact ⟨admission, admitted, rfl, hreleased.admission, hreleased.admitted⟩

/-- A FIFO class either queues an arrival or drops it. -/
private theorem enqueueArrival_fifo {release : JobRelease} {cls : WorkloadClass} {queued : Bool}
    (hF : cls.queuePolicy = .fifo) (h : enqueueArrival c release cls s = .ok (s', queued)) :
    ∃ q, s.fifoQueues.get? (fifoKey cls.id) = some q ∧
      ((q.size < q.capacity ∧ queued = true ∧ s' =
        { s with
          fifoQueues := s.fifoQueues.insert (fifoKey cls.id) (q.enqueue release.jobId).2
          collector := s.collector.recordQueueSize (q.enqueue release.jobId).2.name
            (q.enqueue release.jobId).2.size s.kernel.nowPs }) ∨
      (q.capacity ≤ q.size ∧ queued = false ∧ s' =
        { s with
          fifoQueues := s.fifoQueues.insert (fifoKey cls.id) (q.enqueue release.jobId).2
          collector := s.collector.recordDrop release.jobId })) := by
  unfold enqueueArrival at h
  rw [hF] at h
  cases hq : s.fifoQueues.get? (fifoKey cls.id) with
  | none => simp [hq] at h
  | some q =>
    refine ⟨q, rfl, ?_⟩
    simp only [hq] at h
    rcases q.enqueue_cases release.jobId with ⟨hroom, hok, _⟩ | ⟨hfull, ⟨e, herror⟩, _⟩
    · left
      cases henqueue : q.enqueue release.jobId with
      | mk r q' =>
        rw [henqueue] at h hok
        simp only at hok
        subst hok
        cases h
        exact ⟨hroom, rfl, rfl⟩
    · right
      cases henqueue : q.enqueue release.jobId with
      | mk r q' =>
        rw [henqueue] at h herror
        simp only at herror
        subst herror
        cases h
        exact ⟨hfull, rfl, rfl⟩

/-- A mailbox class posts an arrival and replaces what was pending. -/
private theorem enqueueArrival_mailbox {release : JobRelease} {cls : WorkloadClass}
    {queued : Bool} (hF : cls.queuePolicy = .mailboxLatest)
    (h : enqueueArrival c release cls s = .ok (s', queued)) :
    ∃ mb t, s.mailboxes.get? (mailboxKey cls.stream) = some mb ∧ queued = true ∧
      t = { s with
        mailboxes := s.mailboxes.insert (mailboxKey cls.stream)
          (mb.put cls.stream release.jobId s.kernel.nowPs).2 } ∧
      s' = match mb.item? cls.stream with
        | none => t
        | some old => replaceJob c old t := by
  unfold enqueueArrival at h
  rw [hF] at h
  cases hmb : s.mailboxes.get? (mailboxKey cls.stream) with
  | none => simp [hmb] at h
  | some mb =>
    simp only [hmb] at h
    cases hp : mb.pending.get? cls.stream with
    | none =>
      simp only [MailboxLatest.peek, MailboxLatest.put, MailboxLatest.hasPending, Dict.contains,
        hp, Option.isSome_none, Option.map_none] at h
      cases h
      refine ⟨mb, _, rfl, rfl, rfl, ?_⟩
      simp [MailboxLatest.item?, MailboxLatest.put, MailboxLatest.hasPending, Dict.contains, hp]
    | some e =>
      simp only [MailboxLatest.peek, MailboxLatest.put, MailboxLatest.hasPending, Dict.contains,
        hp, Option.isSome_some, Option.map_some, Except.ok.injEq, Prod.mk.injEq] at h
      refine ⟨mb, _, rfl, h.2.symm, rfl, ?_⟩
      rw [← h.1]
      simp [MailboxLatest.item?, MailboxLatest.put, MailboxLatest.hasPending, Dict.contains, hp]

/-- Preempting a job keeps the reservations. -/
private theorem preemptJob_reserved (c : CompiledScenario) (jobId : String) (s : RunnerState) :
    SameAdmission s.toRunnerCore (preemptJob c jobId s).toRunnerCore := by
  cases hget : s.running.get? jobId with
  | none =>
    unfold preemptJob
    rw [hget]
    exact ⟨rfl, rfl⟩
  | some ev => exact (preemptJob_spec hget).reserved

/-- Replacing a job gives back its reservation, wherever the job is. -/
private theorem replaceJob_released (c : CompiledScenario) (old : String) (s : RunnerState) :
    ReservationReleased old s.toRunnerCore (replaceJob c old s).toRunnerCore := by
  unfold replaceJob
  obtain ⟨admission, admitted, hframe, hreleased⟩ :=
    releaseAdmission_frame old { s with collector := s.collector.recordReplace old }
  rw [hframe] at hreleased
  simp only [hframe]
  split_ifs with hrunning hpreempted
  · exact ⟨(preemptJob_reserved c old _).admission.trans hreleased.admission,
      (preemptJob_reserved c old _).admitted.trans hreleased.admitted⟩
  · exact ⟨hreleased.admission, hreleased.admitted⟩
  · exact ⟨hreleased.admission, hreleased.admitted⟩

/-- Queueing an arrival gives back at most one reservation. -/
theorem enqueueArrival_reserved {release : JobRelease} {cls : WorkloadClass} {queued : Bool}
    (h : enqueueArrival c release cls s = .ok (s', queued)) :
    SameAdmission s.toRunnerCore s'.toRunnerCore ∨
      ∃ old, ReservationReleased old s.toRunnerCore s'.toRunnerCore := by
  cases hpolicy : cls.queuePolicy with
  | fifo =>
    obtain ⟨q, _, ⟨_, _, rfl⟩ | ⟨_, _, rfl⟩⟩ := enqueueArrival_fifo hpolicy h
    · exact .inl ⟨rfl, rfl⟩
    · exact .inl ⟨rfl, rfl⟩
  | mailboxLatest =>
    obtain ⟨mb, t, _, _, rfl, rfl⟩ := enqueueArrival_mailbox hpolicy h
    cases mb.item? cls.stream with
    | none => exact .inl ⟨rfl, rfl⟩
    | some old =>
      have hreleased := replaceJob_released c old { s with
        mailboxes := s.mailboxes.insert (mailboxKey cls.stream)
          (mb.put cls.stream release.jobId s.kernel.nowPs).2 }
      exact .inr ⟨old, hreleased.admission, hreleased.admitted⟩

/-- The state in which the admission of an arrived job is checked. -/
private def arrived (release : JobRelease) (collector : MetricsCollector) (s : RunnerState) :
    RunnerState :=
  { s.log (.arrive release.jobId) with collector := collector }

section Arrival

variable {release : JobRelease} {cls : WorkloadClass} {collector : MetricsCollector}
  {queued : Bool}

private theorem verdict_arrived
    (hrecord : s.collector.recordArrival (arrivalRecord release cls) = .ok collector) (a : String) :
    collector.verdict a =
      if a = release.jobId then some (release.verdict .completed) else s.verdict a :=
  (MetricsCollector.recordArrival_ok hrecord).2.2 a

/-- Setting the outcome of a fresh record. -/
private theorem verdict_outcome
    (hrecord : s.collector.recordArrival (arrivalRecord release cls) = .ok collector)
    (outcome : JobOutcome) (a : String) :
    (collector.update release.jobId fun r => { r with outcome := outcome }).verdict a =
      if a = release.jobId then some (release.verdict outcome) else s.verdict a := by
  rw [MetricsCollector.verdict_update (g := fun v => { v with outcome := outcome })
    (fun _ => rfl), verdict_arrived hrecord]
  by_cases ha : a = release.jobId
  · simp [ha, JobRelease.verdict]
  · simp [ha]

/-- The record of a fresh arrival is filed. -/
private theorem filed (hcls : classFor c release.jobId = cls)
    (hrecord : s.collector.recordArrival (arrivalRecord release cls) = .ok collector)
    (hresource : s'.collector.resourceIntervals = collector.resourceIntervals)
    (hclass : s'.collector.classResourceIntervals = collector.classResourceIntervals)
    (hprofile : ∀ a, s'.profile a = collector.profile a) :
    Filed c release s.toRunnerCore s'.toRunnerCore := by
  obtain ⟨hresource', hclass', hprofile'⟩ := MetricsCollector.recordArrival_books hrecord
  refine ⟨hresource.trans hresource', hclass.trans hclass', fun a => (hprofile a).trans ?_⟩
  rw [hprofile', hcls]
  rfl

private theorem received_rejected (hcls : classFor c release.jobId = cls)
    (hrecord : s.collector.recordArrival (arrivalRecord release cls) = .ok collector)
    (h : s' = { arrived release collector s with
      collector := collector.recordReject release.jobId }) : Received c release s s' := by
  obtain ⟨hfresh, hrecovery, _⟩ := MetricsCollector.recordArrival_ok hrecord
  subst h
  refine ⟨rfl, rfl, rfl, rfl, rfl, rfl, ⟨fun _ => rfl, fun _ => Iff.rfl⟩, ⟨hrecovery, rfl⟩, hfresh,
    .rejected (fun _ => rfl) (fun _ _ => rfl) (verdict_outcome hrecord .rejected), rfl,
    filed hcls hrecord rfl rfl (MetricsCollector.profile_update_of_eq fun _ => rfl),
    .turnedAway .rejected (by decide) ?_ ⟨rfl, rfl⟩⟩
  exact (verdict_outcome hrecord .rejected _).trans (if_pos rfl)

private theorem received_fifo (hcls : classFor c release.jobId = cls)
    (hpolicy : cls.queuePolicy = .fifo) {t : RunnerState}
    (hpassed : (classFor c release.jobId).admissionExcluded = false →
      (s.admission.checkRequest (admissionRequest c release.jobId)).admitted = true)
    (hrecord : s.collector.recordArrival (arrivalRecord release cls) = .ok collector)
    (henqueue : enqueueArrival c release cls (arrived release collector s) = .ok (t, queued))
    (h : s' = if queued then commitAdmission c release cls t else t) :
    Received c release s s' := by
  obtain ⟨hfresh, hrecovery, hkeep⟩ := MetricsCollector.recordArrival_ok hrecord
  have hF : IsFifo c release.jobId := by rw [IsFifo, hcls, hpolicy]
  have hkey : fifoKeyOf c release.jobId = fifoKey cls.id := by rw [fifoKeyOf, hcls]
  have hshape : ∀ q q' : BoundedFIFO String, s.fifoQueues.get? (fifoKey cls.id) = some q →
      q'.capacity = q.capacity → ∀ key,
      ((s.fifoQueues.insert (fifoKey cls.id) q').get? key).map (·.capacity) =
        s.capacityAt key := by
    intro q q' hq hcap key
    rw [Dict.get?_insert, RunnerCore.capacityAt]
    by_cases hk : key = fifoKey cls.id <;> simp [hk, hq, hcap]
  obtain ⟨q, hq, hcase⟩ := enqueueArrival_fifo hpolicy henqueue
  replace hq : s.fifoQueues.get? (fifoKey cls.id) = some q := hq
  rcases hcase with ⟨hroom, rfl, rfl⟩ | ⟨hfull, rfl, rfl⟩
  · obtain ⟨admission, admitted, hframe, hcommitted⟩ := commitAdmission_frame hcls _
    rw [hframe] at hcommitted
    rw [if_pos rfl, hframe] at h
    subst h
    have hcontents := ((q.enqueue_cases release.jobId).resolve_right
      fun hf => absurd hroom (not_lt.mpr hf.1)).2.2
    refine ⟨rfl, rfl, rfl, rfl, rfl, rfl, ⟨hshape q _ hq (q.enqueue_capacity _),
      fun _ => Iff.rfl⟩, ⟨hrecovery, rfl⟩, hfresh, .queued hF q.capacity ?_ ?_ ?_
      (fun _ _ => rfl) hkeep, rfl, filed hcls hrecord rfl rfl fun _ => rfl,
      .granted s.toRunnerCore ?_ hpassed (fun _ => ⟨rfl, rfl⟩) ?_
        ⟨hcommitted.admission, hcommitted.admitted⟩⟩
    · rw [hkey, RunnerCore.capacityAt, hq]
      rfl
    · rw [hkey, RunnerCore.fifoAt, hq]
      simpa [BoundedFIFO.size_eq_length] using hroom
    · intro key
      rw [hkey]
      simp only [arrived, RunnerCore.fifoAt, Dict.get?_insert]
      by_cases hk : key = fifoKey cls.id
      · simp [hk, hq, hcontents]
      · simp [hk]
        rfl
    · exact (hkeep _).trans (if_pos rfl)
    · intro old hold
      rw [replacedBy, if_pos hF] at hold
      cases hold
  · rw [if_neg Bool.false_ne_true] at h
    subst h
    have hcontents := ((q.enqueue_cases release.jobId).resolve_left
      fun hf => absurd hf.1 (not_lt.mpr hfull)).2.2
    refine ⟨rfl, rfl, rfl, rfl, rfl, rfl, ⟨hshape q _ hq (q.enqueue_capacity _),
      fun _ => Iff.rfl⟩, ⟨hrecovery, rfl⟩, hfresh, .dropped hF (fun key => ?_)
      (fun _ _ => rfl) (verdict_outcome hrecord .dropped), rfl,
      filed hcls hrecord rfl rfl (MetricsCollector.profile_update_of_eq fun _ => rfl),
      .turnedAway .dropped (by decide) ?_ ⟨rfl, rfl⟩⟩
    · simp only [arrived, RunnerCore.fifoAt, Dict.get?_insert]
      by_cases hk : key = fifoKey cls.id
      · simp [hk, hq, hcontents]
      · simp [hk]
        rfl
    · exact (verdict_outcome hrecord .dropped _).trans (if_pos rfl)

private theorem received_mailbox (hcls : classFor c release.jobId = cls)
    (hpolicy : cls.queuePolicy = .mailboxLatest)
    (hpending : ∀ old, pendingOf c release.jobId s.toRunnerCore = some old →
      s.running.get? old = none ∧ old ∉ s.preempted ∧ s.verdict old ≠ none) {t : RunnerState}
    (hpassed : (classFor c release.jobId).admissionExcluded = false →
      (s.admission.checkRequest (admissionRequest c release.jobId)).admitted = true)
    (hrecord : s.collector.recordArrival (arrivalRecord release cls) = .ok collector)
    (henqueue : enqueueArrival c release cls (arrived release collector s) = .ok (t, queued))
    (h : s' = if queued then commitAdmission c release cls t else t) :
    Received c release s s' := by
  obtain ⟨hfresh, hrecovery, hkeep⟩ := MetricsCollector.recordArrival_ok hrecord
  have hF : ¬IsFifo c release.jobId := by
    rw [IsFifo, hcls, hpolicy]
    decide
  have hstream : streamOf c release.jobId = cls.stream := by rw [streamOf, hcls]
  obtain ⟨mb, u, hmb, rfl, hu, ht⟩ := enqueueArrival_mailbox hpolicy henqueue
  replace hmb : s.mailboxes.get? (mailboxKey cls.stream) = some mb := hmb
  obtain ⟨admission, admitted, hframe, hcommitted⟩ := commitAdmission_frame hcls t
  rw [hframe] at hcommitted
  rw [if_pos rfl, hframe] at h
  subst h
  have hput : ∀ key stream,
      ((s.mailboxes.insert (mailboxKey cls.stream)
        (mb.put cls.stream release.jobId s.kernel.nowPs).2).get? key).bind (·.item? stream) =
      if key = mailboxKey (streamOf c release.jobId) ∧ stream = streamOf c release.jobId then
        some release.jobId
      else s.pendingAt key stream := by
    intro key stream
    rw [hstream, Dict.get?_insert, RunnerCore.pendingAt]
    by_cases hk : key = mailboxKey cls.stream
    · by_cases hs : stream = cls.stream <;> simp [hk, hs, hmb]
    · simp [hk]
  have hold : pendingOf c release.jobId s.toRunnerCore = mb.item? cls.stream := by
    rw [pendingOf, hstream, RunnerCore.pendingAt, hmb]
    rfl
  have hreplacedBy : replacedBy c release.jobId s.toRunnerCore = mb.item? cls.stream := by
    rw [replacedBy, if_neg hF, hold]
  have hmailboxes : ∀ key, key ∈ (s.mailboxes.insert (mailboxKey cls.stream)
      (mb.put cls.stream release.jobId s.kernel.nowPs).2).keys ↔ key ∈ s.mailboxes.keys := by
    intro key
    rw [Dict.mem_keys_insert]
    refine ⟨?_, Or.inr⟩
    rintro (rfl | hk)
    · exact Dict.mem_keys.mpr ⟨mb, hmb⟩
    · exact hk
  cases hitem : mb.item? cls.stream with
  | none =>
    rw [hitem] at ht hold hreplacedBy
    subst ht hu
    refine ⟨rfl, rfl, rfl, rfl, rfl, rfl, ⟨fun _ => rfl, hmailboxes⟩, ⟨hrecovery, rfl⟩,
      hfresh, .posted hF (fun _ => rfl) hput fun a => ?_, rfl,
      filed hcls hrecord rfl rfl fun _ => rfl,
      .granted s.toRunnerCore ((hkeep _).trans (if_pos rfl)) hpassed (fun _ => ⟨rfl, rfl⟩) ?_
        ⟨hcommitted.admission, hcommitted.admitted⟩⟩
    · rw [hold]
      simp only [reduceCtorEq, if_false]
      exact hkeep a
    · intro old hsome
      rw [hreplacedBy] at hsome
      cases hsome
  | some old =>
    rw [hitem] at ht hold hreplacedBy
    obtain ⟨hrunning, hpreempted, hknown⟩ := hpending old hold
    obtain ⟨admission', admitted', hreplace, hreleased⟩ :=
      replaceJob_frame c old u (by rw [hu]; exact hrunning)
        (by rw [hu]; exact hpreempted)
    rw [hreplace] at hreleased
    simp only [hreplace] at ht
    subst ht hu
    have hne : old ≠ release.jobId := by
      rintro rfl
      exact hknown hfresh
    have hverdict : ∀ a, (collector.recordReplace old).verdict a =
        if a = release.jobId then some (release.verdict .completed)
        else if pendingOf c release.jobId s.toRunnerCore = some a then
          (s.verdict a).map fun v => { v with outcome := .replaced }
        else s.verdict a := by
      intro a
      have hreplaced : (collector.recordReplace old).verdict a = if a = old then
          (collector.verdict a).map fun v => { v with outcome := .replaced }
        else collector.verdict a := MetricsCollector.verdict_update (fun _ => rfl) a
      refine hreplaced.trans ?_
      rw [hold, verdict_arrived hrecord]
      by_cases ha : a = old
      · subst ha
        simp [hne]
      · have ha' : ¬old = a := fun h => ha h.symm
        simp [ha, ha']
    refine ⟨rfl, rfl, rfl, rfl, rfl, rfl, ⟨fun _ => rfl, hmailboxes⟩, ⟨hrecovery, rfl⟩,
      hfresh, .posted hF (fun _ => rfl) hput hverdict, rfl,
      filed hcls hrecord rfl rfl (MetricsCollector.profile_update_of_eq fun _ => rfl),
      .granted { s.toRunnerCore with admission := admission', admitted := admitted' }
        ((hverdict _).trans (if_pos rfl)) hpassed ?_ ?_
        ⟨hcommitted.admission, hcommitted.admitted⟩⟩
    · intro hnone
      rw [hreplacedBy] at hnone
      cases hnone
    · intro old' hsome
      rw [hreplacedBy] at hsome
      cases hsome
      exact ⟨hreleased.admission, hreleased.admitted⟩

/-- Receiving an arrival does what `Received` says, as long as pending items have not
been started. -/
theorem receive_spec (hcls : classFor c release.jobId = cls)
    (hpending : ∀ old, pendingOf c release.jobId s.toRunnerCore = some old →
      s.running.get? old = none ∧ old ∉ s.preempted ∧ s.verdict old ≠ none)
    (h : receive c release cls s = .ok s') : Received c release s s' := by
  simp only [receive, bind_eq_ok] at h
  obtain ⟨collector, hrecord, h⟩ := h
  split_ifs at h with hreject
  · cases h
    exact received_rejected hcls hrecord rfl
  · obtain ⟨⟨t, queued⟩, henqueue, h⟩ := bind_eq_ok.mp h
    cases h
    have hpassed : (classFor c release.jobId).admissionExcluded = false →
        (s.admission.checkRequest (admissionRequest c release.jobId)).admitted = true := by
      rw [hcls]
      intro hexcluded
      simp only [isRejected, hexcluded, Bool.not_false, Bool.true_and, Bool.not_eq_true',
        Bool.not_eq_false] at hreject
      rw [← hreject, ← hcls]
      rfl
    cases hpolicy : cls.queuePolicy with
    | fifo => exact received_fifo hcls hpolicy hpassed hrecord henqueue rfl
    | mailboxLatest => exact received_mailbox hcls hpolicy hpending hpassed hrecord henqueue rfl

end Arrival

/-! ### Recovery checks and dispatch requests -/

/-- What a recovery check leaves alone. -/
structure Checked (s s' : RunnerState) : Prop where
  history : s'.history = (.check, s.toRunnerCore) :: s.history
  used : s'.resourceUsed = s.resourceUsed
  running : s'.running = s.running
  preempted : s'.preempted = s.preempted
  preemptedRemaining : s'.preemptedRemaining = s.preemptedRemaining
  kernel : s'.kernel = s.kernel
  fifoQueues : s'.fifoQueues = s.fifoQueues
  mailboxes : s'.mailboxes = s.mailboxes
  verdict : ∀ a, s'.verdict a = s.verdict a
  startTimes : s'.startTimes = s.startTimes
  books : SameBooks s.toRunnerCore s'.toRunnerCore
  reserved : SameAdmission s.toRunnerCore s'.toRunnerCore

/-- A recovery check does what `Checked` says. -/
theorem maybeRecordRecovery_spec (s : RunnerState) : Checked s (maybeRecordRecovery c s) := by
  unfold maybeRecordRecovery
  dsimp only
  have hsame : Checked s (s.log .check) :=
    ⟨rfl, rfl, rfl, rfl, rfl, rfl, rfl, rfl, fun _ => rfl, rfl, ⟨rfl, rfl, fun _ => rfl⟩, rfl, rfl⟩
  split_ifs
  · exact hsame
  · exact hsame
  · refine ⟨rfl, rfl, rfl, rfl, rfl, rfl, rfl, rfl, fun a => ?_, rfl, ⟨?_, ?_, fun a => ?_⟩, rfl,
      rfl⟩
    all_goals
      simp only [RunnerCore.verdict, RunnerCore.profile, MetricsCollector.recordRecoveryTime]
      split_ifs <;> rfl
  · exact hsame

/-- Requesting a dispatch inserts one event at the current time. -/
theorem scheduleDispatch_eq_ok : scheduleDispatch s = .ok s' ↔ 0 ≤ s.kernel.nowPs ∧
    s' = { s with kernel := { s.kernel with
      queue := s.kernel.queue.insert s.kernel.nowPs .dispatch (.client .dispatch) } } := by
  simp only [scheduleDispatch, bind_eq_ok, Prod.exists, Kernel.schedule_eq_ok, Except.ok.injEq]
  constructor
  · rintro ⟨_, _, ⟨_, hnow, rfl, rfl⟩, rfl⟩
    exact ⟨hnow, rfl⟩
  · rintro ⟨hnow, rfl⟩
    exact ⟨_, _, ⟨le_rfl, hnow, rfl, rfl⟩, rfl⟩

end Runner

end NpuArc
