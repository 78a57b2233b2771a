import NpuArc.Scheduler.WakeUps

/-!
# A serial dispatcher

A client that runs one job at a time: its callback starts one ready job when no job is
running, and schedules the completion of that job. Between events the unit is idle or busy
with one job, and every event that makes progress takes one step towards the completion of
all jobs.
-/

namespace NpuArc

open Kernel

/-- A choice of one of the ready jobs. -/
structure Choice where
  pick : Kernel String → List JobHandle → JobHandle
  pick_mem : ∀ k ready, ready ≠ [] → pick k ready ∈ ready

/-- The dispatch callback: start a ready job if no job is running, and schedule the event that
completes it. -/
def serialDispatch (choice : Choice) (ready : List JobHandle) (k : Kernel String) :
    Except Error (Kernel String) :=
  if k.jobs.values.any fun j => decide (j.state = .running) then .ok k
  else
    let job := choice.pick k ready
    do
      let (_, k) ← (k.startJob job.jobId).schedule (k.nowPs + job.workPs) .timer (.client job.jobId)
      .ok k

/-- The serial client. Its payloads complete jobs. -/
def serialClient (choice : Choice) : Client String where
  call jobId k := k.completeJob jobId
  dispatchCallback := some (serialDispatch choice)

namespace Serial

variable {choice : Choice} {k k' : Kernel String} {jobId : String} {job : JobHandle}
  {ev : Event (KernelPayload String)} {queue : EventQueue (KernelPayload String)} {t : ℤ}

/-! ### The invariant -/

/-- The phase in which an event with a payload is scheduled. -/
def phaseOf : KernelPayload String → EventPhase
  | .release _ => .release
  | .dispatch => .dispatch
  | .client _ => .timer

/-- The unit is idle: no job is running, no completion is scheduled, and a dispatch is
scheduled if a job is ready. -/
structure Idle (k : Kernel String) : Prop where
  stopped : ∀ jobId job, k.jobs.get? jobId = some job → job.state ≠ .running
  quiet : ∀ e jobId, k.queue.Live e → e.payload ≠ .client jobId
  ready : k.nextDispatchTime ≠ none ↔
    ∃ jobId job, k.jobs.get? jobId = some job ∧ job.state = .ready

/-- The unit is busy with one job, and its completion is the only one that is scheduled. -/
structure Busy (k : Kernel String) (jobId : String) (job : JobHandle)
    (e : Event (KernelPayload String)) : Prop where
  get : k.jobs.get? jobId = some job
  running : job.state = .running
  positive : 0 < job.remainingPs
  alone : ∀ a other, k.jobs.get? a = some other → other.state = .running → a = jobId
  live : k.queue.Live e
  payload : e.payload = .client jobId
  time : e.timePs = k.nowPs + job.remainingPs
  only : ∀ e' a, k.queue.Live e' → e'.payload = .client a → e' = e
  next : k.nextDispatchTime = none

/-- The invariant of a kernel with a serial client between two events. -/
structure Invariant (k : Kernel String) : Prop where
  dependable : Dependable k none
  lifecycle : k.Lifecycle
  callback : k.hasDispatchCallback = true
  known : ∀ jobId job, k.jobs.get? jobId = some job →
    job.jobId = jobId ∧ 0 < job.workPs ∧ job.state ≠ .rejected
  fresh : ∀ jobId job, k.jobs.get? jobId = some job → job.state = .pending ∨ job.state = .ready →
    job.remainingPs = job.workPs
  phased : ∀ e, k.queue.Live e → e.phase = phaseOf e.payload
  unreleased : ∀ e jobId job, k.queue.Live e → e.payload = .release jobId →
    k.jobs.get? jobId = some job → job.state = .pending ∨ job.state = .ready
  requested : ∀ e, k.queue.Live e → e.payload = .dispatch → k.nextDispatchTime ≠ none
  single : ∀ e e', k.queue.Live e → k.queue.Live e' → e.payload = .dispatch →
    e'.payload = .dispatch → e = e'
  /-- Jobs complete after their dependencies. -/
  ordered : ∀ before jobId after job, k.completed = before ++ jobId :: after →
    k.jobs.get? jobId = some job → ∀ d ∈ job.dependsOn, d ∈ before
  mode : Idle k ∨ ∃ jobId job e, Busy k jobId job e

/-! ### Events of the queue -/

theorem Invariant.pop (h : Invariant k) (hpop : k.queue.pop = (some ev, queue)) :
    k.queue.Live ev ∧ (∀ e, queue.Live e ↔ k.queue.Live e ∧ e ≠ ev) ∧ queue.cancelled = [] ∧
      ∀ e, k.queue.Live e → eventKey ev ≤ eventKey e := by
  obtain ⟨hlive, hrest, _, hcancelled⟩ := EventQueue.pop_spec hpop
  refine ⟨hlive, hrest, ?_, fun e he => EventQueue.pop_least hpop he⟩
  exact List.subset_nil.mp (h.dependable.uncancelled ▸ hcancelled)

/-- Two live events at the same time surface in the order of their phases. -/
theorem phase_le_of_key {a b : Event (KernelPayload String)} (hkey : eventKey a ≤ eventKey b)
    (htime : b.timePs ≤ a.timePs) : a.phase.toNat ≤ b.phase.toNat := by
  rcases eventKey_le_iff.mp hkey with hlt | ⟨_, hlt | ⟨heq, _⟩⟩
  · omega
  · exact hlt.le
  · exact heq.le

theorem base_act (hk : Dependable k none) (hl : k.Lifecycle) (action : Kernel.Action String)
    (hnone : action.RejectsNone) (hlive : k.RejectsOnlyLive action) :
    Dependable (k.act action) none ∧ (k.act action).Lifecycle :=
  ⟨(hk.act hnone).1, (evolves_act hlive).lifecycle hl⟩

/-! ### Consuming work -/

private theorem foldlM_consumeStep_stopped {delta : ℤ} {l : List String}
    (h : ∀ a ∈ l, ∀ job, k.jobs.get? a = some job → job.state ≠ .running) :
    l.foldlM (consumeStep delta) k = .ok k := by
  induction l with
  | nil => rfl
  | cons a l ih =>
    have hstep : consumeStep delta k a = .ok k := by
      unfold consumeStep
      cases hget : k.jobs.get? a with
      | none => rfl
      | some job =>
        dsimp only
        rw [if_pos (h a List.mem_cons_self job hget)]
    rw [List.foldlM_cons, hstep, bind_eq_ok_left]
    exact ih fun a ha => h a (List.mem_cons_of_mem _ ha)

/-- Where no job is running, no work is consumed. -/
theorem consumeElapsedWork_stopped {previousTimePs : ℤ}
    (h : ∀ jobId job, k.jobs.get? jobId = some job → job.state ≠ .running) :
    k.consumeElapsedWork previousTimePs = .ok k := by
  unfold consumeElapsedWork
  dsimp only
  split_ifs
  · rfl
  · exact foldlM_consumeStep_stopped fun a _ => h a

/-- Where one job is running, it consumes the work, provided that it leaves no other job
running. -/
theorem consumeElapsedWork_alone {previousTimePs : ℤ} (htime : previousTimePs < k.nowPs)
    (hget : k.jobs.get? jobId = some job)
    (halone : ∀ a other, k.jobs.get? a = some other → other.state = .running → a = jobId)
    (hstep : consumeStep (k.nowPs - previousTimePs) k jobId = .ok k')
    (hafter : ∀ a other, k'.jobs.get? a = some other → other.state = .running → a = jobId) :
    k.consumeElapsedWork previousTimePs = .ok k' := by
  obtain ⟨before, after, hkeys⟩ := List.append_of_mem (Dict.mem_keys.mpr ⟨job, hget⟩)
  have hnodup := k.jobs.keys_nodup
  rw [hkeys, List.nodup_append, List.nodup_cons] at hnodup
  obtain ⟨_, ⟨hnotAfter, _⟩, hnotBefore⟩ := hnodup
  have hfirst : before.foldlM (consumeStep (k.nowPs - previousTimePs)) k = .ok k := by
    apply foldlM_consumeStep_stopped
    intro a ha other hother hrunning
    exact hnotBefore a ha jobId List.mem_cons_self (halone a other hother hrunning)
  have hlast : after.foldlM (consumeStep (k.nowPs - previousTimePs)) k' = .ok k' := by
    apply foldlM_consumeStep_stopped
    intro a ha other hother hrunning
    exact hnotAfter (hafter a other hother hrunning ▸ ha)
  unfold consumeElapsedWork
  dsimp only
  rw [if_neg (by omega), hkeys, List.foldlM_append, hfirst, bind_eq_ok_left, List.foldlM_cons,
    hstep, bind_eq_ok_left, hlast]

theorem consumeStep_partly {delta : ℤ} (hget : k.jobs.get? jobId = some job)
    (hrunning : job.state = .running) (hdelta : delta < job.remainingPs) :
    consumeStep delta k jobId =
      .ok (k.modifyJob jobId fun old => { old with remainingPs := job.remainingPs - delta }) := by
  unfold consumeStep
  rw [hget]
  dsimp only
  rw [if_neg (by simp [hrunning]), if_neg (by omega), min_eq_left hdelta.le]

theorem consumeStep_wholly {delta : ℤ} (hget : k.jobs.get? jobId = some job)
    (hrunning : job.state = .running) (hdelta : job.remainingPs ≤ delta) :
    consumeStep delta k jobId =
      (k.modifyJob jobId fun old => { old with remainingPs := 0 }).completeJobInternal jobId := by
  unfold consumeStep
  rw [hget]
  dsimp only
  rw [if_neg (by simp [hrunning]), min_eq_right hdelta, sub_self, if_pos rfl]

/-! ### Dispatch requests and completions -/

/-- A kernel with a dispatch requested now. -/
def withDispatch (k : Kernel String) : Kernel String :=
  { k with
    queue := k.queue.insert k.nowPs .dispatch .dispatch
    nextDispatchTime := some k.nowPs }

theorem scheduleDispatch_eq (hcallback : k.hasDispatchCallback = true)
    (hnext : k.nextDispatchTime = none) (hnonneg : 0 ≤ k.nowPs) :
    k.scheduleDispatch k.nowPs = .ok (withDispatch k) := by
  unfold scheduleDispatch EventQueue.push
  rw [if_neg (by simp [hcallback]), if_neg (by simp [hnext]), if_neg (by omega)]
  rfl

/-- What completing a running job leaves. -/
structure Finished (k : Kernel String) (jobId : String) (job : JobHandle) (k' : Kernel String) :
    Prop where
  now : k'.nowPs = k.nowPs
  callback : k'.hasDispatchCallback = true
  completed : k'.completed = addCompleted k.completed jobId
  keys : k'.jobs.keys = k.jobs.keys
  get : k'.jobs.get? jobId = some { job with remainingPs := 0, state := .completed }
  /-- Another job stays as it is or is woken. -/
  others : ∀ a, a ≠ jobId → k'.jobs.get? a = k.jobs.get? a ∨
    ∃ other, k.jobs.get? a = some other ∧ other.state = .pending ∧
      k'.jobs.get? a = some { other with state := .ready }
  queue : ((∃ a other, k'.jobs.get? a = some other ∧ other.state = .ready) ∧
      k'.queue = k.queue.insert k.nowPs .dispatch .dispatch ∧ k'.nextDispatchTime = some k.nowPs) ∨
    (∀ a other, k'.jobs.get? a = some other → other.state ≠ .ready) ∧
      k'.queue = k.queue ∧ k'.nextDispatchTime = none

theorem completeJobInternal_finished (hcallback : k.hasDispatchCallback = true)
    (hnext : k.nextDispatchTime = none) (hnonneg : 0 ≤ k.nowPs)
    (hget : k.jobs.get? jobId = some job) :
    ∃ k', k.completeJobInternal jobId = .ok k' ∧ Finished k jobId job k' := by
  have hjobs : ∀ a, (k.completeHandle jobId).wakeDependents.jobs.get? a =
      ((k.completeHandle jobId).jobs.get? a).map fun other =>
        if other.state = .pending ∧
            (k.completeHandle jobId).dependenciesSatisfied other = true ∧
            other.releasePs ≤ k.nowPs then
          { other with state := .ready }
        else other := by
    intro a
    unfold wakeDependents
    rw [Dict.get?_mapValues]
    rfl
  have hself : (k.completeHandle jobId).wakeDependents.jobs.get? jobId =
      some { job with remainingPs := 0, state := .completed } := by
    rw [hjobs]
    simp [completeHandle, modifyJob, hget]
  have hothers : ∀ a, a ≠ jobId → (k.completeHandle jobId).wakeDependents.jobs.get? a =
        k.jobs.get? a ∨
      ∃ other, k.jobs.get? a = some other ∧ other.state = .pending ∧
        (k.completeHandle jobId).wakeDependents.jobs.get? a =
          some { other with state := .ready } := by
    intro a ha
    rw [hjobs]
    have hsame : (k.completeHandle jobId).jobs.get? a = k.jobs.get? a := by
      simp [completeHandle, modifyJob, ha]
    rw [hsame]
    cases hother : k.jobs.get? a with
    | none => exact .inl rfl
    | some other =>
      rw [Option.map_some]
      split_ifs with hwoken
      · exact .inr ⟨other, rfl, hwoken.1, rfl⟩
      · exact .inl rfl
  have hkeys : (k.completeHandle jobId).wakeDependents.jobs.keys = k.jobs.keys := by
    simp [wakeDependents, completeHandle, modifyJob]
  rw [completeJobInternal_eq]
  generalize hk₁ : (k.completeHandle jobId).wakeDependents = k₁ at *
  have hnow : k₁.nowPs = k.nowPs := hk₁ ▸ rfl
  have hcallback₁ : k₁.hasDispatchCallback = true := hk₁ ▸ hcallback
  have hnext₁ : k₁.nextDispatchTime = none := hk₁ ▸ hnext
  have hqueue₁ : k₁.queue = k.queue := hk₁ ▸ rfl
  have hcompleted₁ : k₁.completed = addCompleted k.completed jobId := hk₁ ▸ rfl
  by_cases hready : k₁.hasReady = true
  · rw [if_pos hready, ← hnow, scheduleDispatch_eq hcallback₁ hnext₁ (hnow ▸ hnonneg)]
    refine ⟨_, rfl, hnow, hcallback₁, hcompleted₁, hkeys, hself, hothers, .inl ⟨?_, ?_, ?_⟩⟩
    · obtain ⟨other, hmem, hstate⟩ := List.any_eq_true.mp hready
      obtain ⟨a, hother⟩ := Dict.mem_values.mp hmem
      exact ⟨a, other, hother, by simpa using hstate⟩
    · unfold withDispatch
      rw [hqueue₁, hnow]
    · unfold withDispatch
      rw [hnow]
  · rw [if_neg hready]
    refine ⟨_, rfl, hnow, hcallback₁, hcompleted₁, hkeys, hself, hothers, .inr ⟨?_, hqueue₁, hnext₁⟩⟩
    intro a other hother hstate
    apply hready
    unfold hasReady
    rw [List.any_eq_true]
    exact ⟨other, Dict.mem_values.mpr ⟨a, hother⟩, by simp [hstate]⟩

/-! ### Processing an event -/

theorem processEvent_eq {k₁ : Kernel String} (hpop : k.queue.pop = (some ev, queue))
    (hle : k.nowPs ≤ ev.timePs)
    (hconsume : consumeElapsedWork { k with queue := queue, nowPs := ev.timePs } k.nowPs = .ok k₁)
    (hinvoke : (serialClient choice).host.invoke ev.payload k₁ = .ok k')
    (hprogress : k.madeProgress ev k' = true) :
    (serialClient choice).host.processEvent k = .ok k' :=
  (Host.processEvent_eq_ok (h := (serialClient choice).host) hpop).mpr
    ⟨hle, k₁, hconsume, hinvoke, hprogress⟩

theorem madeProgress_of_lt (h : k.nowPs < k'.nowPs) : k.madeProgress ev k' = true := by
  simp [madeProgress, h]

/-- No dispatch is requested when the next event is later. -/
theorem Invariant.next_none (h : Invariant k) (hpop : k.queue.pop = (some ev, queue))
    (hlater : k.nowPs < ev.timePs) : k.nextDispatchTime = none := by
  cases hnext : k.nextDispatchTime with
  | none => rfl
  | some t =>
    obtain ⟨rfl, e, he, _, htime⟩ := h.dependable.dispatching t hnext (by simp)
    have hle := timePs_le_of_eventKey_le ((h.pop hpop).2.2.2 e he)
    omega

theorem Invariant.no_dispatch (h : Invariant k) (hnext : k.nextDispatchTime = none)
    (e : Event (KernelPayload String)) (he : k.queue.Live e) : e.payload ≠ .dispatch :=
  fun hpayload => h.requested e he hpayload hnext

/-- A running job after some time. -/
def elapse (delta : ℤ) (job : JobHandle) : JobHandle :=
  if job.state = .running then { job with remainingPs := job.remainingPs - delta } else job

@[simp] theorem elapse_state (delta : ℤ) (job : JobHandle) : (elapse delta job).state = job.state := by
  unfold elapse
  split_ifs <;> rfl

theorem elapse_same (delta : ℤ) (job : JobHandle) : (elapse delta job).jobId = job.jobId ∧
    (elapse delta job).workPs = job.workPs ∧ (elapse delta job).dependsOn = job.dependsOn := by
  unfold elapse
  split_ifs <;> exact ⟨rfl, rfl, rfl⟩

theorem elapse_of_not_running {delta : ℤ} (h : job.state ≠ .running) : elapse delta job = job :=
  if_neg h

/-- Time advances to an event before the running job finishes. -/
theorem Invariant.consume_partly (h : Invariant k) (hnow : k.nowPs < t)
    (hlater : ∀ a other, k.jobs.get? a = some other → other.state = .running →
      t < k.nowPs + other.remainingPs) (queue : EventQueue (KernelPayload String)) :
    ∃ jobs, consumeElapsedWork { k with queue := queue, nowPs := t } k.nowPs =
        .ok { k with queue := queue, nowPs := t, jobs := jobs } ∧
      jobs.keys = k.jobs.keys ∧
      ∀ a, jobs.get? a = (k.jobs.get? a).map (elapse (t - k.nowPs)) := by
  rcases h.mode with hidle | ⟨jobId, job, e, hbusy⟩
  · refine ⟨k.jobs, consumeElapsedWork_stopped hidle.stopped, rfl, fun a => ?_⟩
    cases hget : k.jobs.get? a with
    | none => rfl
    | some other => rw [Option.map_some, elapse_of_not_running (hidle.stopped a other hget)]
  · have hdelta : t - k.nowPs < job.remainingPs := by
      have := hlater jobId job hbusy.get hbusy.running
      omega
    have hjobs : ∀ a, (k.jobs.modify jobId fun old =>
        { old with remainingPs := job.remainingPs - (t - k.nowPs) }).get? a =
          (k.jobs.get? a).map (elapse (t - k.nowPs)) := by
      intro a
      rw [Dict.get?_modify]
      by_cases ha : a = jobId
      · subst ha
        rw [if_pos rfl, hbusy.get, Option.map_some, Option.map_some, elapse, if_pos hbusy.running]
      · rw [if_neg ha]
        cases hget : k.jobs.get? a with
        | none => rfl
        | some other =>
          rw [Option.map_some, elapse_of_not_running fun hrunning =>
            ha (hbusy.alone a other hget hrunning)]
    refine ⟨_, ?_, by simp, hjobs⟩
    have hget : ({ k with queue := queue, nowPs := t } : Kernel String).jobs.get? jobId = some job :=
      hbusy.get
    apply consumeElapsedWork_alone (k := { k with queue := queue, nowPs := t }) hnow hget hbusy.alone
    · exact consumeStep_partly hget hbusy.running hdelta
    · intro a other hother hrunning
      have hother : (k.jobs.modify jobId fun old =>
          { old with remainingPs := job.remainingPs - (t - k.nowPs) }).get? a = some other := hother
      rw [hjobs] at hother
      obtain ⟨old, hold, rfl⟩ := Option.map_eq_some_iff.mp hother
      rw [elapse_state] at hrunning
      exact hbusy.alone a old hold hrunning

/-! ### Counting the steps to completion -/

/-- Whether an event is a release. -/
def isRelease (e : Event (KernelPayload String)) : Bool :=
  match e.payload with
  | .release _ => true
  | _ => false

/-- The dispatch and the completion that a job still has before it. -/
def stepsLeft (job : JobHandle) : ℕ :=
  match job.state with
  | .pending => 2
  | .ready => 2
  | .running => 1
  | .completed => 0
  | .rejected => 0

/-- The events that are processed before every job is completed. -/
def roundsLeft (k : Kernel String) : ℕ :=
  (k.queue.heap.filter isRelease).length + k.jobs.total stepsLeft

theorem heap_eq_cons (hcancelled : k.queue.cancelled = [])
    (hpop : k.queue.pop = (some ev, queue)) : k.queue.heap = ev :: queue.heap := by
  have hfirst : (EventQueue.popLoop k.queue.heap k.queue.cancelled).1 = some ev :=
    congrArg Prod.fst hpop
  have hrest : (EventQueue.popLoop k.queue.heap k.queue.cancelled).2.1 = queue.heap :=
    congrArg (fun popped => popped.2.heap) hpop
  rw [hcancelled] at hfirst hrest
  cases hheap : k.queue.heap with
  | nil =>
    rw [hheap] at hfirst
    cases hfirst
  | cons e rest =>
    simp only [hheap, EventQueue.popLoop, List.not_mem_nil, if_false, Option.some.injEq] at hfirst hrest
    rw [hfirst, hrest]

theorem releases_insert {q : EventQueue (KernelPayload String)} {phase : EventPhase}
    {payload : KernelPayload String} (h : ∀ a, payload ≠ .release a) :
    ((q.insert t phase payload).heap.filter isRelease).length =
      (q.heap.filter isRelease).length := by
  have hnot : isRelease ⟨t, phase, q.seq, payload⟩ = false := by
    cases payload with
    | release a => exact absurd rfl (h a)
    | dispatch => rfl
    | client a => rfl
  have hperm : (q.insert t phase payload).heap.Perm (⟨t, phase, q.seq, payload⟩ :: q.heap) :=
    List.perm_orderedInsert _ _ _
  rw [(hperm.filter isRelease).length_eq, List.filter_cons_of_neg (by simp [hnot])]

/-! ### Releases -/

/-- What the release of a job leaves while no job finishes. -/
structure Released (k : Kernel String) (ev : Event (KernelPayload String))
    (queue : EventQueue (KernelPayload String)) (jobId : String) (job : JobHandle)
    (k' : Kernel String) : Prop where
  act : k' = k.act .event
  now : k'.nowPs = ev.timePs
  callback : k'.hasDispatchCallback = true
  completed : k'.completed = k.completed
  keys : k'.jobs.keys = k.jobs.keys
  pending : job.state = .pending
  old : k.jobs.get? jobId = some job
  others : ∀ a, a ≠ jobId → k'.jobs.get? a = (k.jobs.get? a).map (elapse (ev.timePs - k.nowPs))
  outcome : ((∀ d ∈ job.dependsOn, k.Completed d) ∧
      k'.jobs.get? jobId = some { job with state := .ready } ∧
      k'.queue = queue.insert ev.timePs .dispatch .dispatch ∧
      k'.nextDispatchTime = some ev.timePs) ∨
    (∃ d ∈ job.dependsOn, ¬k.Completed d) ∧ k'.jobs.get? jobId = some job ∧ k'.queue = queue ∧
      k'.nextDispatchTime = none

/-- A job that waits for its release is pending until its release time. -/
theorem Invariant.pending_of_release (h : Invariant k) (hlive : k.queue.Live ev)
    (hpayload : ev.payload = .release jobId) (hnow : k.nowPs < ev.timePs) :
    ∃ job, k.jobs.get? jobId = some job ∧ job.state = .pending ∧ ev.timePs = job.releasePs := by
  obtain ⟨job, hget, htime⟩ := h.dependable.releases ev jobId hlive hpayload
  refine ⟨job, hget, ?_, htime⟩
  by_contra hstate
  have hrelease := (h.dependable.started jobId job hget hstate).1
  omega

theorem Invariant.released (choice : Choice) (h : Invariant k) (hpop : k.queue.pop = (some ev, queue))
    (hpayload : ev.payload = .release jobId) (hnow : k.nowPs < ev.timePs)
    (hlater : ∀ a other, k.jobs.get? a = some other → other.state = .running →
      ev.timePs < k.nowPs + other.remainingPs) :
    ∃ job k', (serialClient choice).host.processEvent k = .ok k' ∧
      Released k ev queue jobId job k' := by
  have hlive := (h.pop hpop).1
  obtain ⟨job, hget, hpending, htime⟩ := h.pending_of_release hlive hpayload hnow
  obtain ⟨jobs, hconsume, hkeys, hjobs⟩ := h.consume_partly hnow hlater queue
  generalize hk₁ : ({ k with queue := queue, nowPs := ev.timePs, jobs := jobs } : Kernel String) =
    k₁ at hconsume
  have hjobs₁ : k₁.jobs = jobs := hk₁ ▸ rfl
  have hnow₁ : k₁.nowPs = ev.timePs := hk₁ ▸ rfl
  have hcallback₁ : k₁.hasDispatchCallback = true := hk₁ ▸ h.callback
  have hnext₁ : k₁.nextDispatchTime = none := hk₁ ▸ h.next_none hpop hnow
  have hqueue₁ : k₁.queue = queue := hk₁ ▸ rfl
  have hcompletedList : k₁.completed = k.completed := hk₁ ▸ rfl
  have hget₁ : k₁.jobs.get? jobId = some job := by
    rw [hjobs₁, hjobs, hget, Option.map_some, elapse_of_not_running (by simp [hpending])]
  have hcompleted : ∀ d, k₁.Completed d ↔ k.Completed d := by
    intro d
    unfold Completed
    rw [hjobs₁, hjobs]
    cases k.jobs.get? d with
    | none => simp
    | some other => simp
  have hbegin : k.act .event = k₁.after (k₁.releasePayload jobId) := by
    change k.beginEvent = _
    rw [beginEvent_eq hpop hnow.le hconsume, hpayload]
    rfl
  have hpayload₁ : k₁.releasePayload jobId =
      if k₁.dependenciesSatisfied job then (k₁.makeReady jobId).scheduleDispatch k₁.nowPs
      else .ok k₁ := by
    unfold releasePayload
    rw [getJob_eq_ok.mpr hget₁, bind_eq_ok_left, if_neg (by simp [hpending])]
  have hok : ∀ k', k₁.releasePayload jobId = .ok k' → k'.nowPs = ev.timePs →
      (serialClient choice).host.processEvent k = .ok k' := by
    intro k' hrelease hnow'
    apply processEvent_eq hpop hnow.le hconsume
    · rw [hpayload]
      change (k₁.releasePayload jobId >>= fun k => .ok k) = .ok k'
      rw [hrelease]
      rfl
    · exact madeProgress_of_lt (by omega)
  by_cases hsatisfied : k₁.dependenciesSatisfied job = true
  · have hdispatch : (k₁.makeReady jobId).scheduleDispatch k₁.nowPs =
        .ok (withDispatch (k₁.makeReady jobId)) :=
      scheduleDispatch_eq (k := k₁.makeReady jobId) hcallback₁ hnext₁
        (by have := h.dependable.nonneg; change 0 ≤ k₁.nowPs; omega)
    rw [if_pos hsatisfied, hdispatch] at hpayload₁
    refine ⟨job, _, hok _ hpayload₁ hnow₁, ?_⟩
    constructor
    · rw [hbegin, hpayload₁]
      rfl
    · exact hnow₁
    · exact hcallback₁
    · exact hcompletedList
    · simp [withDispatch, makeReady, modifyJob, hjobs₁, hkeys]
    · exact hpending
    · exact hget
    · intro a ha
      simp [withDispatch, makeReady, modifyJob, ha, hjobs₁, hjobs]
    · left
      refine ⟨?_, ?_, ?_, ?_⟩
      · intro d hd
        apply (hcompleted d).mp
        exact (dependenciesSatisfied_iff (by simp [hpending])).mp hsatisfied d hd
      · simp [withDispatch, makeReady, modifyJob, hget₁, hpending]
      · rw [← hnow₁, ← hqueue₁]
        rfl
      · rw [← hnow₁]
        rfl
  · rw [if_neg hsatisfied] at hpayload₁
    refine ⟨job, _, hok _ hpayload₁ hnow₁, ?_⟩
    constructor
    · rw [hbegin, hpayload₁]
      rfl
    · exact hnow₁
    · exact hcallback₁
    · exact hcompletedList
    · rw [hjobs₁, hkeys]
    · exact hpending
    · exact hget
    · intro a _
      rw [hjobs₁, hjobs]
    · right
      refine ⟨?_, hget₁, hqueue₁, hnext₁⟩
      by_contra hall
      push Not at hall
      apply hsatisfied
      apply (dependenciesSatisfied_iff (by simp [hpending])).mpr
      exact fun d hd => (hcompleted d).mpr (hall d hd)

/-- After a release the job is known as before, up to its state and the time that has passed. -/
theorem Released.get {job : JobHandle} (h : Released k ev queue jobId job k') {a : String}
    {other' : JobHandle} (hget : k'.jobs.get? a = some other') :
    ∃ other, k.jobs.get? a = some other ∧ other'.jobId = other.jobId ∧
      other'.workPs = other.workPs ∧ other'.dependsOn = other.dependsOn ∧
      stepsLeft other' = stepsLeft other ∧
      ((other' = elapse (ev.timePs - k.nowPs) other ∧ other'.state = other.state) ∨
        a = jobId ∧ other = job ∧ other' = { job with state := .ready }) := by
  by_cases ha : a = jobId
  · subst ha
    have helapse : elapse (ev.timePs - k.nowPs) job = job :=
      elapse_of_not_running (by simp [h.pending])
    rcases h.outcome with ⟨_, hready, _⟩ | ⟨_, hsame, _⟩
    · cases hready.symm.trans hget
      exact ⟨job, h.old, rfl, rfl, rfl, by simp [stepsLeft, h.pending], .inr ⟨rfl, rfl, rfl⟩⟩
    · cases hsame.symm.trans hget
      exact ⟨job, h.old, rfl, rfl, rfl, rfl, .inl ⟨helapse.symm, rfl⟩⟩
  · rw [h.others a ha] at hget
    obtain ⟨other, hold, rfl⟩ := Option.map_eq_some_iff.mp hget
    obtain ⟨hid, hwork, hdeps⟩ := elapse_same (ev.timePs - k.nowPs) other
    exact ⟨other, hold, hid, hwork, hdeps, by simp [stepsLeft], .inl ⟨rfl, elapse_state _ _⟩⟩

theorem releases_pop (h : Invariant k) (hpop : k.queue.pop = (some ev, queue)) :
    (k.queue.heap.filter isRelease).length =
      (queue.heap.filter isRelease).length + if isRelease ev then 1 else 0 := by
  rw [heap_eq_cons h.dependable.uncancelled hpop]
  by_cases hrelease : isRelease ev = true
  · rw [List.filter_cons_of_pos hrelease, if_pos hrelease, List.length_cons]
  · rw [List.filter_cons_of_neg hrelease, if_neg hrelease, Nat.add_zero]

/-- A release takes one step towards completion. -/
theorem Released.rounds {job : JobHandle} (hr : Released k ev queue jobId job k') (h : Invariant k)
    (hpop : k.queue.pop = (some ev, queue)) (hpayload : ev.payload = .release jobId) :
    roundsLeft k = roundsLeft k' + 1 := by
  have hjobs : k'.jobs.total stepsLeft = k.jobs.total stepsLeft := by
    apply Dict.total_congr hr.keys
    intro a
    cases hget : k'.jobs.get? a with
    | none =>
      have hnone : k.jobs.get? a = none := by
        apply Dict.not_mem_keys.mp
        rw [← hr.keys]
        exact Dict.not_mem_keys.mpr hget
      rw [hnone]
    | some other' =>
      obtain ⟨other, hold, _, _, _, hsteps, _⟩ := hr.get hget
      rw [hold]
      exact hsteps
  have hqueue : (k'.queue.heap.filter isRelease).length =
      (queue.heap.filter isRelease).length := by
    rcases hr.outcome with ⟨_, _, hqueue, _⟩ | ⟨_, _, hqueue, _⟩
    · rw [hqueue, releases_insert (by simp)]
    · rw [hqueue]
  have hone : isRelease ev = true := by
    unfold isRelease
    rw [hpayload]
  unfold roundsLeft
  rw [releases_pop h hpop, hjobs, hqueue, if_pos hone]
  omega

theorem insert_live_iff {q : EventQueue (KernelPayload String)} (hcancelled : q.cancelled = [])
    {phase : EventPhase} {payload : KernelPayload String} {e : Event (KernelPayload String)} :
    (q.insert t phase payload).Live e ↔ e = ⟨t, phase, q.seq, payload⟩ ∨ q.Live e :=
  EventQueue.insert_live (by simp [hcancelled])

theorem Released.live {e : Event (KernelPayload String)} (hr : Released k ev queue jobId job k')
    (h : Invariant k) (hpop : k.queue.pop = (some ev, queue)) :
    k'.queue.Live e ↔ k.queue.Live e ∧ e ≠ ev ∨
      k'.nextDispatchTime ≠ none ∧ e = ⟨ev.timePs, .dispatch, queue.seq, .dispatch⟩ := by
  obtain ⟨_, hrest, hcancelled, _⟩ := h.pop hpop
  rcases hr.outcome with ⟨_, _, hqueue, hnext⟩ | ⟨_, _, hqueue, hnext⟩
  · rw [hqueue, insert_live_iff hcancelled, hrest, hnext]
    simp [or_comm]
  · rw [hqueue, hrest, hnext]
    simp

/-- The release of a job keeps the invariant if the unit is idle or the job still waits for a
dependency. -/
theorem Released.invariant (hr : Released k ev queue jobId job k') (h : Invariant k)
    (hpop : k.queue.pop = (some ev, queue)) (hnow : k.nowPs < ev.timePs)
    (hpayload : ev.payload = .release jobId)
    (hlater : ∀ a other, k.jobs.get? a = some other → other.state = .running →
      ev.timePs < k.nowPs + other.remainingPs)
    (hfree : Idle k ∨ ∃ d ∈ job.dependsOn, ¬k.Completed d) : Invariant k' := by
  have hnone := h.no_dispatch (h.next_none hpop hnow)
  have hlive : ∀ e, k'.queue.Live e → e.payload ≠ .dispatch → k.queue.Live e ∧ e ≠ ev := by
    intro e he hne
    rcases (hr.live h hpop).mp he with hold | ⟨_, rfl⟩
    · exact hold
    · exact absurd rfl hne
  have hbase := base_act h.dependable h.lifecycle .event trivial trivial
  constructor
  · rw [hr.act]
    exact hbase.1
  · rw [hr.act]
    exact hbase.2
  · exact hr.callback
  · intro a other' hget
    obtain ⟨other, hold, hid, hwork, _, _, hcase⟩ := hr.get hget
    obtain ⟨hid', hwork', hstate'⟩ := h.known a other hold
    refine ⟨hid.trans hid', hwork ▸ hwork', ?_⟩
    rcases hcase with ⟨_, hstate⟩ | ⟨_, _, rfl⟩
    · rw [hstate]
      exact hstate'
    · simp
  · intro a other' hget hstate
    obtain ⟨other, hold, _, hwork, _, _, hcase⟩ := hr.get hget
    rcases hcase with ⟨heq, hsame⟩ | ⟨rfl, rfl, rfl⟩
    · rw [hsame] at hstate
      rw [heq, elapse_of_not_running (by rcases hstate with hs | hs <;> simp [hs])]
      exact h.fresh a other hold hstate
    · exact h.fresh a other hold (.inl hr.pending)
  · intro e he
    rcases (hr.live h hpop).mp he with ⟨hold, _⟩ | ⟨_, rfl⟩
    · exact h.phased e hold
    · rfl
  · intro e a other' he hrelease hget
    obtain ⟨other, hold, _, _, _, _, hcase⟩ := hr.get hget
    rcases hcase with ⟨_, hsame⟩ | ⟨_, _, rfl⟩
    · rw [hsame]
      exact h.unreleased e a other (hlive e he (by simp [hrelease])).1 hrelease hold
    · exact .inr rfl
  · intro e he hdispatch
    rcases (hr.live h hpop).mp he with ⟨hold, _⟩ | ⟨hnext, _⟩
    · exact absurd hdispatch (hnone e hold)
    · exact hnext
  · intro e e' he he' hdispatch hdispatch'
    rcases (hr.live h hpop).mp he with ⟨hold, _⟩ | ⟨_, rfl⟩
    · exact absurd hdispatch (hnone e hold)
    · rcases (hr.live h hpop).mp he' with ⟨hold, _⟩ | ⟨_, rfl⟩
      · exact absurd hdispatch' (hnone e' hold)
      · rfl
  · intro before a after other' hcompleted hget d hd
    obtain ⟨other, hold, _, _, hdeps, _⟩ := hr.get hget
    rw [hr.completed] at hcompleted
    rw [hdeps] at hd
    exact h.ordered before a after other hcompleted hold d hd
  · rcases h.mode with hidle | ⟨runningId, running, e, hbusy⟩
    · left
      constructor
      · intro a other' hget hrunning
        obtain ⟨other, hold, _, _, _, _, hcase⟩ := hr.get hget
        rcases hcase with ⟨_, hsame⟩ | ⟨_, _, rfl⟩
        · rw [hsame] at hrunning
          exact hidle.stopped a other hold hrunning
        · cases hrunning
      · intro e a he hclient
        exact hidle.quiet e a (hlive e he (by simp [hclient])).1 hclient
      · have hnoReady : ¬∃ a other, k.jobs.get? a = some other ∧ other.state = .ready :=
          fun hready => hidle.ready.mpr hready (h.next_none hpop hnow)
        rcases hr.outcome with ⟨_, hready, _, hnext⟩ | ⟨_, hsame, _, hnext⟩
        · rw [hnext]
          exact ⟨fun _ => ⟨jobId, _, hready, rfl⟩, fun _ => by simp⟩
        · rw [hnext]
          constructor
          · exact fun hne => absurd rfl hne
          · rintro ⟨a, other', hget, hready⟩
            exfalso
            obtain ⟨other, hold, _, _, _, _, hcase⟩ := hr.get hget
            rcases hcase with ⟨_, hstate⟩ | ⟨rfl, _, rfl⟩
            · exact hnoReady ⟨a, other, hold, hstate ▸ hready⟩
            · have hpending := hr.pending
              rw [Option.some.inj (hsame.symm.trans hget)] at hpending
              cases hpending
    · right
      have hmissing : ∃ d ∈ job.dependsOn, ¬k.Completed d := by
        rcases hfree with hidle | hmissing
        · exact absurd hbusy.running (hidle.stopped runningId running hbusy.get)
        · exact hmissing
      have hsame : k'.queue = queue ∧ k'.nextDispatchTime = none := by
        rcases hr.outcome with ⟨hall, _⟩ | ⟨_, _, hqueue, hnext⟩
        · obtain ⟨d, hd, hnot⟩ := hmissing
          exact absurd (hall d hd) hnot
        · exact ⟨hqueue, hnext⟩
      have hne : runningId ≠ jobId := by
        rintro rfl
        cases hbusy.get.symm.trans hr.old
        have hpending := hr.pending
        rw [hbusy.running] at hpending
        cases hpending
      have hstill := hlater runningId running hbusy.get hbusy.running
      have helapse : elapse (ev.timePs - k.nowPs) running =
          { running with remainingPs := running.remainingPs - (ev.timePs - k.nowPs) } :=
        if_pos hbusy.running
      refine ⟨runningId, elapse (ev.timePs - k.nowPs) running, e, ?_⟩
      constructor
      · rw [hr.others runningId hne, hbusy.get, Option.map_some]
      · rw [elapse_state]
        exact hbusy.running
      · rw [helapse]
        change 0 < running.remainingPs - (ev.timePs - k.nowPs)
        omega
      · intro a other' hget hrunning
        obtain ⟨other, hold, _, _, _, _, hcase⟩ := hr.get hget
        rcases hcase with ⟨_, hstate⟩ | ⟨_, _, rfl⟩
        · exact hbusy.alone a other hold (hstate ▸ hrunning)
        · cases hrunning
      · apply (hr.live h hpop).mpr
        left
        refine ⟨hbusy.live, ?_⟩
        rintro rfl
        rw [hbusy.payload] at hpayload
        cases hpayload
      · exact hbusy.payload
      · rw [helapse, hr.now, hbusy.time]
        change _ = ev.timePs + (running.remainingPs - (ev.timePs - k.nowPs))
        omega
      · intro e' a he' hclient
        exact hbusy.only e' a (hlive e' he' (by simp [hclient])).1 hclient
      · exact hsame.2

/-! ### Dispatches -/

theorem mem_readyJobs {job : JobHandle} :
    job ∈ k.readyJobs ↔ ∃ jobId, k.jobs.get? jobId = some job ∧ job.state = .ready := by
  unfold readyJobs
  rw [(List.perm_insertionSort _ _).mem_iff, List.mem_filter, Dict.mem_values]
  simp

theorem madeProgress_of_started {old : JobHandle} (hget : k'.jobs.get? jobId = some job)
    (hrunning : job.state = .running) (hold : k.jobs.get? jobId = some old)
    (hstopped : old.state ≠ .running) : k.madeProgress ev k' = true := by
  have hany : k'.jobs.entries.any (fun e => decide (e.2.state = .running) &&
      !(k.jobs.get? e.1).any fun j => decide (j.state = .running)) = true := by
    rw [List.any_eq_true]
    exact ⟨(jobId, job), Dict.get?_eq_some.mp hget, by simp [hrunning, hold, hstopped]⟩
  simp [madeProgress, hany]

/-- What a dispatch leaves that starts a ready job. -/
structure Started (k : Kernel String) (queue : EventQueue (KernelPayload String))
    (jobId : String) (job : JobHandle) (k' : Kernel String) : Prop where
  idle : Idle k
  old : k.jobs.get? jobId = some job
  ready : job.state = .ready
  base : Dependable k' none ∧ k'.Lifecycle
  now : k'.nowPs = k.nowPs
  callback : k'.hasDispatchCallback = true
  completed : k'.completed = k.completed
  jobs : k'.jobs = k.jobs.modify jobId fun old =>
    if old.state = .ready then { old with state := .running } else old
  queue : k'.queue = queue.insert (k.nowPs + job.workPs) .timer (.client jobId)
  next : k'.nextDispatchTime = none

theorem Invariant.started (choice : Choice) (h : Invariant k) (hpop : k.queue.pop = (some ev, queue))
    (hpayload : ev.payload = .dispatch) :
    ∃ jobId job k', (serialClient choice).host.processEvent k = .ok k' ∧
      Started k queue jobId job k' := by
  have hlive := (h.pop hpop).1
  have htime : ev.timePs = k.nowPs := h.dependable.due ev hlive hpayload
  have hnext := h.requested ev hlive hpayload
  have hidle : Idle k := by
    rcases h.mode with hidle | ⟨_, _, _, hbusy⟩
    · exact hidle
    · exact absurd hbusy.next hnext
  have hconsume : consumeElapsedWork { k with queue := queue, nowPs := ev.timePs } k.nowPs =
      .ok { k with queue := queue, nowPs := ev.timePs } := consumeElapsedWork_of_le htime.le
  generalize hk₁ : ({ k with
    queue := queue, nowPs := ev.timePs, nextDispatchTime := none } : Kernel String) = k₁
  have hjobs₁ : k₁.jobs = k.jobs := hk₁ ▸ rfl
  have hnow₁ : k₁.nowPs = k.nowPs := hk₁ ▸ htime
  have hact : k.act .event = k₁ := by
    change k.beginEvent = k₁
    rw [beginEvent_eq hpop htime.ge hconsume, hpayload, ← hk₁]
    rfl
  have hready : k₁.readyJobs ≠ [] := by
    obtain ⟨a, other, hget, hstate⟩ := hidle.ready.mp hnext
    apply List.ne_nil_of_mem
    exact mem_readyJobs.mpr ⟨a, hjobs₁ ▸ hget, hstate⟩
  generalize hjob : choice.pick k₁ k₁.readyJobs = job
  obtain ⟨jobId, hget₁, hstate⟩ : ∃ jobId, k₁.jobs.get? jobId = some job ∧ job.state = .ready :=
    mem_readyJobs.mp (hjob ▸ choice.pick_mem k₁ k₁.readyJobs hready)
  have hget : k.jobs.get? jobId = some job := hjobs₁ ▸ hget₁
  obtain ⟨hid, hwork, _⟩ := h.known jobId job hget
  have hnonneg := h.dependable.nonneg
  have hschedule : (k₁.startJob jobId).schedule (k₁.nowPs + job.workPs) .timer (.client jobId) =
      .ok (⟨k₁.nowPs + job.workPs, .timer, k₁.queue.seq, .client jobId⟩, { k₁.startJob jobId with
        queue := k₁.queue.insert (k₁.nowPs + job.workPs) .timer (.client jobId) }) := by
    apply schedule_eq_ok.mpr
    refine ⟨?_, ?_, rfl, rfl⟩
    · change k₁.nowPs ≤ _
      omega
    · omega
  generalize hk' : ({ k₁.startJob jobId with
      queue := k₁.queue.insert (k₁.nowPs + job.workPs) .timer (.client jobId) } : Kernel String) = k'
    at hschedule
  have hjobs' : k'.jobs = k.jobs.modify jobId fun old =>
      if old.state = .ready then { old with state := .running } else old := by
    rw [← hk', ← hjobs₁]
    rfl
  have hcallback : serialDispatch choice k₁.readyJobs k₁ = .ok k' := by
    have hstopped : ¬(k₁.jobs.values.any fun j => decide (j.state = .running)) = true := by
      rw [hjobs₁, List.any_eq_true]
      rintro ⟨other, hmem, hrunning⟩
      obtain ⟨a, hother⟩ := Dict.mem_values.mp hmem
      exact hidle.stopped a other hother (by simpa using hrunning)
    unfold serialDispatch
    rw [if_neg hstopped]
    dsimp only
    rw [hjob, hid, hschedule]
    rfl
  refine ⟨jobId, job, k', ?_, ?_⟩
  · apply processEvent_eq hpop htime.ge hconsume
    · rw [hpayload]
      rw [Host.invoke_dispatch rfl hk₁.symm hready]
      exact hcallback
    · have hget' : k'.jobs.get? jobId = some { job with state := .running } := by
        rw [hjobs', Dict.get?_modify, if_pos rfl, hget, Option.map_some, if_pos hstate]
      apply madeProgress_of_started hget' rfl hget
      simp [hstate]
  · have hbase := base_act h.dependable h.lifecycle .event trivial trivial
    rw [hact] at hbase
    have hstart := base_act hbase.1 hbase.2 (.call (.startJob jobId)) trivial trivial
    have hbase' := base_act hstart.1 hstart.2
      (.call (.schedule (k₁.nowPs + job.workPs) .timer jobId)) trivial trivial
    have hschedule' : (k₁.startJob jobId).perform
        (.schedule (k₁.nowPs + job.workPs) .timer jobId) = k' := by
      simp only [perform, hschedule]
      rfl
    constructor
    · exact hidle
    · exact hget
    · exact hstate
    · rw [← hschedule']
      exact hbase'
    · rw [← hk']
      exact hnow₁
    · rw [← hk', ← hk₁]
      exact h.callback
    · rw [← hk', ← hk₁]
      rfl
    · exact hjobs'
    · rw [← hk', ← hnow₁, ← hk₁]
    · rw [← hk', ← hk₁]
      rfl

theorem Started.get (hs : Started k queue jobId job k') (a : String) :
    k'.jobs.get? a = if a = jobId then some { job with state := .running } else k.jobs.get? a := by
  rw [hs.jobs, Dict.get?_modify, hs.old, Option.map_some, if_pos hs.ready]

/-- Starting a job takes one step towards completion. -/
theorem Started.rounds (hs : Started k queue jobId job k') (h : Invariant k)
    (hpop : k.queue.pop = (some ev, queue)) (hpayload : ev.payload = .dispatch) :
    roundsLeft k = roundsLeft k' + 1 := by
  have hjobs : k'.jobs.total stepsLeft + 1 = k.jobs.total stepsLeft := by
    have hget : k'.jobs.get? jobId = some { job with state := .running } := by
      rw [hs.get, if_pos rfl]
    have hkeys : k'.jobs.keys = k.jobs.keys := by
      rw [hs.jobs, Dict.keys_modify]
    apply Dict.total_add_one hkeys hs.old hget
    · simp [stepsLeft, hs.ready]
    · intro a ha
      rw [hs.get, if_neg ha]
  have hnone : isRelease ev = false := by
    unfold isRelease
    rw [hpayload]
  unfold roundsLeft
  rw [releases_pop h hpop, hnone, hs.queue, releases_insert (by simp), ← hjobs]
  simp only [Bool.false_eq_true, if_false]
  omega

/-- A job that is dispatched has no release to come. -/
theorem Invariant.no_release_of_ready (h : Invariant k) (hpop : k.queue.pop = (some ev, queue))
    (hpayload : ev.payload = .dispatch) (hget : k.jobs.get? jobId = some job)
    (hready : job.state = .ready) (e : Event (KernelPayload String)) (he : k.queue.Live e) :
    e.payload ≠ .release jobId := by
  intro hrelease
  obtain ⟨hlive, _, _, hleast⟩ := h.pop hpop
  have htime : ev.timePs = k.nowPs := h.dependable.due ev hlive hpayload
  obtain ⟨job', hget', hreleaseTime⟩ := h.dependable.releases e jobId he hrelease
  cases hget.symm.trans hget'
  have hstarted := (h.dependable.started jobId job hget (by simp [hready])).1
  have hphase := phase_le_of_key (hleast e he) (by omega)
  rw [h.phased ev hlive, h.phased e he, hpayload, hrelease] at hphase
  simp [phaseOf, EventPhase.toNat] at hphase

theorem Started.invariant (hs : Started k queue jobId job k') (h : Invariant k)
    (hpop : k.queue.pop = (some ev, queue)) (hpayload : ev.payload = .dispatch) : Invariant k' := by
  obtain ⟨hevent, hrest, hcancelled, _⟩ := h.pop hpop
  have hlive : ∀ e, k'.queue.Live e → k.queue.Live e ∧ e ≠ ev ∨
      e = ⟨k.nowPs + job.workPs, .timer, queue.seq, .client jobId⟩ := by
    intro e he
    rw [hs.queue, insert_live_iff hcancelled] at he
    rcases he with rfl | he
    · exact .inr rfl
    · exact .inl ((hrest e).mp he)
  have hnone : ∀ e, k'.queue.Live e → e.payload ≠ .dispatch := by
    intro e he hdispatch
    rcases hlive e he with ⟨hold, hne⟩ | rfl
    · exact hne (h.single e ev hold hevent hdispatch hpayload)
    · cases hdispatch
  constructor
  · exact hs.base.1
  · exact hs.base.2
  · exact hs.callback
  · intro a other hget
    rw [hs.get] at hget
    split_ifs at hget with ha
    · subst ha
      cases hget
      obtain ⟨hid, hwork, _⟩ := h.known a job hs.old
      exact ⟨hid, hwork, by simp⟩
    · exact h.known a other hget
  · intro a other hget hstate
    rw [hs.get] at hget
    split_ifs at hget with ha
    · cases hget
      simp at hstate
    · exact h.fresh a other hget hstate
  · intro e he
    rcases hlive e he with ⟨hold, _⟩ | rfl
    · exact h.phased e hold
    · rfl
  · intro e a other he hrelease hget
    rw [hs.get] at hget
    rcases hlive e he with ⟨hold, _⟩ | rfl
    · split_ifs at hget with ha
      · subst ha
        exact absurd hrelease (h.no_release_of_ready hpop hpayload hs.old hs.ready e hold)
      · exact h.unreleased e a other hold hrelease hget
    · cases hrelease
  · intro e he hdispatch
    exact absurd hdispatch (hnone e he)
  · intro e e' he _ hdispatch
    exact absurd hdispatch (hnone e he)
  · intro before a after other hcompleted hget d hd
    rw [hs.completed] at hcompleted
    rw [hs.get] at hget
    split_ifs at hget with ha
    · subst ha
      cases hget
      exact h.ordered before a after job hcompleted hs.old d hd
    · exact h.ordered before a after other hcompleted hget d hd
  · right
    have hfresh := h.fresh jobId job hs.old (.inr hs.ready)
    obtain ⟨_, hwork, _⟩ := h.known jobId job hs.old
    refine ⟨jobId, { job with state := .running },
      ⟨k.nowPs + job.workPs, .timer, queue.seq, .client jobId⟩, ?_⟩
    constructor
    · rw [hs.get, if_pos rfl]
    · rfl
    · change 0 < job.remainingPs
      omega
    · intro a other hget hrunning
      rw [hs.get] at hget
      split_ifs at hget with ha
      · exact ha
      · exact absurd hrunning (hs.idle.stopped a other hget)
    · rw [hs.queue, insert_live_iff hcancelled]
      exact .inl rfl
    · rfl
    · change k.nowPs + job.workPs = k'.nowPs + job.remainingPs
      rw [hs.now, hfresh]
    · intro e a he hclient
      rcases hlive e he with ⟨hold, _⟩ | heq
      · exact absurd hclient (hs.idle.quiet e a hold)
      · exact heq
    · exact hs.next

/-! ### Completions -/

/-- Time advances to the instant at which the running job finishes. -/
theorem Invariant.consume_wholly (h : Invariant k) {e : Event (KernelPayload String)}
    (hbusy : Busy k jobId job e) (queue : EventQueue (KernelPayload String)) :
    ∃ k₁, consumeElapsedWork { k with queue := queue, nowPs := e.timePs } k.nowPs = .ok k₁ ∧
      Finished { k with queue := queue, nowPs := e.timePs } jobId job k₁ := by
  have htime := hbusy.time
  have hpositive := hbusy.positive
  have hnonneg := h.dependable.nonneg
  generalize hk₀ : ({ k with queue := queue, nowPs := e.timePs } : Kernel String) = k₀
  have hjobs₀ : k₀.jobs = k.jobs := hk₀ ▸ rfl
  have hnow₀ : k₀.nowPs = e.timePs := hk₀ ▸ rfl
  have hget₀ : k₀.jobs.get? jobId = some job := hjobs₀ ▸ hbusy.get
  have hmodified : (k₀.modifyJob jobId fun old => { old with remainingPs := 0 }).jobs.get? jobId =
      some { job with remainingPs := 0 } := by
    simp [modifyJob, hget₀]
  obtain ⟨k₁, hok, hfinished⟩ := completeJobInternal_finished
    (k := k₀.modifyJob jobId fun old => { old with remainingPs := 0 })
    (hk₀ ▸ h.callback) (hk₀ ▸ hbusy.next) (by change 0 ≤ k₀.nowPs; omega) hmodified
  have hothers : ∀ a, a ≠ jobId → k₁.jobs.get? a = k₀.jobs.get? a ∨
      ∃ other, k₀.jobs.get? a = some other ∧ other.state = .pending ∧
        k₁.jobs.get? a = some { other with state := .ready } := by
    intro a ha
    have hsame : (k₀.modifyJob jobId fun old => { old with remainingPs := 0 }).jobs.get? a =
        k₀.jobs.get? a := by simp [modifyJob, ha]
    rw [← hsame]
    exact hfinished.others a ha
  refine ⟨k₁, ?_, ?_⟩
  · apply consumeElapsedWork_alone (k := k₀) (by omega) hget₀ (hjobs₀ ▸ hbusy.alone)
    · rw [consumeStep_wholly hget₀ hbusy.running (by omega)]
      exact hok
    · intro a other hget hrunning
      by_contra ha
      rcases hothers a ha with hsame | ⟨old, _, _, hwoken⟩
      · rw [hsame, hjobs₀] at hget
        exact ha (hbusy.alone a other hget hrunning)
      · cases hwoken.symm.trans hget
        cases hrunning
  · constructor
    · exact hfinished.now
    · exact hfinished.callback
    · exact hfinished.completed
    · rw [hfinished.keys]
      simp [modifyJob]
    · exact hfinished.get
    · exact hothers
    · exact hfinished.queue

/-- What the completion of the running job leaves. -/
structure Ended (k : Kernel String) (queue : EventQueue (KernelPayload String)) (jobId : String)
    (job : JobHandle) (e : Event (KernelPayload String)) (k' : Kernel String) : Prop where
  act : k' = k.act .event
  busy : Busy k jobId job e
  finished : Finished { k with queue := queue, nowPs := e.timePs } jobId job k'

theorem Invariant.ended (choice : Choice) (h : Invariant k) (hpop : k.queue.pop = (some ev, queue))
    {a : String} (hpayload : ev.payload = .client a) :
    ∃ jobId job k', (serialClient choice).host.processEvent k = .ok k' ∧
      Ended k queue jobId job ev k' := by
  have hlive := (h.pop hpop).1
  obtain ⟨jobId, job, e, hbusy⟩ : ∃ jobId job e, Busy k jobId job e := by
    rcases h.mode with hidle | hbusy
    · exact absurd hpayload (hidle.quiet ev a hlive)
    · exact hbusy
  cases hbusy.only ev a hlive hpayload
  have htime := hbusy.time
  have hpositive := hbusy.positive
  obtain ⟨k', hconsume, hfinished⟩ := h.consume_wholly hbusy queue
  refine ⟨jobId, job, k', ?_, ?_⟩
  · apply processEvent_eq hpop (by omega) hconsume
    · rw [hbusy.payload]
      change k'.completeJob jobId = .ok k'
      unfold completeJob
      rw [getJob_eq_ok.mpr hfinished.get, bind_eq_ok_left, if_pos rfl]
    · apply madeProgress_of_lt
      rw [hfinished.now]
      change k.nowPs < ev.timePs
      omega
  · refine ⟨?_, hbusy, hfinished⟩
    change k' = k.beginEvent
    rw [beginEvent_eq hpop (by omega) hconsume, hbusy.payload]
    rfl

theorem Ended.get {e : Event (KernelPayload String)} (he : Ended k queue jobId job e k') {a : String}
    {other' : JobHandle} (hget : k'.jobs.get? a = some other') :
    (a = jobId ∧ other' = { job with remainingPs := 0, state := .completed }) ∨
      a ≠ jobId ∧ (k.jobs.get? a = some other' ∨
        ∃ other, k.jobs.get? a = some other ∧ other.state = .pending ∧
          other' = { other with state := .ready }) := by
  by_cases ha : a = jobId
  · subst ha
    cases he.finished.get.symm.trans hget
    exact .inl ⟨rfl, rfl⟩
  · right
    refine ⟨ha, ?_⟩
    rcases he.finished.others a ha with hsame | ⟨other, hold, hpending, hwoken⟩
    · rw [hsame] at hget
      exact .inl hget
    · cases hwoken.symm.trans hget
      exact .inr ⟨other, hold, hpending, rfl⟩

theorem Ended.live {e e' : Event (KernelPayload String)} (he : Ended k queue jobId job e k')
    (h : Invariant k) (hpop : k.queue.pop = (some e, queue)) :
    k'.queue.Live e' ↔ k.queue.Live e' ∧ e' ≠ e ∨
      k'.nextDispatchTime ≠ none ∧ e' = ⟨e.timePs, .dispatch, queue.seq, .dispatch⟩ := by
  obtain ⟨_, hrest, hcancelled, _⟩ := h.pop hpop
  rcases he.finished.queue with ⟨_, hqueue, hnext⟩ | ⟨_, hqueue, hnext⟩
  · rw [hqueue, insert_live_iff hcancelled, hrest, hnext]
    simp [or_comm]
  · rw [hqueue, hrest, hnext]
    simp

/-- Completing a job takes one step towards completion. -/
theorem Ended.rounds {e : Event (KernelPayload String)} (he : Ended k queue jobId job e k')
    (h : Invariant k) (hpop : k.queue.pop = (some e, queue)) :
    roundsLeft k = roundsLeft k' + 1 := by
  have hjobs : k'.jobs.total stepsLeft + 1 = k.jobs.total stepsLeft := by
    apply Dict.total_add_one he.finished.keys he.busy.get he.finished.get
    · simp [stepsLeft, he.busy.running]
    · intro a ha
      rcases he.finished.others a ha with hsame | ⟨other, hold, hpending, hwoken⟩
      · rw [hsame]
      · have hold : k.jobs.get? a = some other := hold
        rw [hwoken, hold]
        simp [stepsLeft, hpending]
  have hnone : isRelease e = false := by
    unfold isRelease
    rw [he.busy.payload]
  have hqueue : (k'.queue.heap.filter isRelease).length =
      (queue.heap.filter isRelease).length := by
    rcases he.finished.queue with ⟨_, hqueue, _⟩ | ⟨_, hqueue, _⟩
    · rw [hqueue, releases_insert (by simp)]
    · rw [hqueue]
  unfold roundsLeft
  rw [releases_pop h hpop, hnone, hqueue, ← hjobs]
  simp only [Bool.false_eq_true, if_false]
  omega

/-- A list with a new last element splits before it or at it. -/
private theorem append_singleton_split {l before after : List String} {a b : String}
    (h : l ++ [a] = before ++ b :: after) :
    b = a ∧ before = l ∨ ∃ rest, l = before ++ b :: rest := by
  rcases List.eq_nil_or_concat after with rfl | ⟨rest, last, rfl⟩
  · obtain ⟨hl, hb⟩ := List.append_inj' h rfl
    simp only [List.cons.injEq, and_true] at hb
    exact .inl ⟨hb.symm, hl.symm⟩
  · right
    refine ⟨rest, ?_⟩
    rw [List.concat_eq_append, ← List.cons_append, ← List.append_assoc] at h
    exact (List.append_inj' h rfl).1

theorem Ended.invariant {e : Event (KernelPayload String)} (he : Ended k queue jobId job e k')
    (h : Invariant k) (hpop : k.queue.pop = (some e, queue)) : Invariant k' := by
  have hbase := base_act h.dependable h.lifecycle .event trivial trivial
  have hbusy := he.busy
  have hnone := h.no_dispatch hbusy.next
  have hlive : ∀ e', k'.queue.Live e' → e'.payload ≠ .dispatch → k.queue.Live e' ∧ e' ≠ e := by
    intro e' he' hne
    rcases (he.live h hpop).mp he' with hold | ⟨_, rfl⟩
    · exact hold
    · exact absurd rfl hne
  have hfirst : jobId ∉ k.completed := by
    rw [h.lifecycle.completed_iff, hbusy.get]
    rintro ⟨_, hjob, hcompleted⟩
    cases hjob
    rw [hbusy.running] at hcompleted
    cases hcompleted
  have hcompleted : k'.completed = k.completed ++ [jobId] := by
    rw [he.finished.completed]
    exact if_neg hfirst
  constructor
  · rw [he.act]
    exact hbase.1
  · rw [he.act]
    exact hbase.2
  · exact he.finished.callback
  · intro a other' hget
    rcases he.get hget with ⟨rfl, rfl⟩ | ⟨_, hsame | ⟨other, hold, _, rfl⟩⟩
    · obtain ⟨hid, hwork, _⟩ := h.known a job hbusy.get
      exact ⟨hid, hwork, by simp⟩
    · exact h.known a other' hsame
    · obtain ⟨hid, hwork, _⟩ := h.known a other hold
      exact ⟨hid, hwork, by simp⟩
  · intro a other' hget hstate
    rcases he.get hget with ⟨rfl, rfl⟩ | ⟨_, hsame | ⟨other, hold, hpending, rfl⟩⟩
    · simp at hstate
    · exact h.fresh a other' hsame hstate
    · exact h.fresh a other hold (.inl hpending)
  · intro e' he'
    rcases (he.live h hpop).mp he' with ⟨hold, _⟩ | ⟨_, rfl⟩
    · exact h.phased e' hold
    · rfl
  · intro e' a other' he' hrelease hget
    have hold' := (hlive e' he' (by simp [hrelease])).1
    rcases he.get hget with ⟨rfl, rfl⟩ | ⟨_, hsame | ⟨other, hold, hpending, rfl⟩⟩
    · rcases h.unreleased e' a job hold' hrelease hbusy.get with hstate | hstate
      · rw [hbusy.running] at hstate
        cases hstate
      · rw [hbusy.running] at hstate
        cases hstate
    · exact h.unreleased e' a other' hold' hrelease hsame
    · exact .inr rfl
  · intro e' he' hdispatch
    rcases (he.live h hpop).mp he' with ⟨hold, _⟩ | ⟨hnext, _⟩
    · exact absurd hdispatch (hnone e' hold)
    · exact hnext
  · intro e₁ e₂ he₁ he₂ hdispatch₁ hdispatch₂
    rcases (he.live h hpop).mp he₁ with ⟨hold, _⟩ | ⟨_, rfl⟩
    · exact absurd hdispatch₁ (hnone e₁ hold)
    · rcases (he.live h hpop).mp he₂ with ⟨hold, _⟩ | ⟨_, rfl⟩
      · exact absurd hdispatch₂ (hnone e₂ hold)
      · rfl
  · intro before a after other' hsplit hget d hd
    rw [hcompleted] at hsplit
    rcases append_singleton_split hsplit with ⟨rfl, rfl⟩ | ⟨rest, hrest⟩
    · rcases he.get hget with ⟨_, rfl⟩ | ⟨hne, _⟩
      · apply (h.lifecycle.completed_iff d).mpr
        exact (h.dependable.started a job hbusy.get (by simp [hbusy.running])).2 d hd
      · exact absurd rfl hne
    · rcases he.get hget with ⟨rfl, rfl⟩ | ⟨_, hsame | ⟨other, hold, _, rfl⟩⟩
      · exact h.ordered before a rest job hrest hbusy.get d hd
      · exact h.ordered before a rest other' hrest hsame d hd
      · exact h.ordered before a rest other hrest hold d hd
  · left
    constructor
    · intro a other' hget hrunning
      rcases he.get hget with ⟨_, rfl⟩ | ⟨hne, hsame | ⟨_, _, _, rfl⟩⟩
      · cases hrunning
      · exact hne (hbusy.alone a other' hsame hrunning)
      · cases hrunning
    · intro e' a he' hclient
      obtain ⟨hold, hne⟩ := hlive e' he' (by simp [hclient])
      exact hne (hbusy.only e' a hold hclient)
    · rcases he.finished.queue with ⟨hready, _, hnext⟩ | ⟨hnoReady, _, hnext⟩
      · rw [hnext]
        exact ⟨fun _ => hready, fun _ => by simp⟩
      · rw [hnext]
        constructor
        · exact fun hne => absurd rfl hne
        · rintro ⟨a, other, hget, hstate⟩
          exact absurd hstate (hnoReady a other hget)

/-! ### One step -/

/-- The same jobs with the same dependencies. -/
def SameJobs (k k' : Kernel String) : Prop :=
  ∀ a, (k'.jobs.get? a).map (·.dependsOn) = (k.jobs.get? a).map (·.dependsOn)

private theorem sameJobs_of (hkeys : k'.jobs.keys = k.jobs.keys)
    (hget : ∀ a other', k'.jobs.get? a = some other' →
      ∃ other, k.jobs.get? a = some other ∧ other'.dependsOn = other.dependsOn) :
    SameJobs k k' := by
  intro a
  cases hother : k'.jobs.get? a with
  | none =>
    have hnone : k.jobs.get? a = none := by
      apply Dict.not_mem_keys.mp
      rw [← hkeys]
      exact Dict.not_mem_keys.mpr hother
    rw [hnone]
  | some other' =>
    obtain ⟨other, hold, hdeps⟩ := hget a other' hother
    rw [hold, Option.map_some, Option.map_some, hdeps]

theorem Released.sameJobs (hr : Released k ev queue jobId job k') : SameJobs k k' := by
  apply sameJobs_of hr.keys
  intro a other' hget
  obtain ⟨other, hold, _, _, hdeps, _⟩ := hr.get hget
  exact ⟨other, hold, hdeps⟩

theorem Started.sameJobs (hs : Started k queue jobId job k') : SameJobs k k' := by
  apply sameJobs_of (by rw [hs.jobs, Dict.keys_modify])
  intro a other' hget
  rw [hs.get] at hget
  split_ifs at hget with ha
  · cases hget
    exact ⟨job, ha ▸ hs.old, rfl⟩
  · exact ⟨other', hget, rfl⟩

theorem Ended.sameJobs {e : Event (KernelPayload String)} (he : Ended k queue jobId job e k') :
    SameJobs k k' := by
  apply sameJobs_of he.finished.keys
  intro a other' hget
  rcases he.get hget with ⟨rfl, rfl⟩ | ⟨_, hsame | ⟨other, hold, _, rfl⟩⟩
  · exact ⟨job, he.busy.get, rfl⟩
  · exact ⟨other', hsame, rfl⟩
  · exact ⟨other, hold, rfl⟩

/-- The next event is not the release of a job that disturbs the dispatcher: it is later than
now, no running job finishes at it or before it, and it makes no job ready while another one
is running. -/
def Undisturbed (k : Kernel String) (ev : Event (KernelPayload String)) : Prop :=
  ∀ jobId, ev.payload = .release jobId → k.nowPs < ev.timePs ∧
    ∀ a other, k.jobs.get? a = some other → other.state = .running →
      ev.timePs < k.nowPs + other.remainingPs ∧
        ∃ job, k.jobs.get? jobId = some job ∧ ∃ d ∈ job.dependsOn, ¬k.Completed d

/-- An event that does not disturb the dispatcher is processed and takes one step towards the
completion of all jobs. -/
theorem Invariant.step (choice : Choice) (h : Invariant k) (hpop : k.queue.pop = (some ev, queue))
    (hundisturbed : Undisturbed k ev) :
    ∃ k', (serialClient choice).host.processEvent k = .ok k' ∧ Invariant k' ∧
      SameJobs k k' ∧ roundsLeft k = roundsLeft k' + 1 := by
  cases hpayload : ev.payload with
  | release jobId =>
    obtain ⟨hnow, hrunning⟩ := hundisturbed jobId hpayload
    have hlater : ∀ a other, k.jobs.get? a = some other → other.state = .running →
        ev.timePs < k.nowPs + other.remainingPs := fun a other hget hstate =>
      (hrunning a other hget hstate).1
    obtain ⟨job, k', hok, hr⟩ := h.released choice hpop hpayload hnow hlater
    refine ⟨k', hok, hr.invariant h hpop hnow hpayload hlater ?_, hr.sameJobs,
      hr.rounds h hpop hpayload⟩
    rcases h.mode with hidle | ⟨a, other, e, hbusy⟩
    · exact .inl hidle
    · obtain ⟨_, job', hget, hmissing⟩ := hrunning a other hbusy.get hbusy.running
      cases hr.old.symm.trans hget
      exact .inr hmissing
  | dispatch =>
    obtain ⟨jobId, job, k', hok, hs⟩ := h.started choice hpop hpayload
    exact ⟨k', hok, hs.invariant h hpop hpayload, hs.sameJobs, hs.rounds h hpop hpayload⟩
  | client a =>
    obtain ⟨jobId, job, k', hok, he⟩ := h.ended choice hpop hpayload
    exact ⟨k', hok, he.invariant h hpop, he.sameJobs, he.rounds h hpop⟩

end Serial

end NpuArc
