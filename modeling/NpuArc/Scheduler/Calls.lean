import NpuArc.Scheduler.Kernel

/-!
# Runs of a kernel

A client calls the kernel from outside, from the payloads that it schedules, and from its
dispatch callback, and it moves ready jobs to running. Whatever the client is, its run is a
sequence of such calls and of events that the kernel begins, so a property of every
sequence of these actions is a property of every client.
-/

namespace NpuArc

namespace Kernel

variable {π : Type}

/-- A call of a client. -/
inductive Call (π : Type)
  | registerJob (jobId : String) (workPs releasePs : ℤ) (relativeDeadlinePs : Option ℤ)
      (priorityClass : ℤ) (dependsOn : List String)
  | rejectJob (jobId : String)
  | consumeWork (jobId : String) (durationPs : ℤ)
  | completeJob (jobId : String)
  /-- The client sets the state of a ready job to running. -/
  | startJob (jobId : String)
  | schedule (timePs : ℤ) (phase : EventPhase) (payload : π)

/-- Move a ready job to running. -/
def startJob (k : Kernel π) (jobId : String) : Kernel π :=
  k.modifyJob jobId fun job => if job.state = .ready then { job with state := .running } else job

/-- The kernel after a computation; an exception leaves it as it was. -/
def after (k : Kernel π) : Except Error (Kernel π) → Kernel π
  | .ok k' => k'
  | .error _ => k

/-- The kernel that a call leaves, whether or not it raises an exception. -/
def perform (k : Kernel π) : Call π → Kernel π
  | .registerJob jobId workPs releasePs relativeDeadlinePs priorityClass dependsOn =>
    (k.registerJob jobId workPs releasePs relativeDeadlinePs priorityClass dependsOn).2
  | .rejectJob jobId => k.after (k.rejectJob jobId)
  | .consumeWork jobId durationPs => k.after (k.consumeWork jobId durationPs)
  | .completeJob jobId => k.after (k.completeJob jobId)
  | .startJob jobId => k.startJob jobId
  | .schedule timePs phase payload =>
    k.after ((k.schedule timePs phase (.client payload)).map Prod.snd)

/-- What the kernel does itself with the payload of an event. -/
def ownPayload (k : Kernel π) : KernelPayload π → Kernel π
  | .release jobId => k.after (k.releasePayload jobId)
  | .dispatch => { k with nextDispatchTime := none }
  | .client _ => k

/-- Begin the earliest live event, up to the client's part of its payload: advance time, let
running jobs consume work, and run the kernel's part of the payload. -/
def beginEvent (k : Kernel π) : Kernel π :=
  match k.queue.pop with
  | (none, _) => k
  | (some ev, queue) =>
    if ev.timePs < k.nowPs then { k with queue := queue }
    else
      let k' := { k with queue := queue, nowPs := ev.timePs }
      (k'.after (k'.consumeElapsedWork k.nowPs)).ownPayload ev.payload

theorem beginEvent_eq {k k' : Kernel π} {ev : Event (KernelPayload π)}
    {queue : EventQueue (KernelPayload π)} (hpop : k.queue.pop = (some ev, queue))
    (hle : k.nowPs ≤ ev.timePs)
    (hconsume : consumeElapsedWork { k with queue := queue, nowPs := ev.timePs } k.nowPs =
      .ok k') : k.beginEvent = k'.ownPayload ev.payload := by
  unfold beginEvent
  rw [hpop]
  dsimp only
  rw [if_neg (by omega), hconsume]
  rfl

/-- The registration of a job whose arguments pass the checks. -/
theorem registerJob_eq {k k₁ : Kernel π} {jobId : String} {job : JobHandle}
    {workPs releasePs : ℤ} {relativeDeadlinePs : Option ℤ} {priorityClass : ℤ}
    {dependsOn : List String} (hnamed : jobId ≠ "")
    (hnew : k.jobs.contains jobId = false) (hwork : ¬workPs < 0) (hrelease : ¬releasePs < k.nowPs)
    (hdeadline : ¬relativeDeadlinePs.getD workPs < 0) (hself : jobId ∉ dependsOn)
    (hjob : job = ⟨jobId, releasePs, releasePs + relativeDeadlinePs.getD workPs, workPs, workPs,
      .pending, priorityClass, relativeDeadlinePs.getD workPs, dependsOn⟩)
    (hk₁ : k₁ = { k with jobs := k.jobs.insert jobId job })
    (hcycle : ¬k₁.detectCycle jobId = true) :
    k.registerJob jobId workPs releasePs relativeDeadlinePs priorityClass dependsOn =
      if releasePs = k₁.nowPs then
        if k₁.dependenciesSatisfied job then
          match (k₁.makeReady jobId).scheduleDispatch releasePs with
          | .ok k₃ => (.ok (), k₃)
          | .error e => (.error e, k₁.makeReady jobId)
        else (.ok (), k₁)
      else
        match k₁.queue.push releasePs .release (.release jobId) with
        | .ok (_, queue) => (.ok (), { k₁ with queue := queue })
        | .error e => (.error e, k₁) := by
  subst hjob hk₁
  unfold registerJob
  dsimp only
  rw [if_neg hnamed, hnew, if_neg Bool.false_ne_true, if_neg hwork, if_neg hrelease,
    if_neg hdeadline, if_neg hself]
  exact if_neg hcycle

/-- An action of a run. -/
inductive Action (π : Type)
  | call (call : Call π)
  | event

/-- The kernel after an action. -/
def act (k : Kernel π) : Action π → Kernel π
  | .call call => k.perform call
  | .event => k.beginEvent

/-- The kernel after some actions. -/
def run (k : Kernel π) (actions : List (Action π)) : Kernel π := actions.foldl act k

/-- A new kernel, with or without a dispatch callback. -/
def initial (hasDispatchCallback : Bool) : Kernel π := { hasDispatchCallback := hasDispatchCallback }

@[simp] theorem run_nil (k : Kernel π) : k.run [] = k := rfl

@[simp] theorem run_append (k : Kernel π) (before actions : List (Action π)) :
    k.run (before ++ actions) = (k.run before).run actions := List.foldl_append

@[simp] theorem run_singleton (k : Kernel π) (action : Action π) : k.run [action] = k.act action := rfl

/-- What every action preserves holds throughout a run. -/
theorem run_invariant {P : Kernel π → Prop} {k : Kernel π} {actions : List (Action π)} (h : P k)
    (hstep : ∀ k action, action ∈ actions → P k → P (k.act action)) : P (k.run actions) := by
  induction actions generalizing k with
  | nil => exact h
  | cons action actions ih =>
    apply ih (hstep k action List.mem_cons_self h)
    exact fun k a ha => hstep k a (List.mem_cons_of_mem action ha)

end Kernel

/-! ### Processing events -/

namespace Host

variable {π σ : Type} {h : Host π σ} {s s' : σ}

/-- Processing an event succeeds when the event is not past, its payload succeeds, and it
made progress. -/
theorem processEvent_eq_ok {ev : Event (KernelPayload π)} {queue : EventQueue (KernelPayload π)}
    (hpop : (h.kernel s).queue.pop = (some ev, queue)) :
    h.processEvent s = .ok s' ↔ (h.kernel s).nowPs ≤ ev.timePs ∧
      ∃ k, Kernel.consumeElapsedWork
          { h.kernel s with queue := queue, nowPs := ev.timePs } (h.kernel s).nowPs = .ok k ∧
        h.invoke ev.payload (h.setKernel k s) = .ok s' ∧
        (h.kernel s).madeProgress ev (h.kernel s') = true := by
  unfold processEvent
  rw [hpop]
  dsimp only
  by_cases hpast : ev.timePs < (h.kernel s).nowPs
  · rw [if_pos hpast]
    constructor
    · intro hok
      cases hok
    · rintro ⟨hle, _⟩
      omega
  · rw [if_neg hpast]
    constructor
    · intro hok
      obtain ⟨k, hconsume, hok⟩ := bind_eq_ok.mp hok
      obtain ⟨t, hinvoke, hok⟩ := bind_eq_ok.mp hok
      split_ifs at hok with hprogress
      cases hok
      exact ⟨by omega, k, hconsume, hinvoke, hprogress⟩
    · rintro ⟨_, k, hconsume, hinvoke, hprogress⟩
      simp only [hconsume, hinvoke, bind_eq_ok_left, if_pos hprogress]

theorem processEvent_of_none {queue : EventQueue (KernelPayload π)}
    (hpop : (h.kernel s).queue.pop = (none, queue)) : h.processEvent s = .ok s := by
  unfold processEvent
  rw [hpop]

/-- Whether a kernel has no job left for the rounds of a run. -/
def isDone (k : Kernel π) : Bool :=
  k.jobs.values.all fun j => decide (j.state ≠ .pending ∧ j.state ≠ .ready ∧ j.state ≠ .running)

theorem runUntil_one (hpeek : (h.kernel s).queue.peek ≠ none) :
    h.runUntil none 1 s = h.processEvent s := by
  rw [runUntil]
  cases hcase : (h.kernel s).queue.peek with
  | none => exact absurd hcase hpeek
  | some ev =>
    cases hevent : h.processEvent s with
    | error e => simp [bind_eq_error]
    | ok t => rfl

/-- A run ends where no job is left. -/
theorem runUntilComplete_done {maxTimePs : ℤ} (hdone : isDone (h.kernel s) = true) (n : ℕ) :
    h.runUntilComplete maxTimePs n s = .ok s := by
  cases n with
  | zero => rfl
  | succ n => exact if_pos hdone

/-- A dispatch event calls the callback with the ready jobs, if there are any. -/
theorem invoke_dispatch {callback : List JobHandle → σ → Except Error σ} {s' : σ}
    (hcallback : h.dispatchCallback = some callback)
    (hs' : s' = h.setKernel { h.kernel s with nextDispatchTime := none } s)
    (hready : (h.kernel s').readyJobs ≠ []) :
    h.invoke .dispatch s = callback (h.kernel s').readyJobs s' := by
  subst hs'
  unfold invoke
  dsimp only
  rw [hcallback]
  dsimp only
  split
  · next hnil => exact absurd hnil hready
  · rfl

/-- A run that goes on either finds no event in time or processes one. -/
theorem runUntilComplete_step {maxTimePs : ℤ} (hdone : isDone (h.kernel s) = false) (n : ℕ) :
    ((∀ ev, (h.kernel s).queue.peek = some ev → maxTimePs < ev.timePs) ∧
      h.runUntilComplete maxTimePs (n + 1) s = .ok s) ∨
    ∃ ev, (h.kernel s).queue.peek = some ev ∧ ev.timePs ≤ maxTimePs ∧
      h.runUntilComplete maxTimePs (n + 1) s =
        h.processEvent s >>= h.runUntilComplete maxTimePs n := by
  unfold isDone at hdone
  unfold runUntilComplete
  rw [hdone, if_neg Bool.false_ne_true]
  cases hpeek : (h.kernel s).queue.peek with
  | none => exact .inl ⟨by simp, rfl⟩
  | some ev =>
    dsimp only
    by_cases htime : maxTimePs < ev.timePs
    · left
      refine ⟨?_, if_pos htime⟩
      intro ev' hev'
      cases hev'
      exact htime
    · right
      refine ⟨ev, rfl, by omega, ?_⟩
      rw [if_neg htime, runUntil_one (by simp [hpeek])]

end Host

/-! ### Clients of the kernel -/

/-- A client that keeps no state of its own beside the kernel. -/
structure Client (π : Type) where
  call : π → Kernel π → Except Error (Kernel π)
  dispatchCallback : Option (List JobHandle → Kernel π → Except Error (Kernel π))

namespace Client

variable {π : Type}

/-- The host whose state is the kernel. -/
def host (c : Client π) : Host π (Kernel π) where
  kernel k := k
  setKernel k _ := k
  call := c.call
  dispatchCallback := c.dispatchCallback

/-- What a client does to the kernel is a sequence of calls. -/
structure MadeOfCalls (c : Client π) : Prop where
  call : ∀ payload k k', c.call payload k = .ok k' →
    ∃ calls : List (Kernel.Call π), k' = k.run (calls.map .call)
  callback : ∀ callback ∈ c.dispatchCallback, ∀ ready k k', callback ready k = .ok k' →
    ∃ calls : List (Kernel.Call π), k' = k.run (calls.map .call)

variable {c : Client π} {k k' : Kernel π}

theorem MadeOfCalls.invoke (hc : c.MadeOfCalls) {payload : KernelPayload π}
    (h : c.host.invoke payload k = .ok k') :
    ∃ calls : List (Kernel.Call π), k' = (k.ownPayload payload).run (calls.map .call) := by
  cases payload with
  | release jobId =>
    obtain ⟨k₁, hrelease, h⟩ := bind_eq_ok.mp h
    cases h
    refine ⟨[], ?_⟩
    change k₁ = k.after (k.releasePayload jobId)
    have hrelease : k.releasePayload jobId = .ok k₁ := hrelease
    rw [hrelease]
    rfl
  | dispatch =>
    simp only [Host.invoke, host] at h
    split at h
    · cases h
      exact ⟨[], rfl⟩
    · next callback hcallback =>
      split at h
      · cases h
        exact ⟨[], rfl⟩
      · exact hc.callback callback hcallback _ _ _ h
  | client payload => exact hc.call payload k k' h

/-- An event that a client's kernel processes is an action followed by calls. -/
theorem MadeOfCalls.processEvent (hc : c.MadeOfCalls) (h : c.host.processEvent k = .ok k') :
    ∃ actions, k' = k.run actions := by
  cases hpop : k.queue.pop with
  | mk popped queue =>
  cases popped with
  | none =>
    cases h.symm.trans (Host.processEvent_of_none (h := c.host) hpop)
    exact ⟨[], rfl⟩
  | some ev =>
    obtain ⟨hle, k₁, hconsume, hinvoke, _⟩ :=
      (Host.processEvent_eq_ok (h := c.host) hpop).mp h
    have hconsume : Kernel.consumeElapsedWork { k with queue := queue, nowPs := ev.timePs } k.nowPs =
      .ok k₁ := hconsume
    have hle : k.nowPs ≤ ev.timePs := hle
    have hbegin := Kernel.beginEvent_eq hpop hle hconsume
    obtain ⟨calls, hcalls⟩ := hc.invoke (k := k₁) hinvoke
    refine ⟨.event :: calls.map .call, ?_⟩
    rw [hcalls, ← hbegin]
    rfl

/-- Running a client's kernel is a run. -/
theorem MadeOfCalls.runUntil (hc : c.MadeOfCalls) {endTimePs : Option ℤ} {maxEvents : ℕ}
    (h : c.host.runUntil endTimePs maxEvents k = .ok k') : ∃ actions, k' = k.run actions := by
  induction maxEvents generalizing k with
  | zero =>
    cases h
    exact ⟨[], rfl⟩
  | succ maxEvents ih =>
    rw [Host.runUntil] at h
    split at h
    · cases h
      exact ⟨[], rfl⟩
    · split_ifs at h
      · cases h
        exact ⟨[], rfl⟩
      · obtain ⟨k₁, hevent, hrest⟩ := bind_eq_ok.mp h
        obtain ⟨actions, rfl⟩ := hc.processEvent hevent
        obtain ⟨actions', rfl⟩ := ih hrest
        exact ⟨actions ++ actions', by simp⟩

end Client

end NpuArc
