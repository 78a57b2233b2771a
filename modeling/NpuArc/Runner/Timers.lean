import NpuArc.Runner.Visited

/-!
# Completion timers

The kernel's view of the runner: every live event is an arrival, a dispatch, or the
completion timer of a running job, and a running job has exactly the work left that its
timer announces. Time never passes an event that has not been handled.
-/

namespace NpuArc

namespace Runner

variable {c : CompiledScenario} {s s' : RunnerState}

/-- The events that the runner schedules with phase `dispatch`. -/
def IsDispatchEvent (c : CompiledScenario) (e : RunnerEvent) : Prop :=
  e.phase = .dispatch ∧ (e.payload = .client .dispatch ∨
    ∃ r ∈ c.releases, e.payload = .client (.arrival r) ∧ e.timePs = r.arrivalPs)

/-- An event is the completion timer of a job. -/
def IsTimerOf (jobId : String) (e : RunnerEvent) : Prop :=
  e.phase = .timer ∧ e.payload = .client (.complete jobId)

/-- The handle of a running job: it runs with the work that its timer announces, or the
kernel has completed it at the current instant. -/
def HandleOf (now : ℤ) (e : RunnerEvent) (job : JobHandle) : Prop :=
  job.remainingPs = e.timePs - now ∧
    (job.state = .running ∨ (job.state = .completed ∧ e.timePs = now))

/-- Every job handle is hidden, or belongs to a running job, or is completed. -/
def KnownHandle (c : CompiledScenario) (s : RunnerCore) (jobId : String) (job : JobHandle) :
    Prop :=
  (job.state = .pending ∧ job.releasePs = maxTimePs c + 1) ∨
    (job.state = .running ∧ jobId ∈ s.running.keys) ∨
    (job.state = .completed ∧ jobId ∈ s.kernel.completed)

/-- The events and job handles of the kernel match the running jobs. -/
structure Timers (c : CompiledScenario) (s : RunnerCore) : Prop where
  callback : s.kernel.hasDispatchCallback = false
  cancelled : ∀ n ∈ s.kernel.queue.cancelled, n < s.kernel.queue.seq
  now_nonneg : 0 ≤ s.kernel.nowPs
  future : ∀ e, s.kernel.queue.Live e → s.kernel.nowPs ≤ e.timePs
  event : ∀ e, s.kernel.queue.Live e →
    (∃ jobId, IsTimerOf jobId e ∧ s.running.get? jobId = some e) ∨ IsDispatchEvent c e
  timer : ∀ jobId e, s.running.get? jobId = some e → s.kernel.queue.Live e ∧ IsTimerOf jobId e ∧
    ∃ job, s.kernel.jobs.get? jobId = some job ∧ HandleOf s.kernel.nowPs e job
  handle : ∀ jobId job, s.kernel.jobs.get? jobId = some job → KnownHandle c s jobId job
  remaining : ∀ jobId v, s.preemptedRemaining.get? jobId = some v → 0 ≤ v

/-! ### Popping an event -/

/-- The handle of a job after time advanced by some amount. -/
def advance (delta : ℤ) (job : JobHandle) : JobHandle :=
  if 0 < delta then Kernel.consumeJob delta job else job

/-- What popping the earliest event does to the kernel. -/
structure Advanced (s : RunnerCore) (ev : RunnerEvent) (k : Kernel RunnerPayload) : Prop where
  live : s.kernel.queue.Live ev
  least : ∀ e, s.kernel.queue.Live e → eventKey ev ≤ eventKey e
  now : k.nowPs = ev.timePs
  future : s.kernel.nowPs ≤ ev.timePs
  queue : ∀ e, k.queue.Live e ↔ s.kernel.queue.Live e ∧ e ≠ ev
  seq : k.queue.seq = s.kernel.queue.seq
  cancelled : k.queue.cancelled ⊆ s.kernel.queue.cancelled
  callback : k.hasDispatchCallback = s.kernel.hasDispatchCallback
  jobs : ∀ a, k.jobs.get? a = (s.kernel.jobs.get? a).map (advance (ev.timePs - s.kernel.nowPs))
  completed : ∀ a, a ∈ k.completed ↔ a ∈ s.kernel.completed ∨
    (s.kernel.nowPs < ev.timePs ∧ ∃ job, s.kernel.jobs.get? a = some job ∧
      Kernel.RunsOut (ev.timePs - s.kernel.nowPs) job)
  same : s.kernel.nowPs = ev.timePs → k.jobs = s.kernel.jobs ∧ k.completed = s.kernel.completed
  quiet : k.Quiet

/-- Before the limit the kernel is quiet. -/
theorem Timers.quiet {t : RunnerCore} (h : Timers c t) {k : Kernel RunnerPayload}
    (hcallback : k.hasDispatchCallback = t.kernel.hasDispatchCallback)
    (hjobs : k.jobs = t.kernel.jobs) (hlimit : k.nowPs ≤ maxTimePs c) : k.Quiet where
  callback := hcallback.trans h.callback
  ready jobId job hget := by
    rw [hjobs] at hget
    rcases h.handle jobId job hget with ⟨hs, _⟩ | ⟨hs, _⟩ | ⟨hs, _⟩ <;> simp [hs]
  pending jobId job hget hstate := by
    rw [hjobs] at hget
    rcases h.handle jobId job hget with ⟨_, hr⟩ | ⟨hs, _⟩ | ⟨hs, _⟩
    · omega
    · simp [hs] at hstate
    · simp [hs] at hstate

/-- Popping an event of a kernel in order does what `Advanced` says. -/
theorem Timers.advanced {t : RunnerCore} (h : Timers c t) {ev : RunnerEvent}
    {k : Kernel RunnerPayload} (hpop : Popped c t ev k) : Advanced t ev k := by
  obtain ⟨queue, hqueue, hle, hlimit, hconsume⟩ := hpop
  obtain ⟨hlive, hrest, hseq, hcancelled⟩ := EventQueue.pop_spec hqueue
  have hleast := fun e he => EventQueue.pop_least (e := e) hqueue he
  have hquiet := h.quiet (k := { t.kernel with queue := queue, nowPs := ev.timePs }) rfl rfl hlimit
  by_cases htime : t.kernel.nowPs < ev.timePs
  · obtain ⟨jobs, completed, hresult, hjobs, hcompleted⟩ :=
      Kernel.consumeElapsedWork_of_quiet hquiet htime
    rw [hresult, Except.ok.injEq] at hconsume
    subst hconsume
    have hdelta : 0 < ev.timePs - t.kernel.nowPs := by omega
    refine ⟨hlive, hleast, rfl, hle, hrest, hseq, hcancelled, rfl, fun a => ?_, fun a => ?_,
      fun heq => absurd heq htime.ne, ?_⟩
    · rw [hjobs, show advance (ev.timePs - t.kernel.nowPs) =
        Kernel.consumeJob (ev.timePs - t.kernel.nowPs) from funext fun job => if_pos hdelta]
    · rw [hcompleted]
      simp [htime]
    · refine hquiet.update fun a job ha => ?_
      rw [hjobs] at ha
      obtain ⟨old, hold, rfl⟩ := Option.map_eq_some_iff.mp ha
      rcases Kernel.consumeJob_state (ev.timePs - t.kernel.nowPs) old with heq | hstate
      · exact Or.inl (by rw [heq, hold])
      · exact Or.inr hstate
  · rw [Kernel.consumeElapsedWork_of_le (not_lt.mp htime), Except.ok.injEq] at hconsume
    subst hconsume
    have hdelta : ¬0 < ev.timePs - t.kernel.nowPs := by omega
    have hid : advance (ev.timePs - t.kernel.nowPs) = id := by
      funext job
      exact if_neg hdelta
    exact ⟨hlive, hleast, rfl, hle, hrest, hseq, hcancelled, rfl, fun a => by simp [hid],
      fun a => by simp [htime], fun _ => ⟨rfl, rfl⟩, hquiet⟩

/-- A job whose timer has not come keeps a handle in step with its timer. -/
theorem handleOf_advance {now time : ℤ} {e : RunnerEvent} {job : JobHandle}
    (h : HandleOf now e job) (hnow : now ≤ time) (htime : time ≤ e.timePs) :
    HandleOf time e (advance (time - now) job) := by
  obtain ⟨hrem, hstate⟩ := h
  unfold advance Kernel.consumeJob
  rcases hstate with hrun | ⟨hdone, heq⟩
  · by_cases hdelta : 0 < time - now
    · have hmin : min (time - now) job.remainingPs = time - now := by omega
      rw [if_pos hdelta, if_pos hrun, hmin]
      split_ifs with hzero
      · exact ⟨by simp only; omega, Or.inr ⟨rfl, by omega⟩⟩
      · exact ⟨by simp only; omega, Or.inl hrun⟩
    · rw [if_neg hdelta]
      exact ⟨by omega, Or.inl hrun⟩
  · have hdelta : ¬0 < time - now := by omega
    rw [if_neg hdelta]
    exact ⟨by omega, Or.inr ⟨hdone, by omega⟩⟩

/-- The kernel after a pop matches the running jobs, except that the popped event is no
longer in the queue. -/
structure TimersBut (c : CompiledScenario) (ev : RunnerEvent) (s : RunnerCore) : Prop where
  callback : s.kernel.hasDispatchCallback = false
  cancelled : ∀ n ∈ s.kernel.queue.cancelled, n < s.kernel.queue.seq
  now_nonneg : 0 ≤ s.kernel.nowPs
  future : ∀ e, s.kernel.queue.Live e → s.kernel.nowPs ≤ e.timePs
  event : ∀ e, s.kernel.queue.Live e → e ≠ ev ∧
    ((∃ jobId, IsTimerOf jobId e ∧ s.running.get? jobId = some e) ∨ IsDispatchEvent c e)
  timer : ∀ jobId e, s.running.get? jobId = some e → (e ≠ ev → s.kernel.queue.Live e) ∧
    IsTimerOf jobId e ∧
    ∃ job, s.kernel.jobs.get? jobId = some job ∧ HandleOf s.kernel.nowPs e job
  handle : ∀ jobId job, s.kernel.jobs.get? jobId = some job → KnownHandle c s jobId job
  remaining : ∀ jobId v, s.preemptedRemaining.get? jobId = some v → 0 ≤ v

theorem Timers.pop {t : RunnerState} (h : Timers c t.toRunnerCore) {ev : RunnerEvent}
    {k : Kernel RunnerPayload} (hpop : Popped c t.toRunnerCore ev k) :
    TimersBut c ev { t with kernel := k }.toRunnerCore := by
  have hadv := h.advanced hpop
  have htime : ∀ e, t.kernel.queue.Live e → ev.timePs ≤ e.timePs :=
    fun e he => timePs_le_of_eventKey_le (hadv.least e he)
  refine ⟨hadv.callback.trans h.callback, ?_, ?_, ?_, ?_, ?_, ?_, h.remaining⟩
  · intro n hn
    have hlt := h.cancelled n (hadv.cancelled hn)
    change n < k.queue.seq
    rwa [hadv.seq]
  · change 0 ≤ k.nowPs
    rw [hadv.now]
    exact h.now_nonneg.trans hadv.future
  · intro e he
    change k.nowPs ≤ e.timePs
    rw [hadv.now]
    exact htime e ((hadv.queue e).mp he).1
  · intro e he
    obtain ⟨hlive, hne⟩ := (hadv.queue e).mp he
    exact ⟨hne, h.event e hlive⟩
  · intro jobId e he
    obtain ⟨hlive, htimer, job, hjob, hhandle⟩ := h.timer jobId e he
    refine ⟨fun hne => (hadv.queue e).mpr ⟨hlive, hne⟩, htimer,
      advance (ev.timePs - t.kernel.nowPs) job, ?_, ?_⟩
    · change k.jobs.get? jobId = _
      rw [hadv.jobs, hjob]
      rfl
    · change HandleOf k.nowPs e _
      rw [hadv.now]
      exact handleOf_advance hhandle hadv.future (htime e hlive)
  · intro jobId job' hget
    change k.jobs.get? jobId = some job' at hget
    rw [hadv.jobs] at hget
    obtain ⟨job, hjob, rfl⟩ := Option.map_eq_some_iff.mp hget
    have hknown := h.handle jobId job hjob
    have hcompleted := (hadv.completed jobId).mpr
    unfold advance Kernel.consumeJob
    split_ifs with hdelta hrun hout
    · exact Or.inr (Or.inr ⟨rfl, hcompleted (Or.inr ⟨by omega, job, hjob, hrun, hout⟩)⟩)
    · rcases hknown with ⟨hs, _⟩ | ⟨_, hr⟩ | ⟨hs, _⟩
      · simp [hrun] at hs
      · exact Or.inr (Or.inl ⟨hrun, hr⟩)
      · simp [hrun] at hs
    all_goals
      rcases hknown with hp | hr | ⟨hs, hm⟩
      · exact Or.inl hp
      · exact Or.inr (Or.inl hr)
      · exact Or.inr (Or.inr ⟨hs, hcompleted (Or.inl hm)⟩)

/-- A popped event that is no timer leaves all timers in place. -/
theorem TimersBut.timers {ev : RunnerEvent} {t : RunnerCore} (h : TimersBut c ev t)
    (hev : ∀ jobId, t.running.get? jobId ≠ some ev) : Timers c t where
  callback := h.callback
  cancelled := h.cancelled
  now_nonneg := h.now_nonneg
  future := h.future
  event e he := (h.event e he).2
  timer jobId e he := by
    obtain ⟨hlive, hrest⟩ := h.timer jobId e he
    refine ⟨hlive ?_, hrest⟩
    rintro rfl
    exact hev jobId he
  handle := h.handle
  remaining := h.remaining

/-! ### Starting a job -/

/-- Activating a known job with work left makes its handle a running one and touches no
other handle. -/
theorem activate_ok {t : RunnerCore} (h : Timers c t) {jobId : String} (hid : jobId ≠ "")
    {remaining : ℤ} (hrem : 0 ≤ remaining) :
    ∃ jobs job, activate c jobId remaining t.kernel = .ok { t.kernel with jobs := jobs } ∧
      job.state = .running ∧ job.remainingPs = remaining ∧
      ∀ a, jobs.get? a = if a = jobId then some job else t.kernel.jobs.get? a := by
  unfold activate
  by_cases hcontains : t.kernel.jobs.contains jobId
  · obtain ⟨old, hold⟩ := Dict.mem_keys.mp (Dict.contains_iff.mp hcontains)
    refine ⟨_, { old with state := .running, remainingPs := remaining }, if_pos hcontains, rfl, rfl,
      fun a => ?_⟩
    by_cases ha : a = jobId
    · simp [ha, hold]
    · simp [ha]
  · have hnew : t.kernel.jobs.contains jobId = false := by simpa using hcontains
    obtain ⟨job, _, hwork, _, jobs, hregister, hjobs⟩ :=
      Kernel.registerJob_eq_ok h.callback (classFor c jobId).priority hid hnew hrem
        (le_max_left 0 ((releaseOf c jobId).deadlinePs - t.kernel.nowPs))
    rw [if_neg hcontains]
    dsimp only
    rw [hregister]
    refine ⟨_, { job with state := .running }, rfl, rfl, hwork, fun a => ?_⟩
    by_cases ha : a = jobId
    · simp [ha, hjobs]
    · simp [ha, hjobs]

/-- The work left of a known job is not negative. -/
theorem remainingOf_nonneg (hc : c.WellFormed) {t : RunnerCore} (h : Timers c t)
    {jobId : String} (hknown : Known c jobId) : 0 ≤ remainingOf c jobId t := by
  unfold remainingOf
  cases hr : t.preemptedRemaining.get? jobId with
  | none => exact (known_nonneg hc hknown).2.2
  | some v => exact h.remaining jobId v hr

/-- The kernel of a state in which a job has just been started. -/
theorem Started.kernel_eq (hc : c.WellFormed) (h : Timers c s.toRunnerCore) {jobId : String}
    {ev : RunnerEvent} (hknown : Known c jobId) (hs : Started c jobId s s' ev) :
    ∃ jobs job, job.state = .running ∧ job.remainingPs = remainingOf c jobId s.toRunnerCore ∧
      (∀ a, jobs.get? a = if a = jobId then some job else s.kernel.jobs.get? a) ∧
      ev = ⟨s.kernel.nowPs + remainingOf c jobId s.toRunnerCore, .timer, s.kernel.queue.seq,
        .client (.complete jobId)⟩ ∧
      s'.kernel = { s.kernel with
        jobs := jobs
        queue := s.kernel.queue.insert (s.kernel.nowPs + remainingOf c jobId s.toRunnerCore)
          .timer (.client (.complete jobId)) } := by
  obtain ⟨jobs, job, hactivate, hstate, hrem, hjobs⟩ := activate_ok (c := c) h
    (known_nonneg hc hknown).1 (remainingOf_nonneg hc h hknown)
  obtain ⟨k, hk, hschedule⟩ := hs.kernel
  rw [hactivate, Except.ok.injEq] at hk
  subst hk
  obtain ⟨_, _, hev, hkernel⟩ := Kernel.schedule_eq_ok.mp hschedule
  exact ⟨jobs, job, hstate, hrem, hjobs, hev, hkernel⟩

/-- Starting a known job succeeds. -/
theorem startJob_ok (hc : c.WellFormed) (h : Timers c s.toRunnerCore) {jobId : String}
    (hknown : Known c jobId) : ∃ s', startJob c jobId s = .ok s' := by
  have hnonneg := remainingOf_nonneg hc h hknown
  obtain ⟨jobs, job, hactivate, _⟩ := activate_ok (c := c) h (known_nonneg hc hknown).1 hnonneg
  unfold startJob
  obtain ⟨t, ht⟩ : ∃ t : RunnerState, t =
      { allocate c jobId (s.log (.start jobId)) with
        preempted := (allocate c jobId (s.log (.start jobId))).preempted.filter (· ≠ jobId) } :=
    ⟨_, rfl⟩
  simp only [← ht]
  obtain ⟨fifos, mailboxes, collector, hframe⟩ := dequeueFromRunner_frame (c := c) jobId t
  have hkernel : (dequeueFromRunner c jobId t).kernel = s.kernel := by
    rw [hframe, ht]
    rfl
  have hremaining : ((dequeueFromRunner c jobId t).preemptedRemaining.get? jobId).getD
      (releaseOf c jobId).workPs = remainingOf c jobId s.toRunnerCore := by
    rw [hframe, ht]
    rfl
  rw [hkernel, hremaining, hactivate, bind_eq_ok_left]
  have hnow := h.now_nonneg
  exact ⟨_, bind_eq_ok.mpr ⟨(_, _), Kernel.schedule_eq_ok.mpr
    ⟨by simp only; omega, by simp only; omega, rfl, rfl⟩, rfl⟩⟩

theorem Timers.start (hc : c.WellFormed) (h : Timers c s.toRunnerCore) {jobId : String}
    {ev : RunnerEvent} (hknown : Known c jobId) (hidle : jobId ∉ s.running.keys)
    (hs : Started c jobId s s' ev) : Timers c s'.toRunnerCore := by
  obtain ⟨jobs, job, hstate, hrem, hjobs, hev, hkernel⟩ := hs.kernel_eq hc h hknown
  have hrem0 := remainingOf_nonneg hc h hknown
  have hlive : ∀ e, s'.kernel.queue.Live e ↔ e = ev ∨ s.kernel.queue.Live e := by
    intro e
    rw [hkernel, hev]
    exact EventQueue.insert_live h.cancelled
  have hrunning : ∀ a, s'.running.get? a = if a = jobId then some ev else s.running.get? a := by
    intro a
    rw [hs.running, Dict.get?_insert]
  have hnow : s'.kernel.nowPs = s.kernel.nowPs := by rw [hkernel]
  have hgetjobs : ∀ a, s'.kernel.jobs.get? a =
      if a = jobId then some job else s.kernel.jobs.get? a := by
    intro a
    rw [hkernel]
    exact hjobs a
  have htimer : IsTimerOf jobId ev := by
    rw [hev]
    exact ⟨rfl, rfl⟩
  refine ⟨?_, ?_, ?_, ?_, ?_, ?_, ?_, ?_⟩
  · rw [hkernel]
    exact h.callback
  · intro n hn
    rw [hkernel] at hn ⊢
    exact Nat.lt_succ_of_lt (h.cancelled n hn)
  · rw [hnow]
    exact h.now_nonneg
  · intro e he
    rw [hnow]
    rcases (hlive e).mp he with rfl | he
    · rw [hev]
      simp only
      omega
    · exact h.future e he
  · intro e he
    rcases (hlive e).mp he with rfl | he
    · exact Or.inl ⟨jobId, htimer, by rw [hrunning, if_pos rfl]⟩
    · rcases h.event e he with ⟨a, ha, hget⟩ | hd
      · refine Or.inl ⟨a, ha, ?_⟩
        rw [hrunning, if_neg, hget]
        rintro rfl
        exact hidle (Dict.mem_keys.mpr ⟨e, hget⟩)
      · exact Or.inr hd
  · intro a e he
    rw [hrunning] at he
    rw [hnow, hgetjobs, hlive]
    split_ifs at he ⊢ with ha
    · cases he
      subst ha
      refine ⟨Or.inl rfl, htimer, job, rfl, ?_, Or.inl hstate⟩
      rw [hrem, hev]
      simp only
      omega
    · obtain ⟨he, hrest⟩ := h.timer a e he
      exact ⟨Or.inr he, hrest⟩
  · intro a job' hget
    rw [hgetjobs] at hget
    have hcompleted : s'.kernel.completed = s.kernel.completed := by rw [hkernel]
    have hkeys : ∀ a, a ∈ s'.running.keys ↔ a = jobId ∨ a ∈ s.running.keys := by
      intro a
      rw [hs.running, Dict.mem_keys_insert]
    unfold KnownHandle
    rw [hcompleted, hkeys]
    split_ifs at hget with ha
    · cases hget
      exact Or.inr (Or.inl ⟨hstate, Or.inl ha⟩)
    · rcases h.handle a job' hget with hp | ⟨hr, hm⟩ | hd
      · exact Or.inl hp
      · exact Or.inr (Or.inl ⟨hr, Or.inr hm⟩)
      · exact Or.inr (Or.inr hd)
  · intro a v hv
    rw [hs.preemptedRemaining, Dict.get?_erase] at hv
    split_ifs at hv
    exact h.remaining a v hv

/-! ### Preempting a job -/

/-- Hiding a job touches its handle only. -/
theorem hideJob_spec (jobId : String) (k : Kernel RunnerPayload) :
    ∃ jobs, hideJob c jobId k = { k with jobs := jobs } ∧
      ∀ a job, jobs.get? a = some job → (k.jobs.get? a = some job ∧
          (a = jobId → job.state ≠ .running)) ∨
        (a = jobId ∧ job.state = .pending ∧ job.releasePs = maxTimePs c + 1) := by
  unfold hideJob
  cases hget : k.jobs.get? jobId with
  | none =>
    refine ⟨k.jobs, rfl, fun a job ha => Or.inl ⟨ha, ?_⟩⟩
    rintro rfl
    rw [hget] at ha
    cases ha
  | some old =>
    dsimp only
    split_ifs with hrun
    · refine ⟨_, rfl, fun a job ha => ?_⟩
      simp only [Dict.get?_modify] at ha
      split_ifs at ha with heq
      · rw [hget, Option.map_some, Option.some.injEq] at ha
        subst ha
        exact Or.inr ⟨heq, rfl, rfl⟩
      · exact Or.inl ⟨ha, fun h => absurd h heq⟩
    · refine ⟨k.jobs, rfl, fun a job ha => Or.inl ⟨ha, ?_⟩⟩
      rintro rfl
      rw [hget, Option.some.injEq] at ha
      subst ha
      exact hrun

/-- Hiding a job changes no other handle. -/
theorem hideJob_get?_of_ne {jobId a : String} (h : a ≠ jobId) (k : Kernel RunnerPayload) :
    (hideJob c jobId k).jobs.get? a = k.jobs.get? a := by
  unfold hideJob
  split
  · rfl
  · split_ifs
    · simp [Kernel.modifyJob, h]
    · rfl

theorem Timers.preempt (h : Timers c s.toRunnerCore) {jobId : String} {ev : RunnerEvent}
    (hrunning : s.running.get? jobId = some ev) (hp : Preempted c jobId s s' ev) :
    Timers c s'.toRunnerCore := by
  obtain ⟨hevlive, htimer, job, hjob, hrem, hstate⟩ := h.timer jobId ev hrunning
  obtain ⟨jobs, hhide, hjobs⟩ := hideJob_spec (c := c) jobId (s.kernel.cancelEvent ev)
  have hother := fun a (ha : a ≠ jobId) =>
    hideJob_get?_of_ne (c := c) ha (s.kernel.cancelEvent ev)
  rw [hhide] at hother
  have hkernel : s'.kernel = { s.kernel with
      queue := (s.kernel.queue.cancel ev).2
      jobs := jobs } := by
    rw [hp.kernel, hhide]
    rfl
  have hlive : ∀ e, s'.kernel.queue.Live e ↔ s.kernel.queue.Live e ∧ e ≠ ev := by
    intro e
    rw [hkernel]
    exact EventQueue.cancel_live hevlive.1
  have hget : ∀ a, s'.running.get? a = if a = jobId then none else s.running.get? a := by
    intro a
    rw [hp.running, Dict.get?_erase]
  -- two running jobs do not share a timer
  have hunique : ∀ a, s.running.get? a = some ev → a = jobId := by
    intro a ha
    have hpay := (h.timer a ev ha).2.1.2
    rw [htimer.2] at hpay
    cases hpay
    rfl
  refine ⟨?_, ?_, ?_, ?_, ?_, ?_, ?_, ?_⟩
  · rw [hkernel]
    exact h.callback
  · intro n hn
    rw [hkernel] at hn ⊢
    have hseq : (s.kernel.queue.cancel ev).2.seq = s.kernel.queue.seq := by
      unfold EventQueue.cancel
      split_ifs <;> rfl
    simp only [hseq]
    unfold EventQueue.cancel at hn
    split_ifs at hn
    · exact h.cancelled n hn
    · rcases List.mem_cons.mp hn with rfl | hn
      · exact s.kernel.queue.fresh ev hevlive.1
      · exact h.cancelled n hn
  · rw [hkernel]
    exact h.now_nonneg
  · intro e he
    rw [hkernel]
    exact h.future e ((hlive e).mp he).1
  · intro e he
    obtain ⟨he, hne⟩ := (hlive e).mp he
    rcases h.event e he with ⟨a, ha, hget'⟩ | hd
    · refine Or.inl ⟨a, ha, ?_⟩
      rw [hget, if_neg, hget']
      rintro rfl
      rw [hrunning, Option.some.injEq] at hget'
      exact hne hget'.symm
    · exact Or.inr hd
  · intro a e he
    rw [hget] at he
    split_ifs at he with ha
    obtain ⟨he', htimer', job', hjob', hhandle⟩ := h.timer a e he
    refine ⟨(hlive e).mpr ⟨he', ?_⟩, htimer', job', ?_, ?_⟩
    · rintro rfl
      exact ha (hunique a he)
    · rw [hkernel]
      exact (hother a ha).trans hjob'
    · rw [hkernel]
      exact hhandle
  · intro a job' hjob'
    have hcompleted : s'.kernel.completed = s.kernel.completed := by rw [hkernel]
    have hkeys : ∀ a, a ∈ s'.running.keys ↔ a ≠ jobId ∧ a ∈ s.running.keys := by
      intro a
      rw [hp.running, Dict.mem_keys_erase]
    rw [hkernel] at hjob'
    unfold KnownHandle
    rw [hcompleted, hkeys]
    rcases hjobs a job' hjob' with ⟨hold, hnot⟩ | ⟨_, hpending⟩
    · rcases h.handle a job' hold with hpe | ⟨hr, hm⟩ | hd
      · exact Or.inl hpe
      · exact Or.inr (Or.inl ⟨hr, fun heq => hnot heq hr, hm⟩)
      · exact Or.inr (Or.inr hd)
    · exact Or.inl hpending
  · intro a v hv
    rw [hp.preemptedRemaining, hjob, Dict.get?_insert] at hv
    split_ifs at hv
    · cases hv
      have hfuture := h.future ev hevlive
      simp only
      omega
    · exact h.remaining a v hv

/-! ### Retiring a job -/

/-- Completing the job of a popped timer leaves a completed handle and touches no other. -/
theorem suppressComplete_spec {k : Kernel RunnerPayload} (hquiet : k.Quiet) {jobId : String}
    {job : JobHandle} (hget : k.jobs.get? jobId = some job)
    (hstate : job.state = .running ∨ job.state = .completed) :
    ∃ jobs completed, suppressComplete jobId k =
        { k with jobs := jobs, completed := completed } ∧
      (∀ a, a ≠ jobId → jobs.get? a = k.jobs.get? a) ∧
      (∃ job, jobs.get? jobId = some job ∧ job.state = .completed) ∧
      (job.state = .running → ∀ a, a ∈ completed ↔ a = jobId ∨ a ∈ k.completed) ∧
      (job.state = .completed → jobs = k.jobs ∧ completed = k.completed) := by
  have hresult := Kernel.completeJob_of_quiet hquiet hget hstate
  unfold suppressComplete
  rw [hresult]
  by_cases hdone : job.state = .completed
  · rw [if_pos hdone]
    exact ⟨k.jobs, k.completed, rfl, fun _ _ => rfl, ⟨job, hget, hdone⟩, by simp [hdone],
      fun _ => ⟨rfl, rfl⟩⟩
  · rw [if_neg hdone]
    refine ⟨_, _, rfl, fun a ha => by simp [ha], ?_, fun _ a => Kernel.mem_addCompleted,
      fun h => absurd h hdone⟩
    exact ⟨{ job with remainingPs := 0, state := .completed }, by simp [hget], rfl⟩

theorem TimersBut.complete {ev : RunnerEvent} (h : TimersBut c ev s.toRunnerCore)
    (hquiet : s.kernel.Quiet) {jobId : String} (hrunning : s.running.get? jobId = some ev)
    (hr : Retired c jobId s s') : Timers c s'.toRunnerCore := by
  obtain ⟨_, htimer, job, hjob, hrem, hstate⟩ := h.timer jobId ev hrunning
  have hstate' : job.state = .running ∨ job.state = .completed := hstate.imp id And.left
  obtain ⟨jobs, completed, hkernel, hother, ⟨done, hdone, hdoneState⟩, hrunCompleted,
    hsame⟩ := suppressComplete_spec hquiet hjob hstate'
  rw [← hr.kernel] at hkernel
  have hget : ∀ a, s'.running.get? a = if a = jobId then none else s.running.get? a := by
    intro a
    rw [hr.running, Dict.get?_erase]
  have hmem : jobId ∈ completed := by
    rcases hstate with hrun | ⟨hd, _⟩
    · exact (hrunCompleted hrun jobId).mpr (Or.inl rfl)
    · rw [(hsame hd).2]
      rcases h.handle jobId job hjob with ⟨hs, _⟩ | ⟨hs, _⟩ | ⟨_, hm⟩
      · simp [hd] at hs
      · simp [hd] at hs
      · exact hm
  have hkeep : ∀ a, a ∈ s.kernel.completed → a ∈ completed := by
    intro a ha
    rcases hstate' with hrun | hd
    · exact (hrunCompleted hrun a).mpr (Or.inr ha)
    · rw [(hsame hd).2]
      exact ha
  have hlive : ∀ e, s'.kernel.queue.Live e ↔ s.kernel.queue.Live e := by
    intro e
    rw [hkernel]
  refine ⟨?_, ?_, ?_, ?_, ?_, ?_, ?_, ?_⟩
  · rw [hkernel]
    exact h.callback
  · rw [hkernel]
    exact h.cancelled
  · rw [hkernel]
    exact h.now_nonneg
  · intro e he
    rw [hkernel]
    exact h.future e ((hlive e).mp he)
  · intro e he
    obtain ⟨hne, hevent⟩ := h.event e ((hlive e).mp he)
    rcases hevent with ⟨a, ha, hga⟩ | hd
    · refine Or.inl ⟨a, ha, ?_⟩
      rw [hget, if_neg, hga]
      rintro rfl
      rw [hrunning, Option.some.injEq] at hga
      exact hne hga.symm
    · exact Or.inr hd
  · intro a e he
    rw [hget] at he
    split_ifs at he with ha
    obtain ⟨hl, ht, job', hjob', hhandle⟩ := h.timer a e he
    refine ⟨(hlive e).mpr (hl ?_), ht, job', ?_, ?_⟩
    · rintro rfl
      have hpay := ht.2
      rw [htimer.2] at hpay
      cases hpay
      exact ha rfl
    · rw [hkernel]
      exact (hother a ha).trans hjob'
    · rw [hkernel]
      exact hhandle
  · intro a job' hjob'
    have hkeys : ∀ a, a ∈ s'.running.keys ↔ a ≠ jobId ∧ a ∈ s.running.keys := by
      intro a
      rw [hr.running, Dict.mem_keys_erase]
    unfold KnownHandle
    rw [hkernel] at hjob' ⊢
    rw [hkeys]
    by_cases ha : a = jobId
    · subst ha
      change jobs.get? a = some job' at hjob'
      rw [hdone, Option.some.injEq] at hjob'
      subst hjob'
      exact Or.inr (Or.inr ⟨hdoneState, hmem⟩)
    · rcases h.handle a job' ((hother a ha).symm.trans hjob') with hp | ⟨hrun, hm⟩ | ⟨hd, hm⟩
      · exact Or.inl hp
      · exact Or.inr (Or.inl ⟨hrun, ha, hm⟩)
      · exact Or.inr (Or.inr ⟨hd, hkeep a hm⟩)
  · intro a v hv
    rw [hr.preemptedRemaining] at hv
    exact h.remaining a v hv

/-! ### All steps -/

/-- `Timers` depends on the kernel, the running jobs, and the recorded remaining work. -/
theorem Timers.congr {t t' : RunnerCore} (h : Timers c t) (hkernel : t'.kernel = t.kernel)
    (hrunning : t'.running = t.running)
    (hremaining : t'.preemptedRemaining = t.preemptedRemaining) : Timers c t' := by
  refine ⟨?_, ?_, ?_, ?_, ?_, ?_, ?_, ?_⟩ <;>
    simp only [KnownHandle, hkernel, hrunning, hremaining]
  · exact h.callback
  · exact h.cancelled
  · exact h.now_nonneg
  · exact h.future
  · exact h.event
  · exact h.timer
  · exact h.handle
  · exact h.remaining

/-- A dispatch event at the current time can be added at any time. -/
theorem Timers.request (h : Timers c s.toRunnerCore) :
    Timers c { s with kernel := { s.kernel with
      queue := s.kernel.queue.insert s.kernel.nowPs .dispatch (.client .dispatch) } }.toRunnerCore := by
  have hlive : ∀ e, (s.kernel.queue.insert s.kernel.nowPs .dispatch (.client .dispatch)).Live e ↔
      e = ⟨s.kernel.nowPs, .dispatch, s.kernel.queue.seq, .client .dispatch⟩ ∨
        s.kernel.queue.Live e := fun e => EventQueue.insert_live h.cancelled
  refine { h with cancelled := ?_, future := ?_, event := ?_, timer := ?_ }
  · intro n hn
    exact Nat.lt_succ_of_lt (h.cancelled n hn)
  · intro e he
    rcases (hlive e).mp he with rfl | he
    · exact le_rfl
    · exact h.future e he
  · intro e he
    rcases (hlive e).mp he with rfl | he
    · exact Or.inr ⟨rfl, Or.inl rfl⟩
    · exact h.event e he
  · intro a e he
    obtain ⟨hl, hrest⟩ := h.timer a e he
    exact ⟨(hlive e).mpr (Or.inr hl), hrest⟩

/-- The completion timer of a running job is its own completion event. -/
theorem Timers.timer_unique {t : RunnerCore} (h : Timers c t) {ev : RunnerEvent}
    (hlive : t.kernel.queue.Live ev) {jobId : String}
    (hpayload : ev.payload = .client (.complete jobId)) : t.running.get? jobId = some ev := by
  rcases h.event ev hlive with ⟨a, ha, hget⟩ | ⟨_, hd | ⟨_, _, hd, _⟩⟩
  · have hpay := ha.2
    rw [hpayload] at hpay
    cases hpay
    exact hget
  · rw [hpayload] at hd
    cases hd
  · rw [hpayload] at hd
    cases hd

/-- Every step keeps `Timers`. -/
theorem Timers.step (hc : c.WellFormed) (hp : Places c s) (h : Timers c s.toRunnerCore)
    (hstep : Step c s s') : Timers c s'.toRunnerCore := by
  -- a popped event that is not a timer belongs to no running job
  have hother : ∀ {ev : RunnerEvent}, (∀ jobId, ev.payload ≠ .client (.complete jobId)) →
      ∀ jobId, s.running.get? jobId ≠ some ev := by
    intro ev hev jobId hget
    exact hev jobId (h.timer jobId ev hget).2.1.2
  cases hstep with
  | dispatch hpop hpayload =>
    exact (h.pop hpop).timers (hother (by simp [hpayload]))
  | arrive hpop hpayload _ hr =>
    have ht := (h.pop hpop).timers (hother (by simp [hpayload]))
    exact ht.congr hr.kernel hr.running hr.preemptedRemaining
  | complete hpop hpayload _ hr =>
    have hadv := h.advanced hpop
    exact (h.pop hpop).complete hadv.quiet (h.timer_unique hadv.live hpayload) hr
  | stale hpop hpayload hrunning =>
    have hadv := h.advanced hpop
    exact absurd (Dict.mem_keys.mpr ⟨_, h.timer_unique hadv.live hpayload⟩) hrunning
  | offer _ => exact h.congr rfl rfl rfl
  | start hstartable _ hs =>
    exact h.start hc (hp.known _ hstartable.1) hstartable.2.1 hs
  | preempt hrunning hpre => exact h.preempt hrunning hpre
  | check _ hch => exact h.congr hch.kernel hch.running hch.preemptedRemaining
  | request _ => exact h.request

/-- Time does not go back. -/
theorem Timers.now_le (hc : c.WellFormed) (hp : Places c s) (h : Timers c s.toRunnerCore)
    (hstep : Step c s s') : s.now ≤ s'.now := by
  have hpopped : ∀ {ev : RunnerEvent} {k : Kernel RunnerPayload},
      Popped c s.toRunnerCore ev k → s.now ≤ k.nowPs := by
    intro ev k hpop
    have hadv := h.advanced hpop
    rw [hadv.now]
    exact hadv.future
  unfold RunnerCore.now
  cases hstep with
  | dispatch hpop _ => exact hpopped hpop
  | arrive hpop _ _ hr =>
    rw [hr.kernel]
    exact hpopped hpop
  | complete hpop hpayload _ hr =>
    have hadv := h.advanced hpop
    obtain ⟨_, _, job, hjob, _, hstate⟩ :=
      (h.pop hpop).timer _ _ (h.timer_unique hadv.live hpayload)
    obtain ⟨jobs, completed, hkernel, _⟩ :=
      suppressComplete_spec hadv.quiet hjob (hstate.imp id And.left)
    rw [hr.kernel]
    simp only [hkernel]
    exact hpopped hpop
  | stale hpop _ _ => exact hpopped hpop
  | offer _ => exact le_rfl
  | start hstartable _ hs =>
    obtain ⟨jobs, job, _, _, _, _, hkernel⟩ := hs.kernel_eq hc h (hp.known _ hstartable.1)
    rw [hkernel]
  | preempt _ hs =>
    obtain ⟨jobs, hhide, _⟩ := hideJob_spec (c := c) _ (s.kernel.cancelEvent _)
    rw [hs.kernel, hhide]
    exact le_rfl
  | check _ hs => rw [hs.kernel]
  | request _ => exact le_rfl

/-- The arrival event of the release with a given index. -/
def arrivalEvent (i : ℕ) (r : JobRelease) : RunnerEvent :=
  ⟨r.arrivalPs, .dispatch, i, .client (.arrival r)⟩

/-- Schedule the arrival of one release. -/
def scheduleRelease (k : Kernel RunnerPayload) (release : JobRelease) :
    Except Error (Kernel RunnerPayload) := do
  let (_, k') ← k.schedule release.arrivalPs .dispatch (.client (.arrival release))
  .ok k'

theorem scheduleRelease_eq_ok {k k' : Kernel RunnerPayload} {release : JobRelease} :
    scheduleRelease k release = .ok k' ↔
      k.nowPs ≤ release.arrivalPs ∧ 0 ≤ release.arrivalPs ∧
        k' = { k with
          queue := k.queue.insert release.arrivalPs .dispatch (.client (.arrival release)) } := by
  unfold scheduleRelease
  simp only [bind_eq_ok, Prod.exists, Kernel.schedule_eq_ok, Except.ok.injEq]
  constructor
  · rintro ⟨_, _, ⟨hfuture, hnonneg, rfl, rfl⟩, rfl⟩
    exact ⟨hfuture, hnonneg, rfl⟩
  · rintro ⟨hfuture, hnonneg, rfl⟩
    exact ⟨_, _, ⟨hfuture, hnonneg, rfl, rfl⟩, rfl⟩

/-- Scheduling some releases inserts their arrival events in order. -/
private theorem foldlM_schedule {releases : List JobRelease} {k k' : Kernel RunnerPayload}
    (h : releases.foldlM scheduleRelease k = .ok k') (hcancelled : k.queue.cancelled = []) :
    k'.queue.seq = k.queue.seq + releases.length ∧
      k' = { k with queue := k'.queue } ∧ k'.queue.cancelled = [] ∧
      ∀ e, k'.queue.Live e ↔ k.queue.Live e ∨
        ∃ i r, releases[i]? = some r ∧ e = arrivalEvent (k.queue.seq + i) r := by
  induction releases generalizing k with
  | nil =>
    cases h
    exact ⟨rfl, rfl, hcancelled, by simp⟩
  | cons r releases ih =>
    rw [List.foldlM_cons, bind_eq_ok] at h
    obtain ⟨k₁, hstep, hrest⟩ := h
    obtain ⟨_, _, rfl⟩ := scheduleRelease_eq_ok.mp hstep
    obtain ⟨hseq, hframe, hnone, hlive⟩ := ih hrest hcancelled
    refine ⟨?_, hframe, hnone, fun e => ?_⟩
    · rw [hseq, List.length_cons]
      change k.queue.seq + 1 + _ = _
      omega
    · rw [hlive, EventQueue.insert_live (by simp [hcancelled]), or_comm (a := e = _), or_assoc]
      refine or_congr Iff.rfl ⟨?_, ?_⟩
      · rintro (rfl | ⟨i, r', hr', rfl⟩)
        · exact ⟨0, r, rfl, rfl⟩
        · refine ⟨i + 1, r', hr', ?_⟩
          rw [Nat.add_comm i 1, ← Nat.add_assoc]
          rfl
      · rintro ⟨i, r', hr', rfl⟩
        cases i with
        | zero =>
          cases hr'
          exact Or.inl rfl
        | succ i =>
          refine Or.inr ⟨i, r', hr', ?_⟩
          rw [Nat.add_comm i 1, ← Nat.add_assoc]
          rfl

/-- A run starts at time zero with the arrival events, numbered in the order of the
releases, and one dispatch event. -/
theorem scheduleArrivals_kernel (h : scheduleArrivals c (init c) = .ok s) :
    ∃ k, s = { init c with kernel := k } ∧ k.nowPs = 0 ∧ k.jobs = .empty ∧
      k.hasDispatchCallback = false ∧ k.queue.cancelled = [] ∧
      ∀ e, k.queue.Live e ↔ e = ⟨0, .dispatch, c.releases.length, .client .dispatch⟩ ∨
        ∃ i r, c.releases[i]? = some r ∧ e = arrivalEvent i r := by
  simp only [scheduleArrivals, bind_eq_ok, Prod.exists] at h
  obtain ⟨k, hfold, ev, k', hschedule, heq⟩ := h
  cases heq
  obtain ⟨hseq, hframe, hcancelled, hlive⟩ := foldlM_schedule hfold rfl
  obtain ⟨_, _, rfl, rfl⟩ := Kernel.schedule_eq_ok.mp hschedule
  have hseq' : k.queue.seq = c.releases.length := hseq.trans (Nat.zero_add _)
  have hempty : ∀ e, ¬(init c).kernel.queue.Live e := fun e he => by
    simp [EventQueue.Live, init, EventQueue.empty] at he
  have hzero : (init c).kernel.queue.seq = 0 := rfl
  refine ⟨_, rfl, ?_, ?_, ?_, hcancelled, fun e => ?_⟩
  · change k.nowPs = 0
    rw [hframe]
    rfl
  · change k.jobs = .empty
    rw [hframe]
    rfl
  · change k.hasDispatchCallback = false
    rw [hframe]
    rfl
  · rw [EventQueue.insert_live (by simp [hcancelled]), hlive, hseq']
    simp only [hempty, false_or, hzero, Nat.zero_add]

/-- The kernel in which a run starts holds dispatch events only. -/
theorem timers_init (hc : c.WellFormed) (h : scheduleArrivals c (init c) = .ok s) :
    Timers c s.toRunnerCore := by
  obtain ⟨k, rfl, hnow, hjobs, hcallback, hcancelled, hlive⟩ := scheduleArrivals_kernel h
  have hevents : ∀ e, k.queue.Live e → 0 ≤ e.timePs ∧ IsDispatchEvent c e := by
    intro e he
    rcases (hlive e).mp he with rfl | ⟨i, r, hr, rfl⟩
    · exact ⟨le_rfl, rfl, Or.inl rfl⟩
    · have hmem := List.mem_of_getElem? hr
      exact ⟨hc.arrival_nonneg r hmem, rfl, Or.inr ⟨r, hmem, rfl, rfl⟩⟩
  refine ⟨hcallback, ?_, hnow.ge, ?_, fun e he => Or.inr (hevents e he).2, ?_, ?_, ?_⟩
  · intro n hn
    change n ∈ k.queue.cancelled at hn
    simp [hcancelled] at hn
  · intro e he
    change k.nowPs ≤ e.timePs
    rw [hnow]
    exact (hevents e he).1
  · intro jobId e he
    simp [init] at he
  · intro jobId job hjob
    change k.jobs.get? jobId = some job at hjob
    simp [hjobs] at hjob
  · intro jobId v hv
    simp [init] at hv

/-- Every visited state satisfies `Timers`. -/
theorem Visited.timers (hc : c.WellFormed) (h : Visited c s) : Timers c s.toRunnerCore := by
  induction h with
  | init h => exact timers_init hc h
  | step hs h ih => exact ih.step hc (hs.places hc) h

end Runner

end NpuArc
