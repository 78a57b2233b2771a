import NpuArc.Runner.Runs

/-!
# Progress

The kernel refuses an event that changes nothing. Events that the runner schedules for
arrivals and dispatches always pass, and so does a completion timer, unless it comes up
at an instant already reached for a job that the kernel has listed as completed.
-/

namespace NpuArc

namespace Runner

variable {c : CompiledScenario} {s s' : RunnerState}

/-! ### Handlers that cannot fail -/

theorem tryStart_ok (hc : c.WellFormed) (ht : Timers c s.toRunnerCore) {jobId : String}
    (hknown : Known c jobId) : ∃ p, tryStart c jobId s = .ok p := by
  unfold tryStart
  split_ifs
  · obtain ⟨s', hs'⟩ := startJob_ok hc ht hknown
    exact ⟨(s', true), by rw [hs']; rfl⟩
  · exact ⟨_, rfl⟩

theorem offer_ok (hc : c.WellFormed) (hv : Visited c s) {jobId : String}
    (hst : Startable c jobId s) : ∃ s', offer c jobId s = .ok s' := by
  have hknown := (hv.places hc).known jobId hst.1
  have hv1 : Visited c (s.log (.offer jobId)) := hv.step (.offer hst)
  have hv2 := hv1.steps (steps_preemptLoop hc jobId []
    (runningByRank c (s.log (.offer jobId))) false hv1 (by simp)).1.steps
  obtain ⟨⟨t, started⟩, htry⟩ := tryStart_ok hc (hv1.timers hc) hknown
  unfold offer
  rw [htry, bind_eq_ok_left]
  rcases tryStart_cases htry with ⟨rfl, _, _⟩ | ⟨rfl, _, rfl⟩
  · exact ⟨_, rfl⟩
  · simp only [Bool.false_eq_true, if_false]
    split_ifs
    · exact ⟨_, rfl⟩
    · obtain ⟨⟨u, started⟩, htry'⟩ := tryStart_ok hc (hv2.timers hc) hknown
      exact ⟨u, bind_eq_ok.mpr ⟨_, htry', rfl⟩⟩
    · exact ⟨_, rfl⟩

theorem dispatchLoop_ok (hc : c.WellFormed) (L : List Candidate) (seen : List String)
    (hv : Visited c s) (hL : ∀ a ∈ L.map (·.jobId), Offerable c a s) :
    ∃ s', dispatchLoop c L seen s = .ok s' := by
  induction L generalizing s seen with
  | nil => exact ⟨s, rfl⟩
  | cons candidate L ih =>
    rw [List.map_cons, List.forall_mem_cons] at hL
    unfold dispatchLoop
    split_ifs with hskip
    · exact ih seen hv hL.2
    · have hidle : candidate.jobId ∉ s.running.keys :=
        fun hr => hskip (Or.inr (Dict.contains_iff.mpr hr))
      have hst := hL.1.resolve_left hidle
      obtain ⟨t, ht⟩ := offer_ok hc hv hst
      obtain ⟨hsteps, htL⟩ := steps_offer hc hv hL.2 hst ht
      rw [ht, bind_eq_ok_left]
      exact ih _ ((hv.step (.offer hst)).steps hsteps.steps) htL

/-- A dispatch pass never fails. -/
theorem dispatch_ok (hc : c.WellFormed) (hv : Visited c s) : ∃ s', dispatch c s = .ok s' := by
  obtain ⟨t, ht⟩ := dispatchLoop_ok hc (sortedCandidates c s) [] hv fun a ha =>
    offerable_of_candidate (hv.places hc) (mem_sortedCandidates.mp ha)
  unfold dispatch
  unfold sortedCandidates at ht
  cases hcand : collectCandidates s with
  | nil => exact ⟨_, rfl⟩
  | cons candidate candidates =>
    rw [hcand] at ht
    simp only [ht, bind_eq_ok_left]
    exact ⟨_, rfl⟩

theorem scheduleDispatch_ok (hnow : 0 ≤ s.kernel.nowPs) : ∃ s', scheduleDispatch s = .ok s' :=
  ⟨_, scheduleDispatch_eq_ok.mpr ⟨hnow, rfl⟩⟩

/-! ### Errors of an arrival -/

private theorem getClass_error {sc : Scenario} {classId : String} {e : Error}
    (h : sc.getClass classId = .error e) : e.isSchedulerError = false := by
  unfold Scenario.getClass at h
  split at h
  · cases h
  · cases h
    rfl

private theorem receive_error {release : JobRelease} {cls : WorkloadClass} {e : Error}
    (h : receive c release cls s = .error e) : e.isSchedulerError = false := by
  unfold receive at h
  rcases bind_eq_error.mp h with hrecord | ⟨collector, _, h⟩
  · unfold MetricsCollector.recordArrival at hrecord
    split_ifs at hrecord
    cases hrecord
    rfl
  · dsimp only at h
    split_ifs at h
    rcases bind_eq_error.mp h with henqueue | ⟨_, _, h⟩
    · unfold enqueueArrival at henqueue
      split at henqueue
      · split at henqueue
        · cases henqueue
          rfl
        · split at henqueue <;> cases henqueue
      · split at henqueue
        · cases henqueue
          rfl
        · dsimp only at henqueue
          split at henqueue <;> cases henqueue
    · cases h

/-- No handler raises a scheduler error. -/
theorem invoke_error (hc : c.WellFormed) (hv : Visited c s) {ev : RunnerEvent}
    {k : Kernel RunnerPayload} (hpop : Popped c s.toRunnerCore ev k) {e : Error}
    (h : (host c).invoke ev.payload { s with kernel := k } = .error e) :
    e.isSchedulerError = false := by
  have ht := hv.timers hc
  have hadv := ht.advanced hpop
  obtain ⟨p, hpayload, hr⟩ := ht.payload hadv.live
  rw [hpayload] at h
  cases p with
  | dispatch =>
    obtain ⟨s', hs'⟩ := dispatch_ok hc (hv.step (.dispatch hpop hpayload))
    have hok : dispatch c { s with kernel := k } = .error e := h
    rw [hs'] at hok
    cases hok
  | complete jobId =>
    have hcomplete : onComplete c jobId { s with kernel := k } = .error e := h
    unfold onComplete at hcomplete
    split_ifs at hcomplete with hrunning
    have hm : jobId ∈ s.running.keys := Dict.contains_iff.mp (by simpa using hrunning)
    have hv' : Visited c (retire c jobId { s with kernel := k }) :=
      hv.step (.complete hpop hpayload hm (retire_spec jobId _))
    obtain ⟨s', hs'⟩ := scheduleDispatch_ok ((hv'.step step_check).timers hc).now_nonneg
    rw [hs'] at hcomplete
    cases hcomplete
  | arrival r =>
    have harrival : onArrivalAndDispatch c r { s with kernel := k } = .error e := h
    rcases bind_eq_error.mp harrival with honArrival | ⟨t, honArrival, hdispatch⟩
    · rcases bind_eq_error.mp honArrival with hclass | ⟨cls, hcls, honArrival⟩
      · exact getClass_error hclass
      · rcases bind_eq_error.mp honArrival with hreceive | ⟨u, hreceive, hrequest⟩
        · exact receive_error hreceive
        · have hrec := receive_spec (getClass_classFor hc (hr r rfl) hcls)
            (fun old => ((hv.places hc).setKernel k).pending_spec) hreceive
          have hu : Visited c u := hv.step (.arrive hpop hpayload (hr r rfl) hrec)
          obtain ⟨s', hs'⟩ := scheduleDispatch_ok ((hu.step step_check).timers hc).now_nonneg
          rw [hs'] at hrequest
          cases hrequest
    · simp only [onArrival, bind_eq_ok] at honArrival
      obtain ⟨cls, hcls, u, hreceive, hrequest⟩ := honArrival
      have hrec := receive_spec (getClass_classFor hc (hr r rfl) hcls)
        (fun old => ((hv.places hc).setKernel k).pending_spec) hreceive
      have hu : Visited c u := hv.step (.arrive hpop hpayload (hr r rfl) hrec)
      obtain ⟨s', hs'⟩ := dispatch_ok hc ((hu.step step_check).step (step_request hrequest))
      rw [hs'] at hdispatch
      cases hdispatch

/-! ### The progress test -/

/-- A completion timer that comes up without time passing is that of a job which the kernel
has not listed as completed. -/
def TimerFresh (c : CompiledScenario) (s : RunnerState) : Prop :=
  ∀ ev jobId, nextEvent c s = some ev → ev.payload = .client (.complete jobId) →
    ev.timePs = s.kernel.nowPs → jobId ∉ s.kernel.completed

/-- The kernel after the completion of a job whose handle runs or is completed. -/
theorem onComplete_kernel {k : Kernel RunnerPayload} (hquiet : k.Quiet) {jobId : String}
    {job : JobHandle} (hget : k.jobs.get? jobId = some job)
    (hstate : job.state = .running ∨ job.state = .completed) (hrunning : jobId ∈ s.running.keys)
    (h : onComplete c jobId { s with kernel := k } = .ok s') :
    s'.kernel.nowPs = k.nowPs ∧
      s'.kernel.jobs = (if job.state = .completed then k.jobs else
        k.jobs.modify jobId fun job => { job with remainingPs := 0, state := .completed }) ∧
      s'.kernel.completed = (if job.state = .completed then k.completed else
        Kernel.addCompleted k.completed jobId) := by
  have hcontains : s.running.contains jobId = true := Dict.contains_iff.mpr hrunning
  unfold onComplete at h
  rw [if_neg (by simp [hcontains])] at h
  obtain ⟨_, rfl⟩ := scheduleDispatch_eq_ok.mp h
  have hkernel : (maybeRecordRecovery c (retire c jobId { s with kernel := k })).kernel =
      suppressComplete jobId k :=
    (maybeRecordRecovery_spec _).kernel.trans (retire_spec jobId _).kernel
  simp only [hkernel]
  unfold suppressComplete
  rw [Kernel.completeJob_of_quiet hquiet hget hstate]
  split_ifs
  · exact ⟨rfl, rfl, rfl⟩
  · exact ⟨rfl, rfl, rfl⟩

/-- A handled event passes the progress test unless it is a completion timer that is not
fresh. -/
theorem madeProgress_iff (hc : c.WellFormed) (hv : Visited c s) {ev : RunnerEvent}
    {k : Kernel RunnerPayload} (hpop : Popped c s.toRunnerCore ev k)
    (h : (host c).invoke ev.payload { s with kernel := k } = .ok s') :
    s.kernel.madeProgress ev s'.kernel = true ↔ ∀ jobId,
      ev.payload = .client (.complete jobId) → ev.timePs = s.kernel.nowPs →
        jobId ∉ s.kernel.completed := by
  have ht := hv.timers hc
  have hadv := ht.advanced hpop
  obtain ⟨_, _, _, hlimit, _⟩ := hpop
  rcases ht.event ev hadv.live with ⟨jobId, htimer, hget⟩ | ⟨hphase, hpayload⟩
  · obtain ⟨_, _, job, hjob, hhandle⟩ := ht.timer jobId ev hget
    have hcomplete : onComplete c jobId { s with kernel := k } = .ok s' := by
      rw [htimer.2] at h
      exact h
    have honly : ∀ a, ev.payload = .client (.complete a) → a = jobId := by
      intro a ha
      rw [htimer.2] at ha
      cases ha
      rfl
    have hrunning := Dict.mem_keys.mpr ⟨ev, hget⟩
    by_cases htime : s.kernel.nowPs < ev.timePs
    · -- time advanced
      have hjob' := hadv.jobs jobId
      rw [hjob, Option.map_some] at hjob'
      have hhandle' := handleOf_advance hhandle hadv.future le_rfl
      obtain ⟨hnow, _⟩ := onComplete_kernel hadv.quiet hjob' (hhandle'.2.imp id And.left)
        hrunning hcomplete
      refine ⟨fun _ a _ heq => absurd heq htime.ne', fun _ => ?_⟩
      simp [Kernel.madeProgress, hnow, hadv.now, htime]
    · have hnow : s.kernel.nowPs = ev.timePs := le_antisymm hadv.future (not_lt.mp htime)
      obtain ⟨hjobs, hcompleted⟩ := hadv.same hnow
      have hstate : job.state = .running ∨ job.state = .completed := hhandle.2.imp id And.left
      obtain ⟨hnow', hjobs', hcompleted'⟩ := onComplete_kernel hadv.quiet
        (by rw [hjobs]; exact hjob) hstate hrunning hcomplete
      rw [hjobs] at hjobs'
      rw [hcompleted] at hcompleted'
      constructor
      · intro hprogress a ha _ hmem
        obtain rfl := honly a ha
        have hsame : s'.kernel.completed = s.kernel.completed := by
          rw [hcompleted']
          split_ifs
          · rfl
          · exact if_pos hmem
        have hzero : job.remainingPs = 0 := by
          rw [hhandle.1]
          omega
        have hhandles : ∀ b job', s'.kernel.jobs.get? b = some job' →
            s.kernel.jobs.get? b = some job' ∨
              (b = a ∧ job'.state = .completed ∧ job'.remainingPs = 0) := by
          intro b job' hb
          rw [hjobs'] at hb
          split_ifs at hb
          · exact Or.inl hb
          · rw [Dict.get?_modify] at hb
            split_ifs at hb with hba
            · obtain ⟨old, _, rfl⟩ := Option.map_eq_some_iff.mp hb
              exact Or.inr ⟨hba, rfl, rfl⟩
            · exact Or.inl hb
        simp only [Kernel.madeProgress, Bool.or_eq_true, Bool.and_eq_true, decide_eq_true_eq,
          List.any_eq_true, htimer.1, hsame, hnow', hadv.now, hnow] at hprogress
        rcases hprogress with (((htime | hlength) | ⟨⟨b, job'⟩, hb, hrun, hold⟩) | ⟨hphase, _⟩) |
          ⟨⟨b, old⟩, hb, _, hless⟩
        · exact absurd htime (lt_irrefl _)
        · exact absurd hlength (lt_irrefl _)
        · have hrun' : job'.state = .running := hrun
          rcases hhandles b job' (Dict.get?_eq_some.mpr hb) with hsome | ⟨_, hdone, _⟩
          · change (!(s.kernel.jobs.get? b).any fun j => decide (j.state = .running)) = true at hold
            rw [hsome] at hold
            simp [hrun'] at hold
          · rw [hdone] at hrun'
            cases hrun'
        · cases hphase
        · obtain ⟨job', hb', hless⟩ := (Option.any_eq_true _ _).mp hless
          have hless' : job'.remainingPs < old.remainingPs := by simpa using hless
          have hold := Dict.get?_eq_some.mpr hb
          rcases hhandles b job' hb' with hsome | ⟨rfl, _, hrem⟩
          · rw [hold, Option.some.injEq] at hsome
            rw [hsome] at hless'
            exact lt_irrefl _ hless'
          · rw [hjob, Option.some.injEq] at hold
            rw [hrem, ← hold, hzero] at hless'
            exact lt_irrefl _ hless'
      · intro hfresh
        have hnew := hfresh jobId htimer.2 hnow.symm
        have hrun : job.state ≠ .completed := by
          intro hdone
          rcases ht.handle jobId job hjob with ⟨hs, _⟩ | ⟨hs, _⟩ | ⟨_, hm⟩
          · simp [hdone] at hs
          · simp [hdone] at hs
          · exact hnew hm
        rw [if_neg hrun] at hcompleted'
        simp [Kernel.madeProgress, hcompleted', Kernel.addCompleted, hnew]
  · have hready : s.kernel.hasReady = false := by
      refine Kernel.hasReady_of_quiet (ht.quiet rfl rfl ?_)
      exact hadv.future.trans hlimit
    refine ⟨fun _ a ha => ?_, fun _ => ?_⟩
    · rcases hpayload with hd | ⟨r, _, hd, _⟩
      · rw [hd] at ha
        cases ha
      · rw [hd] at ha
        cases ha
    · simp [Kernel.madeProgress, hphase, hready]

/-- The next event can be popped, and handling it fails only in its handler or in the
progress test. -/
theorem processEvent_eq (hc : c.WellFormed) (hv : Visited c s) {ev : RunnerEvent}
    (hev : nextEvent c s = some ev) : ∃ k message, Popped c s.toRunnerCore ev k ∧
      (host c).processEvent s = (host c).invoke ev.payload { s with kernel := k } >>= fun s' =>
        if s.kernel.madeProgress ev s'.kernel then .ok s'
        else .error (.schedulerError message) := by
  have ht := hv.timers hc
  obtain ⟨hpop, hlimit⟩ := nextEvent_eq_some hev
  cases hq : s.kernel.queue.pop with
  | mk popped queue =>
    rw [hq] at hpop
    obtain rfl : popped = some ev := hpop
    have hle : s.kernel.nowPs ≤ ev.timePs := ht.future ev (EventQueue.pop_spec hq).1
    have hquiet := ht.quiet (k := { s.kernel with queue := queue, nowPs := ev.timePs })
      rfl rfl hlimit
    obtain ⟨k, hk⟩ : ∃ k, Kernel.consumeElapsedWork
        { s.kernel with queue := queue, nowPs := ev.timePs } s.kernel.nowPs = .ok k := by
      by_cases htime : s.kernel.nowPs < ev.timePs
      · obtain ⟨jobs, completed, hresult, _⟩ := Kernel.consumeElapsedWork_of_quiet hquiet htime
        exact ⟨_, hresult⟩
      · exact ⟨_, Kernel.consumeElapsedWork_of_le (not_lt.mp htime)⟩
    refine ⟨k, "zero-time livelock detected: event did not advance " ++
      "time, consume work, or terminate a job", ⟨queue, hq, hle, hlimit, hk⟩, ?_⟩
    unfold Host.processEvent
    rw [show (host c).kernel s = s.kernel from rfl, hq]
    dsimp only
    rw [if_neg (not_lt.mpr hle), hk, bind_eq_ok_left]
    rfl

/-- Handling the next event raises a scheduler error if and only if the event is a
completion timer that is not fresh. -/
theorem processEvent_schedulerError_iff (hc : c.WellFormed) (hv : Visited c s)
    (hnext : (nextEvent c s).isSome) :
    (∃ e, (host c).processEvent s = .error e ∧ e.isSchedulerError = true) ↔ ¬TimerFresh c s := by
  obtain ⟨ev, hev⟩ := Option.isSome_iff_exists.mp hnext
  obtain ⟨k, message, hpop, heq⟩ := processEvent_eq hc hv hev
  have hfresh : TimerFresh c s ↔ ∀ jobId, ev.payload = .client (.complete jobId) →
      ev.timePs = s.kernel.nowPs → jobId ∉ s.kernel.completed := by
    unfold TimerFresh
    rw [hev]
    exact ⟨fun h jobId => h ev jobId rfl, fun h ev' jobId hev' => by
      cases hev'
      exact h jobId⟩
  rw [heq, hfresh]
  constructor
  · rintro ⟨e, herror, hscheduler⟩
    rcases bind_eq_error.mp herror with hinvoke | ⟨s', hinvoke, hprogress⟩
    · rw [invoke_error hc hv hpop hinvoke] at hscheduler
      cases hscheduler
    · rw [← madeProgress_iff hc hv hpop hinvoke]
      split_ifs at hprogress with hp
      exact hp
  · intro hstale
    -- a stale timer belongs to a running job, whose completion handler succeeds
    obtain ⟨jobId, hpayload⟩ : ∃ jobId, ev.payload = .client (.complete jobId) := by
      by_contra hnone
      exact hstale fun jobId hpayload => absurd ⟨jobId, hpayload⟩ hnone
    have hm := Dict.mem_keys.mpr
      ⟨ev, (hv.timers hc).timer_unique ((hv.timers hc).advanced hpop).live hpayload⟩
    have hv' : Visited c (retire c jobId { s with kernel := k }) :=
      hv.step (.complete hpop hpayload hm (retire_spec jobId _))
    obtain ⟨s', hs'⟩ := scheduleDispatch_ok ((hv'.step step_check).timers hc).now_nonneg
    have hinvoke : (host c).invoke ev.payload { s with kernel := k } = .ok s' := by
      rw [hpayload]
      change onComplete c jobId { s with kernel := k } = .ok s'
      have hcontains : s.running.contains jobId = true := Dict.contains_iff.mpr hm
      unfold onComplete
      rw [if_neg (by simp [hcontains]), hs']
    rw [← madeProgress_iff hc hv hpop hinvoke] at hstale
    exact ⟨_, by rw [hinvoke, bind_eq_ok_left, if_neg hstale], rfl⟩

/-- No run raises a scheduler error, and every event of the runner passes the progress
test, exactly as long as every completion timer is fresh when it comes up. -/
theorem no_scheduler_error_iff {sc : Scenario} {plan : Option ℤ} (hv : sc.validate = .ok ())
    (hcompile : compileScenario sc plan = .ok c) :
    ((∀ rounds e, run c rounds = .error e → e.isSchedulerError = false) ∧
      ∀ s s' ev k, Reachable c s → nextEvent c s = some ev → Popped c s.toRunnerCore ev k →
        (host c).invoke ev.payload { s with kernel := k } = .ok s' →
        s.kernel.madeProgress ev s'.kernel = true) ↔
      ∀ s, Reachable c s → TimerFresh c s := by
  obtain ⟨rfl, hc⟩ := compileScenario_wellFormed hv hcompile
  constructor
  · rintro ⟨hrun, _⟩ s hs
    by_contra hstale
    have hnext : (nextEvent c s).isSome := by
      cases hev : nextEvent c s with
      | none =>
        refine absurd (fun ev jobId h => ?_) hstale
        rw [hev] at h
        cases h
      | some ev => rfl
    obtain ⟨e, hfail, hscheduler⟩ :=
      (processEvent_schedulerError_iff hc (hs.visited hc) hnext).mpr hstale
    obtain ⟨rounds, herror⟩ := hs.run_error hnext hfail
    rw [hrun rounds e herror] at hscheduler
    cases hscheduler
  · intro hfresh
    refine ⟨fun rounds e herror => ?_, fun s s' ev k hs hev hpop hinvoke => ?_⟩
    · obtain ⟨t, ht, hnext, hfail⟩ := run_eq_error hc herror
      by_contra hscheduler
      refine (processEvent_schedulerError_iff hc (ht.visited hc) hnext).mp ⟨e, hfail, ?_⟩
        (hfresh t ht)
      simpa using hscheduler
    · exact (madeProgress_iff hc (hs.visited hc) hpop hinvoke).mpr fun jobId =>
        hfresh s hs ev jobId hev

/-- Two jobs that run side by side and finish at the same time. -/
def simultaneous : Scenario :=
  traceScenario [traceClass "A" [0] 1 0 [("compute", 1)], traceClass "B" [0] 1 0 [("compute", 1)]]
    [("compute", 2)]

/-- The second of the two completion timers is taken for a livelock. -/
theorem simultaneous_fails : simultaneous.validate = .ok () ∧
    ∃ c e, compileScenario simultaneous none = .ok c ∧ run c 1 = .error e ∧
      e.isSchedulerError = true := by
  have htest : testAfter simultaneous 0 (fun c _ => match run c 1 with
      | .error e => e.isSchedulerError
      | .ok _ => false) = true := by decide +kernel
  obtain ⟨hv, c, _, hcompile, _, htest⟩ := of_testAfter htest
  cases hrun : run c 1 with
  | error e => exact ⟨hv, c, e, hcompile, hrun, by simpa [hrun] using htest⟩
  | ok m => simp [hrun] at htest

/-- The run of two simultaneous completions meets a timer that is not fresh. -/
theorem no_scheduler_error_iff_simultaneous : ∃ c, compileScenario simultaneous none = .ok c ∧
    ¬∀ s, Reachable c s → TimerFresh c s := by
  have htest : testAfter simultaneous 0 (fun c _ => match run c 1 with
      | .error e => e.isSchedulerError
      | .ok _ => false) = true := by decide +kernel
  obtain ⟨hv, c, _, hcompile, _, htest⟩ := of_testAfter htest
  refine ⟨c, hcompile, fun hfresh => ?_⟩
  have hok := ((no_scheduler_error_iff hv hcompile).mpr hfresh).1 1
  cases hrun : run c 1 with
  | error e => simp [hrun, hok e hrun] at htest
  | ok m => simp [hrun] at htest

end Runner

end NpuArc
