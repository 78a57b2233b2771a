import NpuArc.Runner.Progress

/-!
# Termination of a run

Every event that the runner handles is paid for in advance. An arrival pays for itself and
for the dispatch that it requests, and a completion timer that passes the progress test either
takes time forward or completes one more job, which pays for the timer and for the dispatch
that it requests. Restarted jobs cost nothing: their timers are paid for when they come up.
-/

namespace NpuArc

namespace Runner

variable {c : CompiledScenario} {s s' : RunnerState}

/-! ### The measure -/

/-- The events that an event of the queue pays for: an arrival for itself and the dispatch that
it requests, a dispatch for itself, and a completion timer for none. -/
def prepaid (e : RunnerEvent) : ℕ :=
  match e.payload with
  | .client (.arrival _) => 2
  | .client .dispatch => 1
  | _ => 0

/-- The number of releases whose job the kernel has not completed. -/
def uncompleted (c : CompiledScenario) (k : Kernel RunnerPayload) : ℕ :=
  (c.releases.filter fun r => decide (r.jobId ∉ k.completed)).length

/-- The events that are paid for in a state of the kernel. -/
def eventsLeft (c : CompiledScenario) (k : Kernel RunnerPayload) : ℕ :=
  k.queue.weight prepaid + 2 * (maxTimePs c - k.nowPs).toNat + 2 * uncompleted c k

theorem uncompleted_sublist {k k' : Kernel RunnerPayload} (h : k.completed ⊆ k'.completed) :
    (c.releases.filter fun r => decide (r.jobId ∉ k'.completed)).Sublist
      (c.releases.filter fun r => decide (r.jobId ∉ k.completed)) := by
  apply List.monotone_filter_right
  intro r hr
  simp only [decide_eq_true_eq] at hr ⊢
  exact fun hdone => hr (h hdone)

theorem uncompleted_mono {k k' : Kernel RunnerPayload} (h : k.completed ⊆ k'.completed) :
    uncompleted c k' ≤ uncompleted c k := (uncompleted_sublist h).length_le

/-- Completing one more job of the scenario leaves fewer of them. -/
theorem uncompleted_lt {k k' : Kernel RunnerPayload} {jobId : String}
    (h : k.completed ⊆ k'.completed) (hknown : Known c jobId) (hnew : jobId ∉ k.completed)
    (hdone : jobId ∈ k'.completed) : uncompleted c k' < uncompleted c k := by
  apply lt_of_le_of_ne (uncompleted_mono h)
  intro heq
  have hsame := (uncompleted_sublist h).eq_of_length heq
  obtain ⟨r, hr, rfl⟩ := List.mem_map.mp hknown
  have hmem : r ∈ c.releases.filter fun r => decide (r.jobId ∉ k'.completed) :=
    hsame ▸ List.mem_filter.mpr ⟨hr, by simpa using hnew⟩
  have hopen := (List.mem_filter.mp hmem).2
  simp [hdone] at hopen

/-! ### Handling an event -/

/-- A step of a dispatch pass leaves what is paid for. -/
private theorem PassStep.paid (hc : c.WellFormed) (hv : Visited c s) (h : PassStep c s s') :
    s'.kernel.queue.weight prepaid = s.kernel.queue.weight prepaid ∧
      s'.kernel.nowPs = s.kernel.nowPs ∧ s'.kernel.completed = s.kernel.completed := by
  cases h with
  | offer _ => exact ⟨rfl, rfl, rfl⟩
  | start hst _ hs =>
    obtain ⟨jobs, job, _, _, _, _, hkernel⟩ :=
      hs.kernel_eq hc (hv.timers hc) ((hv.places hc).known _ hst.1)
    rw [hkernel]
    refine ⟨?_, rfl, rfl⟩
    rw [EventQueue.weight_insert]
    rfl
  | @preempt jobId ev _ _ hs =>
    obtain ⟨jobs, hhide, _⟩ := hideJob_spec (c := c) jobId (s.kernel.cancelEvent ev)
    rw [hs.kernel, hhide]
    exact ⟨EventQueue.weight_cancel _ _ _, rfl, rfl⟩

/-- A dispatch pass leaves what is paid for. -/
theorem PassSteps.paid (hc : c.WellFormed) (hv : Visited c s) (h : PassSteps c s s') :
    s'.kernel.queue.weight prepaid = s.kernel.queue.weight prepaid ∧
      s'.kernel.nowPs = s.kernel.nowPs ∧ s'.kernel.completed = s.kernel.completed := by
  induction h with
  | refl => exact ⟨rfl, rfl, rfl⟩
  | tail hsteps hstep ih =>
    obtain ⟨hweight, hnow, hcompleted⟩ := hstep.paid hc (hv.steps (PassSteps.steps hsteps))
    exact ⟨hweight.trans ih.1, hnow.trans ih.2.1, hcompleted.trans ih.2.2⟩

theorem dispatch_paid (hc : c.WellFormed) (hv : Visited c s) (h : dispatch c s = .ok s') :
    s'.kernel.queue.weight prepaid = s.kernel.queue.weight prepaid ∧
      s'.kernel.nowPs = s.kernel.nowPs ∧ s'.kernel.completed = s.kernel.completed := by
  obtain ⟨t, hpass, rfl⟩ := steps_dispatch hc hv h
  rw [(maybeRecordRecovery_spec t).kernel]
  exact hpass.paid hc hv

/-- Requesting a dispatch pays for it. -/
theorem scheduleDispatch_paid (h : scheduleDispatch s = .ok s') :
    s'.kernel.queue.weight prepaid = s.kernel.queue.weight prepaid + 1 ∧
      s'.kernel.nowPs = s.kernel.nowPs ∧ s'.kernel.completed = s.kernel.completed := by
  obtain ⟨_, rfl⟩ := scheduleDispatch_eq_ok.mp h
  refine ⟨?_, rfl, rfl⟩
  change (s.kernel.queue.insert _ _ _).weight prepaid = _
  rw [EventQueue.weight_insert]
  rfl

/-- Popping an event takes what it pays for. -/
theorem Popped.paid (ht : Timers c s.toRunnerCore) {ev : RunnerEvent} {k : Kernel RunnerPayload}
    (hpop : Popped c s.toRunnerCore ev k) :
    k.queue.weight prepaid + prepaid ev ≤ s.kernel.queue.weight prepaid ∧
      s.kernel.completed ⊆ k.completed := by
  have hadv := ht.advanced hpop
  refine ⟨?_, fun a ha => (hadv.completed a).mpr (.inl ha)⟩
  obtain ⟨queue, hqueue, _, hlimit, hconsume⟩ := hpop
  have hkept : k.queue = queue := by
    have hquiet := ht.quiet (k := { s.kernel with queue := queue, nowPs := ev.timePs }) rfl rfl hlimit
    by_cases htime : s.kernel.nowPs < ev.timePs
    · obtain ⟨jobs, completed, hresult, _⟩ := Kernel.consumeElapsedWork_of_quiet hquiet htime
      cases hresult.symm.trans hconsume
      rfl
    · cases (Kernel.consumeElapsedWork_of_le (not_lt.mp htime)).symm.trans hconsume
      rfl
  rw [hkept]
  exact EventQueue.weight_pop prepaid hqueue

/-- Handling the completion of a running job pays for the dispatch that it requests. -/
theorem onComplete_paid {k : Kernel RunnerPayload} (hquiet : k.Quiet) {jobId : String}
    {job : JobHandle} (hget : k.jobs.get? jobId = some job)
    (hstate : job.state = .running ∨ job.state = .completed) (hrunning : jobId ∈ s.running.keys)
    (h : onComplete c jobId { s with kernel := k } = .ok s') :
    s'.kernel.queue.weight prepaid = k.queue.weight prepaid + 1 := by
  have hcontains : s.running.contains jobId = true := Dict.contains_iff.mpr hrunning
  unfold onComplete at h
  rw [if_neg (by simp [hcontains])] at h
  have hkernel : (maybeRecordRecovery c (retire c jobId { s with kernel := k })).kernel =
      suppressComplete jobId k :=
    (maybeRecordRecovery_spec _).kernel.trans (retire_spec jobId _).kernel
  rw [(scheduleDispatch_paid h).1, hkernel]
  unfold suppressComplete
  rw [Kernel.completeJob_of_quiet hquiet hget hstate]
  split_ifs
  · rfl
  · rfl

/-- A completion timer that passes the progress test takes time forward or completes one more
job. -/
theorem eventsLeft_complete (hc : c.WellFormed) (hv : Visited c s) {ev : RunnerEvent}
    {k : Kernel RunnerPayload} (hpop : Popped c s.toRunnerCore ev k) {jobId : String}
    (hget : s.running.get? jobId = some ev) (h : onComplete c jobId { s with kernel := k } = .ok s')
    (hfresh : ev.timePs = s.kernel.nowPs → jobId ∉ s.kernel.completed) :
    eventsLeft c s'.kernel < eventsLeft c s.kernel := by
  have ht := hv.timers hc
  have hadv := ht.advanced hpop
  obtain ⟨hweight, hsub⟩ := hpop.paid ht
  obtain ⟨_, _, _, hlimit, _⟩ := hpop
  have hrunning := Dict.mem_keys.mpr ⟨ev, hget⟩
  obtain ⟨_, _, job, hjob, hhandle⟩ := ht.timer jobId ev hget
  have hjob' := hadv.jobs jobId
  rw [hjob, Option.map_some] at hjob'
  have hhandle' := handleOf_advance hhandle hadv.future le_rfl
  have hstate := hhandle'.2.imp id And.left
  obtain ⟨hnow, _, hcompleted⟩ := onComplete_kernel hadv.quiet hjob' hstate hrunning h
  have hpaid := onComplete_paid hadv.quiet hjob' hstate hrunning h
  have hkept : k.completed ⊆ s'.kernel.completed := by
    rw [hcompleted]
    split_ifs
    · exact List.Subset.refl _
    · unfold Kernel.addCompleted
      split_ifs
      · exact List.Subset.refl _
      · exact List.subset_append_left _ _
  have hmono : uncompleted c s'.kernel ≤ uncompleted c s.kernel :=
    uncompleted_mono (List.Subset.trans hsub hkept)
  have hnow' : s'.kernel.nowPs = ev.timePs := hnow.trans hadv.now
  unfold eventsLeft
  by_cases htime : s.kernel.nowPs < ev.timePs
  · omega
  · have hnow₀ : s.kernel.nowPs = ev.timePs := le_antisymm hadv.future (not_lt.mp htime)
    have hp := hv.places hc
    have hknown : Known c jobId :=
      hp.known jobId (hp.moved jobId (by simp [(hp.running jobId).mp hrunning]))
    have hlt : uncompleted c s'.kernel < uncompleted c s.kernel := by
      apply uncompleted_lt (List.Subset.trans hsub hkept) hknown (hfresh hnow₀.symm)
      rw [hcompleted]
      split_ifs with hdone
      · unfold advance at hdone
        rw [if_neg (by omega)] at hdone
        rcases ht.handle jobId job hjob with ⟨hpending, _⟩ | ⟨hrun, _⟩ | ⟨_, hmem⟩
        · rw [hdone] at hpending
          cases hpending
        · rw [hdone] at hrun
          cases hrun
        · exact hsub hmem
      · unfold Kernel.addCompleted
        split_ifs with hmem
        · exact hmem
        · exact List.mem_append_right _ List.mem_cons_self
    omega

/-- An event that is handled and passes the progress test has been paid for. -/
theorem eventsLeft_lt (hc : c.WellFormed) (hv : Visited c s) {ev : RunnerEvent}
    {k : Kernel RunnerPayload} (hpop : Popped c s.toRunnerCore ev k)
    (h : (host c).invoke ev.payload { s with kernel := k } = .ok s')
    (hprogress : s.kernel.madeProgress ev s'.kernel = true) :
    eventsLeft c s'.kernel < eventsLeft c s.kernel := by
  have ht := hv.timers hc
  have hadv := ht.advanced hpop
  rcases ht.event ev hadv.live with ⟨jobId, htimer, hget⟩ | ⟨_, hpayload⟩
  · have hcomplete : onComplete c jobId { s with kernel := k } = .ok s' := by
      rw [htimer.2] at h
      exact h
    exact eventsLeft_complete hc hv hpop hget hcomplete
      ((madeProgress_iff hc hv hpop h).mp hprogress jobId htimer.2)
  · obtain ⟨hweight, hsub⟩ := hpop.paid ht
    have hfuture := hadv.future
    have hnow := hadv.now
    have hmono : ∀ k' : Kernel RunnerPayload, k'.completed = k.completed →
        uncompleted c k' ≤ uncompleted c s.kernel := by
      intro k' heq
      exact uncompleted_mono (heq ▸ hsub)
    rcases hpayload with hpayload | ⟨r, hr, hpayload, _⟩
    · rw [hpayload] at h
      have hprepaid : prepaid ev = 1 := by
        unfold prepaid
        rw [hpayload]
      obtain ⟨hweight', hnow', hcompleted⟩ := dispatch_paid hc (hv.step (.dispatch hpop hpayload)) h
      have hweight' : s'.kernel.queue.weight prepaid = k.queue.weight prepaid := hweight'
      have hnow' : s'.kernel.nowPs = k.nowPs := hnow'
      have hmono' := hmono s'.kernel hcompleted
      unfold eventsLeft
      omega
    · rw [hpayload] at h
      have hprepaid : prepaid ev = 2 := by
        unfold prepaid
        rw [hpayload]
      obtain ⟨u, v, hreceived, hrequest, hdispatch⟩ :=
        arrival_cases hc ((hv.places hc).setKernel k) hr h
      have hvisited : Visited c v :=
        ((hv.step (.arrive hpop hpayload hr hreceived)).step step_check).step (step_request hrequest)
      have hkernel : (maybeRecordRecovery c u).kernel = k :=
        (maybeRecordRecovery_spec u).kernel.trans hreceived.kernel
      obtain ⟨hweight₁, hnow₁, hcompleted₁⟩ := scheduleDispatch_paid hrequest
      obtain ⟨hweight₂, hnow₂, hcompleted₂⟩ := dispatch_paid hc hvisited hdispatch
      rw [hkernel] at hweight₁ hnow₁ hcompleted₁
      have hmono' := hmono s'.kernel (hcompleted₂.trans hcompleted₁)
      unfold eventsLeft
      omega

/-! ### Runs -/

/-- A bound on the events of a run. -/
def eventBound (c : CompiledScenario) : ℕ :=
  4 * c.releases.length + 2 * (maxTimePs c).toNat + 1

theorem eventsLeft_processEvent (hc : c.WellFormed) (hs : Reachable c s)
    (hnext : (nextEvent c s).isSome) (h : (host c).processEvent s = .ok s') :
    Reachable c s' ∧ eventsLeft c s'.kernel < eventsLeft c s.kernel := by
  obtain ⟨ev, hev⟩ := Option.isSome_iff_exists.mp hnext
  obtain ⟨k, hpop, hinvoke, hprogress⟩ := processEvent_eq_ok hev h
  exact ⟨hs.step hev h, eventsLeft_lt hc (hs.visited hc) hpop hinvoke hprogress⟩

/-- The events of a run are paid for in its first state. -/
theorem Events.eventsLeft {n : ℕ} (hc : c.WellFormed) (hs : Reachable c s) (h : Events c n s s') :
    n + eventsLeft c s'.kernel ≤ Runner.eventsLeft c s.kernel := by
  induction h with
  | zero s => omega
  | succ hnext h _ ih =>
    obtain ⟨ht, hlt⟩ := eventsLeft_processEvent hc hs hnext h
    have hrest := ih ht
    omega

/-- The arrivals and the first dispatch pay for themselves. -/
theorem scheduleArrivals_paid (h : scheduleArrivals c (Runner.init c) = .ok s) :
    eventsLeft c s.kernel ≤ eventBound c := by
  have hfold : ∀ (releases : List JobRelease) (k k' : Kernel RunnerPayload),
      releases.foldlM scheduleRelease k = .ok k' →
      k'.queue.weight prepaid = k.queue.weight prepaid + 2 * releases.length ∧
        k'.nowPs = k.nowPs := by
    intro releases
    induction releases with
    | nil =>
      intro k k' hk
      cases hk
      exact ⟨rfl, rfl⟩
    | cons r releases ih =>
      intro k k' hk
      rw [List.foldlM_cons] at hk
      obtain ⟨k₁, hk₁, hrest⟩ := bind_eq_ok.mp hk
      obtain ⟨_, _, rfl⟩ := scheduleRelease_eq_ok.mp hk₁
      obtain ⟨hweight, hnow⟩ := ih _ _ hrest
      refine ⟨?_, hnow⟩
      rw [hweight, EventQueue.weight_insert, List.length_cons]
      unfold prepaid
      dsimp only
      omega
  simp only [scheduleArrivals, bind_eq_ok, Prod.exists] at h
  obtain ⟨k, harrivals, ev, k', hschedule, heq⟩ := h
  cases heq
  obtain ⟨hweight, hnow⟩ := hfold _ _ _ harrivals
  obtain ⟨_, _, _, rfl⟩ := Kernel.schedule_eq_ok.mp hschedule
  have hempty : (Runner.init c).kernel.queue.weight prepaid = 0 := rfl
  have hzero : (Runner.init c).kernel.nowPs = 0 := rfl
  have huncompleted : ∀ k : Kernel RunnerPayload, uncompleted c k ≤ c.releases.length :=
    fun k => List.length_filter_le _ _
  have hopen := huncompleted { k with queue := k.queue.insert 0 .dispatch (.client .dispatch) }
  have hfirst : (k.queue.insert 0 .dispatch (.client .dispatch)).weight prepaid =
      k.queue.weight prepaid + 1 := EventQueue.weight_insert _ _ _ _ _
  unfold eventsLeft eventBound
  dsimp only
  rw [hfirst, hweight, hempty]
  have hnow : k.nowPs = 0 := hnow.trans hzero
  omega

theorem Reachable.eventsLeft_le (hc : c.WellFormed) (hs : Reachable c s) :
    eventsLeft c s.kernel ≤ eventBound c := by
  obtain ⟨s₀, n, hs₀, hevents⟩ := hs.events
  have hpaid := hevents.eventsLeft hc (.init hs₀)
  have hinit := scheduleArrivals_paid hs₀
  omega

/-- The state after a number of events is determined. -/
theorem Events.unique {n : ℕ} {t t' : RunnerState} (h : Events c n s t) (h' : Events c n s t') :
    t = t' := by
  induction h with
  | zero s =>
    cases h'
    rfl
  | succ _ hstep _ ih =>
    cases h' with
    | succ _ hstep' hrest' =>
      cases hstep.symm.trans hstep'
      exact ih hrest'

/-- Finitely many events schedule finitely many events. -/
theorem exists_scheduled_le (c : CompiledScenario) (s : RunnerState) (m : ℕ) :
    ∃ scheduled, ∀ n t, n ≤ m → Events c n s t → t.kernel.queue.seq ≤ scheduled := by
  induction m with
  | zero =>
    refine ⟨s.kernel.queue.seq, fun n t hn ht => ?_⟩
    obtain rfl : n = 0 := by omega
    cases ht
    exact le_rfl
  | succ m ih =>
    obtain ⟨scheduled, hscheduled⟩ := ih
    by_cases hlast : ∃ t, Events c (m + 1) s t
    · obtain ⟨last, hlast⟩ := hlast
      refine ⟨max scheduled last.kernel.queue.seq, fun n t hn ht => ?_⟩
      by_cases hm : n ≤ m
      · exact (hscheduled n t hm ht).trans (le_max_left _ _)
      · obtain rfl : n = m + 1 := by omega
        rw [ht.unique hlast]
        exact le_max_right _ _
    · refine ⟨scheduled, fun n t hn ht => ?_⟩
      by_cases hm : n ≤ m
      · exact hscheduled n t hm ht
      · obtain rfl : n = m + 1 := by omega
        exact absurd ⟨t, ht⟩ hlast

/-- A run of the kernel handles as many events as it may, or stops before. -/
theorem events_of_runUntil {n : ℕ} (h : (host c).runUntil (some (maxTimePs c)) n s = .ok s') :
    ∃ m, Events c m s s' ∧ m ≤ n ∧ (m < n → nextEvent c s' = none) := by
  induction n generalizing s with
  | zero =>
    cases h
    exact ⟨0, .zero _, le_rfl, fun hlt => absurd hlt (lt_irrefl _)⟩
  | succ n ih =>
    rw [runUntil_succ] at h
    split_ifs at h with hnext
    · obtain ⟨t, hstep, hrest⟩ := bind_eq_ok.mp h
      obtain ⟨m, hm, hle, hstop⟩ := ih hrest
      exact ⟨m + 1, .succ hnext hstep hm, by omega, fun hlt => hstop (by omega)⟩
    · cases h
      exact ⟨0, .zero _, by omega, fun _ => by simpa using hnext⟩

/-- Every round of the outer loop handles an event that has been paid for. -/
theorem rounds_le_of_runLoop (hc : c.WellFormed) {rounds : ℕ} (hs : Reachable c s)
    (h : runLoop c rounds s = .ok none) : rounds ≤ eventsLeft c s.kernel := by
  induction rounds generalizing s with
  | zero => omega
  | succ rounds ih =>
    unfold runLoop at h
    cases hnext : nextEvent c s with
    | none =>
      simp only [hnext] at h
      cases h
    | some ev =>
      simp only [hnext] at h
      obtain ⟨t, hround, hrest⟩ := bind_eq_ok.mp h
      have hrounds := ih (hs.after_runUntil hround) hrest
      obtain ⟨m, hm, _, hstop⟩ := events_of_runUntil hround
      have hpaid := hm.eventsLeft hc hs
      have hpositive : 0 < m := by
        by_contra hzero
        obtain rfl : m = 0 := by omega
        cases hm
        have hnone := hstop (by omega)
        rw [hnext] at hnone
        cases hnone
      omega

/-- Every run of a compiled scenario terminates: it handles and schedules finitely many
events, the kernel stops by itself, and the outer loop ends or raises an exception. -/
theorem run_terminates {sc : Scenario} {plan : Option ℤ} (hv : sc.validate = .ok ())
    (hcompile : compileScenario sc plan = .ok c) :
    (∀ s₀ n s, scheduleArrivals c (Runner.init c) = .ok s₀ → Events c n s₀ s → n ≤ eventBound c) ∧
      (∃ scheduled, ∀ s, Reachable c s → s.kernel.queue.seq ≤ scheduled) ∧
      (∀ s s' n, Reachable c s → eventBound c < n →
        (host c).runUntil (some (maxTimePs c)) n s = .ok s' → nextEvent c s' = none) ∧
      ∀ rounds, eventBound c < rounds → run c rounds ≠ .ok none := by
  obtain ⟨rfl, hc⟩ := compileScenario_wellFormed hv hcompile
  refine ⟨?_, ?_, ?_, ?_⟩
  · intro s₀ n s hs₀ hevents
    have hpaid := hevents.eventsLeft hc (.init hs₀)
    have hinit := scheduleArrivals_paid hs₀
    omega
  · obtain ⟨s₀, hs₀⟩ := scheduleArrivals_ok hc
    obtain ⟨scheduled, hscheduled⟩ := exists_scheduled_le c s₀ (eventBound c)
    refine ⟨scheduled, fun s hs => ?_⟩
    obtain ⟨s₁, n, hs₁, hevents⟩ := hs.events
    cases hs₀.symm.trans hs₁
    have hpaid := hevents.eventsLeft hc (.init hs₀)
    have hinit := scheduleArrivals_paid hs₀
    exact hscheduled n s (by omega) hevents
  · intro s s' n hs hn hrun
    obtain ⟨m, hm, _, hstop⟩ := events_of_runUntil hrun
    have hpaid := hm.eventsLeft hc hs
    have hbound := hs.eventsLeft_le hc
    exact hstop (by omega)
  · intro rounds hrounds hrun
    unfold run at hrun
    obtain ⟨s₀, hs₀, hrun⟩ := bind_eq_ok.mp hrun
    obtain ⟨final, hloop, hfinal⟩ := bind_eq_ok.mp hrun
    cases final with
    | none =>
      have hle := rounds_le_of_runLoop hc (.init hs₀) hloop
      have hinit := scheduleArrivals_paid hs₀
      omega
    | some _ => cases hfinal

/-- The run with two simultaneous completions ends or raises an exception. -/
theorem run_terminates_simultaneous : ∃ c, compileScenario simultaneous none = .ok c ∧
    ∀ rounds, eventBound c < rounds → run c rounds ≠ .ok none := by
  have htest : testAfter simultaneous 0 (fun _ _ => true) = true := by decide +kernel
  obtain ⟨hv, c, _, hcompile, _, _⟩ := of_testAfter htest
  exact ⟨c, hcompile, (run_terminates hv hcompile).2.2.2⟩

end Runner

end NpuArc
