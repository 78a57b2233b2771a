import NpuArc.Runner.Accounting

/-!
# Stability and deadline misses

A run is called stable when no measured job was dropped, replaced, or timed out and none
missed its deadline. A miss is read off the outcome of a record, and an unfinished job keeps
the outcome `completed`. What the flag promises therefore depends on where the unfinished
jobs are when the run ends: the end of the run only looks into the FIFOs.
-/

namespace NpuArc

/-- The job completed no later than its deadline. -/
def JobMetricRecord.OnTime (r : JobMetricRecord) : Prop :=
  ∃ t ∈ r.completePs, t ≤ r.deadlinePs

instance (r : JobMetricRecord) : Decidable r.OnTime :=
  inferInstanceAs (Decidable (∃ t ∈ r.completePs, t ≤ r.deadlinePs))

namespace Runner

open MetricsCollector

variable {c : CompiledScenario} {s s' : RunnerState} {jobId : String}

/-! ### Arrivals -/

/-- Every release is recorded, or its arrival event is still to come. -/
def Awaited (c : CompiledScenario) (s : RunnerState) : Prop :=
  ∀ r ∈ c.releases, s.verdict r.jobId ≠ none ∨
    ∃ e, s.kernel.queue.Live e ∧ e.payload = .client (.arrival r) ∧ e.timePs = r.arrivalPs

/-- A step that keeps the records and the events of other arrivals keeps the releases
awaited. -/
theorem Awaited.of_kept (h : Awaited c s)
    (hverdict : ∀ a, s.verdict a ≠ none → s'.verdict a ≠ none)
    (hlive : ∀ (e : RunnerEvent) r, e.payload = .client (.arrival r) → s.kernel.queue.Live e →
      s'.kernel.queue.Live e ∨ s'.verdict r.jobId ≠ none) : Awaited c s' := by
  intro r hr
  rcases h r hr with hseen | ⟨e, he, hpayload, htime⟩
  · exact .inl (hverdict _ hseen)
  · rcases hlive e r hpayload he with he' | hseen
    · exact .inr ⟨e, he', hpayload, htime⟩
    · exact .inl hseen

/-- Popping an event that is no arrival keeps the arrivals. -/
theorem Popped.keeps_arrival (ht : Timers c s.toRunnerCore) {ev : RunnerEvent}
    {k : Kernel RunnerPayload} (hpop : Popped c s.toRunnerCore ev k) {e : RunnerEvent}
    {r : JobRelease} (hpayload : e.payload = .client (.arrival r))
    (hev : ev.payload ≠ .client (.arrival r)) (he : s.kernel.queue.Live e) : k.queue.Live e := by
  refine ((ht.advanced hpop).queue e).mpr ⟨he, ?_⟩
  rintro rfl
  exact hev hpayload

/-- Every step keeps the releases recorded or awaited. -/
theorem Awaited.step (hc : c.WellFormed) (hv : Visited c s) (h : Awaited c s)
    (hstep : Step c s s') : Awaited c s' := by
  have ht := hv.timers hc
  have hpass : ∀ {s'}, PassStep c s s' → (∀ a, s'.verdict a = s.verdict a) → Awaited c s' := by
    intro s' hpass hverdict
    have hlive := (PassSteps.kernel hc hv (.single hpass)).2
    refine h.of_kept (fun a ha => (hverdict a).symm ▸ ha) fun e r hpayload he => ?_
    exact .inl ((hlive e (by simp [hpayload])).mpr he)
  cases hstep with
  | dispatch hpop hpayload =>
    refine h.of_kept (fun _ ha => ha) fun e r he hlive => ?_
    exact .inl (hpop.keeps_arrival ht he (by simp [hpayload]) hlive)
  | stale hpop hpayload _ =>
    refine h.of_kept (fun _ ha => ha) fun e r he hlive => ?_
    exact .inl (hpop.keeps_arrival ht he (by simp [hpayload]) hlive)
  | @arrive ev k r _ hpop hpayload _ hr =>
    refine h.of_kept (fun a ha => (hr.verdict_ne_none a).mpr (.inr ha)) fun e r' he hlive => ?_
    by_cases hsame : ev.payload = .client (.arrival r')
    · -- the release of the popped event is recorded now
      rw [hpayload] at hsame
      cases hsame
      exact .inr ((hr.verdict_ne_none _).mpr (.inl rfl))
    · left
      rw [hr.kernel]
      exact hpop.keeps_arrival ht he hsame hlive
  | @complete ev k jobId _ hpop hpayload _ hr =>
    have hadv := ht.advanced hpop
    obtain ⟨_, _, job, hjob, _, hstate⟩ :=
      (ht.pop hpop).timer _ _ (ht.timer_unique hadv.live hpayload)
    obtain ⟨jobs, completed, hkernel, _⟩ :=
      suppressComplete_spec hadv.quiet hjob (hstate.imp id And.left)
    refine h.of_kept (fun a ha => ?_) fun e r he hlive => ?_
    · rw [hr.verdict]
      split_ifs
      · exact mt Option.map_eq_none_iff.mp ha
      · exact ha
    · left
      rw [hr.kernel, hkernel]
      exact hpop.keeps_arrival ht he (by simp [hpayload]) hlive
  | offer hstartable => exact hpass (.offer hstartable) fun _ => rfl
  | start hstartable hfits hs => exact hpass (.start hstartable hfits hs) hs.verdict
  | preempt hrunning hs => exact hpass (.preempt hrunning hs) hs.verdict
  | check _ hs =>
    refine h.of_kept (fun a ha => (hs.verdict a).symm ▸ ha) fun e r _ hlive => ?_
    rw [hs.kernel]
    exact .inl hlive
  | request _ =>
    refine h.of_kept (fun _ ha => ha) fun e r _ hlive => ?_
    exact .inl ((EventQueue.insert_live ht.cancelled).mpr (.inr hlive))

theorem Visited.awaited (hc : c.WellFormed) (h : Visited c s) : Awaited c s := by
  induction h with
  | init h =>
    obtain ⟨k, rfl, _, _, _, _, hlive⟩ := scheduleArrivals_kernel h
    intro r hr
    obtain ⟨i, hi⟩ := List.mem_iff_getElem?.mp hr
    exact .inr ⟨_, (hlive _).mpr (.inr ⟨i, r, hi, rfl⟩), rfl, rfl⟩
  | step hs h ih => exact ih.step hc hs h

/-- When a run ends every release that arrives up to the limit is recorded. -/
theorem recorded_of_end (hc : c.WellFormed) (hs : Reachable c s) (hend : nextEvent c s = none)
    {r : JobRelease} (hr : r ∈ c.releases) (hlimit : r.arrivalPs ≤ maxTimePs c) :
    s.verdict r.jobId ≠ none := by
  rcases (hs.visited hc).awaited hc r hr with hseen | ⟨e, he, _, htime⟩
  · exact hseen
  · exfalso
    cases hpop : s.kernel.queue.pop with
    | mk first queue =>
      unfold nextEvent at hend
      rw [EventQueue.peek_eq_pop, hpop] at hend
      cases first with
      | none =>
        have hpeek := EventQueue.peek_eq_pop s.kernel.queue
        rw [hpop] at hpeek
        have hnone := List.find?_eq_none.mp hpeek e he.1
        exact hnone (decide_eq_true he.2)
      | some ev =>
        have hlater : ¬ev.timePs ≤ maxTimePs c := by simpa using hend
        have hleast := timePs_le_of_eventKey_le (EventQueue.pop_least hpop he)
        omega

/-! ### Deadline misses -/

/-- The metrics of the final state tell which jobs met their deadline: a stable run completed
every measured job that was not rejected in time, and the deadline misses are the measured jobs
that were not rejected and are unfinished or late. -/
structure StabilitySound (c : CompiledScenario) (s : RunnerState) : Prop where
  sound : (finish c s).stable = true →
    ∀ r ∈ (drain s).measurementJobs, r.outcome ≠ .rejected → r.OnTime
  counted : ∀ r ∈ (drain s).measurementJobs,
    isDeadlineMiss r = true ↔ r.outcome ≠ .rejected ∧ ¬r.OnTime
  missCount : (finish c s).deadlineMissCount =
    ((drain s).measurementJobs.filter fun r =>
      decide (r.outcome ≠ .rejected ∧ ¬r.OnTime)).length

/-- Every measured job without a recorded fate waits in a FIFO, and none that completed in time
does. -/
def MissesSettled (c : CompiledScenario) (s : RunnerState) : Prop :=
  ∀ r ∈ s.collector.measurementJobs,
    (r.completePs = none → r.outcome = .completed → r.jobId ∈ fifoOf c r.jobId s.toRunnerCore) ∧
    (r.jobId ∈ fifoOf c r.jobId s.toRunnerCore → ¬r.OnTime)

instance : Decidable (MissesSettled c s) := inferInstanceAs (Decidable (∀ r ∈ _, _))

/-- A stable run has no deadline miss. -/
theorem finish_stable_iff : (finish c s).stable = true ↔
    ∀ r ∈ (drain s).measurementJobs, isDeadlineMiss r = false := by
  have hstable : (finish c s).stable =
      ((withOutcome (drain s).measurementJobs .dropped).isEmpty &&
        (withOutcome (drain s).measurementJobs .replaced).isEmpty &&
        (withOutcome (drain s).measurementJobs .timeout).isEmpty &&
        ((drain s).measurementJobs.filter isDeadlineMiss).isEmpty) := rfl
  have hnone : ∀ outcome, (∀ r : JobMetricRecord, r.outcome = outcome → isDeadlineMiss r = true) →
      (∀ r ∈ (drain s).measurementJobs, isDeadlineMiss r = false) →
      (withOutcome (drain s).measurementJobs outcome).isEmpty = true := by
    intro outcome hmiss hall
    rw [List.isEmpty_iff, withOutcome, List.filter_eq_nil_iff]
    intro r hr hout
    have hcount := hmiss r (of_decide_eq_true hout)
    rw [hall r hr] at hcount
    cases hcount
  rw [hstable]
  constructor
  · intro h r hr
    rw [Bool.and_eq_true, List.isEmpty_iff, List.filter_eq_nil_iff] at h
    simpa using h.2 r hr
  · intro hall
    rw [hnone .dropped (fun r h => by simp [isDeadlineMiss, h]) hall,
      hnone .replaced (fun r h => by simp [isDeadlineMiss, h]) hall,
      hnone .timeout (fun r h => by simp [isDeadlineMiss, h]) hall, Bool.true_and, Bool.true_and,
      Bool.true_and, List.isEmpty_iff, List.filter_eq_nil_iff]
    simpa using hall

/-- The counted misses settle the flag and the count. -/
theorem StabilitySound.of_counted (h : ∀ r ∈ (drain s).measurementJobs,
    isDeadlineMiss r = true ↔ r.outcome ≠ .rejected ∧ ¬r.OnTime) : StabilitySound c s where
  sound hstable r hr hout := by
    by_contra hlate
    have hmiss := (h r hr).mpr ⟨hout, hlate⟩
    rw [finish_stable_iff.mp hstable r hr] at hmiss
    cases hmiss
  counted := h
  missCount := by
    refine congrArg List.length (List.filter_congr fun r hr => ?_)
    rw [Bool.eq_iff_iff, decide_eq_true_iff]
    exact h r hr

/-- Outside the FIFOs a truthful record is counted as it should be unless it is unfinished and
has no recorded fate. -/
theorem isDeadlineMiss_iff {r : JobMetricRecord} (hcompleted : r.completePs.isSome →
    r.outcome = .completed) (htimeout : r.outcome ≠ .timeout) :
    (isDeadlineMiss r = true ↔ r.outcome ≠ .rejected ∧ ¬r.OnTime) ↔
      (r.completePs = none → r.outcome ≠ .completed) := by
  unfold isDeadlineMiss JobMetricRecord.OnTime
  cases hout : r.outcome with
  | timeout => exact absurd hout htimeout
  | completed =>
    cases hdone : r.completePs with
    | none => simp
    | some t => simp
  | rejected => simp
  | dropped | replaced =>
    have hnone : r.completePs = none := by
      by_contra hsome
      have h := hcompleted (Option.isSome_iff_ne_none.mpr hsome)
      rw [hout] at h
      cases h
    simp [hnone]

/-- The stability flag and the count of deadline misses are sound exactly when, at the end of
the run, every measured job without a recorded fate waits in a FIFO and no job that completed in
time does. -/
theorem stability_sound_iff {sc : Scenario} {plan : Option ℤ} (hv : sc.validate = .ok ())
    (hcompile : compileScenario sc plan = .ok c) {rounds : ℕ}
    (hend : endState c rounds = .ok (some s)) :
    run c rounds = .ok (some (finish c s)) ∧
      (∀ r ∈ c.releases, r.arrivalPs ≤ maxTimePs c → s.verdict r.jobId ≠ none) ∧
      (StabilitySound c s ↔ MissesSettled c s) := by
  obtain ⟨rfl, hc⟩ := compileScenario_wellFormed hv hcompile
  obtain ⟨hreach, hnext, hrun⟩ := endState_eq_some hend
  have hvisited := hreach.visited hc
  have htruth := hvisited.truthful hc
  have hplaces := hvisited.places hc
  have hdrained : ∀ jobId, jobId ∈ drained s.toRunnerCore ↔
      jobId ∈ fifoOf c jobId s.toRunnerCore := fun _ => mem_drained hplaces
  -- what is counted of a record depends on whether its job was drained from a FIFO
  have hcounted : ∀ r ∈ s.collector.measurementJobs,
      ((isDeadlineMiss (afterDrain s.toRunnerCore r) = true ↔
        (afterDrain s.toRunnerCore r).outcome ≠ .rejected ∧
          ¬(afterDrain s.toRunnerCore r).OnTime) ↔
        (r.completePs = none → r.outcome = .completed →
          r.jobId ∈ fifoOf c r.jobId s.toRunnerCore) ∧
        (r.jobId ∈ fifoOf c r.jobId s.toRunnerCore → ¬r.OnTime)) := by
    intro r hr
    have hfate := htruth _ _ (htruth.verdict_of_mem (mem_values_of_mem_measurementJobs hr))
    by_cases hqueued : r.jobId ∈ fifoOf c r.jobId s.toRunnerCore
    · rw [afterDrain, if_pos ((hdrained _).mpr hqueued)]
      have hsame : JobMetricRecord.OnTime { r with outcome := .dropped } ↔ r.OnTime := Iff.rfl
      simp [isDeadlineMiss, hsame, hqueued]
    · rw [afterDrain, if_neg fun hd => hqueued ((hdrained _).mp hd),
        isDeadlineMiss_iff hfate.2.1 hfate.2.2]
      simp [hqueued]
  refine ⟨hrun, fun r hr hlimit => recorded_of_end hc hreach hnext hr hlimit, ?_⟩
  have hmeasured := drain_measurementJobs htruth
  constructor
  · intro h r hr
    refine (hcounted r hr).mp (h.counted _ ?_)
    rw [hmeasured]
    exact List.mem_map_of_mem hr
  · intro h
    apply StabilitySound.of_counted
    rw [hmeasured]
    intro r' hr'
    obtain ⟨r, hr, rfl⟩ := List.mem_map.mp hr'
    exact (hcounted r hr).mpr (h r hr)

/-- A run of one job that is still executing at the limit is called stable. -/
theorem cutOff_called_stable : cutOff.validate = .ok () ∧
    ∃ c s, compileScenario cutOff none = .ok c ∧ endState c 2 = .ok (some s) ∧
      (finish c s).stable = true ∧ (finish c s).deadlineMissCount = 0 ∧ ¬StabilitySound c s := by
  have htest : testEnd cutOff 2 (fun c s => decide ((finish c s).stable = true) &&
      (decide ((finish c s).deadlineMissCount = 0) &&
        (drain s).measurementJobs.any fun r => decide (r.outcome ≠ .rejected ∧ ¬r.OnTime))) =
      true := by
    decide +kernel
  obtain ⟨hv, c, s, hcompile, hend, htest⟩ := of_testEnd htest
  simp only [Bool.and_eq_true, decide_eq_true_eq, List.any_eq_true] at htest
  obtain ⟨hstable, hzero, r, hr, hout, hlate⟩ := htest
  exact ⟨hv, c, s, hcompile, hend, hstable, hzero, fun h => hlate (h.sound hstable r hr hout)⟩

/-- A warmup job occupies the compute unit while a measured job waits. -/
def warmupBlocks : Scenario :=
  { traceScenario [traceClass "A" [0] 200 1 [("compute", 1)],
      traceClass "B" [0, 1] 5 0 [("compute", 1)]] [] with warmupCount := 1 }

/-- The measured job that is left in its FIFO is counted as a miss. -/
theorem stability_sound_iff_queued : ∃ c s, endState c 2 = .ok (some s) ∧
    (finish c s).deadlineMissCount = 1 ∧ StabilitySound c s := by
  have htest : testEnd warmupBlocks 2 (fun c s =>
      decide ((finish c s).deadlineMissCount = 1) && decide (MissesSettled c s)) = true := by
    decide +kernel
  obtain ⟨hv, c, s, hcompile, hend, htest⟩ := of_testEnd htest
  simp only [Bool.and_eq_true, decide_eq_true_eq] at htest
  exact ⟨c, s, hend, htest.1, (stability_sound_iff hv hcompile hend).2.2.mpr htest.2⟩

end Runner

end NpuArc
