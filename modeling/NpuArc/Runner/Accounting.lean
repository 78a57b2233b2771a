import NpuArc.Runner.Presence

/-!
# Outcomes at the end of a run

A record starts with the outcome `completed` and keeps it until something else is
recorded. The metrics therefore count an unfinished job as completed, unless it still
waits in a FIFO, where the end of the run drops it.
-/

namespace NpuArc

/-! ### Counting records by outcome -/

namespace MetricsCollector

/-- The records that keep the outcome `completed` without a completion time. -/
def unfinished (jobs : List JobMetricRecord) : List JobMetricRecord :=
  jobs.filter fun j => decide (j.outcome = .completed) && j.completePs.isNone

/-- Every record without a timeout has exactly one of the other four outcomes. -/
theorem length_eq_outcomes {jobs : List JobMetricRecord}
    (h : ∀ j ∈ jobs, j.outcome ≠ .timeout) :
    jobs.length = (withOutcome jobs .completed).length + (withOutcome jobs .dropped).length +
      (withOutcome jobs .replaced).length + (withOutcome jobs .rejected).length := by
  induction jobs with
  | nil => rfl
  | cons j jobs ih =>
    rw [List.forall_mem_cons] at h
    have hrest := ih h.2
    unfold withOutcome at hrest ⊢
    cases hj : j.outcome with
    | timeout => exact absurd hj h.1
    | completed | dropped | replaced | rejected =>
      simp only [List.filter_cons, hj, List.length_cons, decide_true, decide_false, if_true,
        Bool.false_eq_true, if_false, reduceCtorEq]
      omega

/-- A change of all records that keeps their phase keeps the choice of measured jobs. -/
theorem measurementJobs_map {col col' : MetricsCollector} {f : JobMetricRecord → JobMetricRecord}
    (hvalues : col'.jobs.values = col.jobs.values.map f)
    (hf : ∀ r, (f r).isMeasurement = r.isMeasurement ∧ (f r).isWarmup = r.isWarmup) :
    col'.measurementJobs = col.measurementJobs.map f := by
  have hmeasured : col'.jobs.values.filter (fun j => j.isMeasurement && !j.isWarmup) =
      (col.jobs.values.filter fun j => j.isMeasurement && !j.isWarmup).map f := by
    rw [hvalues, List.filter_map]
    congr 1
    exact List.filter_congr fun r _ => by simp [hf]
  have hreleased : col'.jobs.values.filter (fun j => !j.isWarmup) =
      (col.jobs.values.filter fun j => !j.isWarmup).map f := by
    rw [hvalues, List.filter_map]
    congr 1
    exact List.filter_congr fun r _ => by simp [hf]
  unfold measurementJobs
  rw [hmeasured, hreleased]
  cases col.jobs.values.filter fun j => j.isMeasurement && !j.isWarmup <;> rfl

theorem mem_values_of_mem_measurementJobs {col : MetricsCollector} {r : JobMetricRecord}
    (h : r ∈ col.measurementJobs) : r ∈ col.jobs.values := by
  unfold measurementJobs at h
  split at h
  · exact List.mem_of_mem_filter h
  · exact List.mem_of_mem_filter h

end MetricsCollector

namespace Runner

variable {c : CompiledScenario} {s s' : RunnerState} {jobId : String}

/-! ### Truthful records -/

/-- Every record is stored under its own job id, a completed job has the outcome
`completed`, and no job times out. -/
def Truthful (s : RunnerState) : Prop :=
  ∀ jobId v, s.verdict jobId = some v →
    v.jobId = jobId ∧ (v.completePs.isSome → v.outcome = .completed) ∧ v.outcome ≠ .timeout

theorem Truthful.of_verdict (h : Truthful s) (hverdict : ∀ a, s'.verdict a = s.verdict a) :
    Truthful s' := by
  intro a v hv
  exact h a v ((hverdict a).symm.trans hv)

theorem Truthful.arrive (h : Truthful s) (hp : Places c s) (hrec : Recorded c s) {r : JobRelease}
    (hr : Received c r s s') : Truthful s' := by
  have hnew : ∀ outcome, outcome ≠ .timeout → ∀ v, (r.verdict outcome) = v →
      v.jobId = r.jobId ∧ (v.completePs.isSome → v.outcome = .completed) ∧
        v.outcome ≠ .timeout := by
    rintro outcome hne _ rfl
    exact ⟨rfl, by simp [JobRelease.verdict], hne⟩
  intro a v hv
  cases hr.fate with
  | rejected _ _ hverdict =>
    rw [hverdict] at hv
    split_ifs at hv with ha
    · exact ha ▸ hnew .rejected (by decide) v (Option.some.inj hv)
    · exact h a v hv
  | dropped _ _ _ hverdict =>
    rw [hverdict] at hv
    split_ifs at hv with ha
    · exact ha ▸ hnew .dropped (by decide) v (Option.some.inj hv)
    · exact h a v hv
  | queued _ _ _ _ _ _ hverdict =>
    rw [hverdict] at hv
    split_ifs at hv with ha
    · exact ha ▸ hnew .completed (by decide) v (Option.some.inj hv)
    · exact h a v hv
  | posted _ _ _ hverdict =>
    rw [hverdict] at hv
    split_ifs at hv with ha hold
    · exact ha ▸ hnew .completed (by decide) v (Option.some.inj hv)
    · obtain ⟨w, hw, rfl⟩ := Option.map_eq_some_iff.mp hv
      have hpa : pendingOf c a s.toRunnerCore = some a := by
        obtain ⟨_, hkey, hstream, _⟩ := hp.pending _ _ _ hold
        rw [pendingOf, ← hkey, ← hstream]
        exact hold
      -- a replaced job was pending, so it has not completed
      have hopen := hrec.pending_open a w hpa hw
      exact ⟨(h a w hw).1, fun hc => absurd (Or.inl hc) hopen, by simp⟩
    · exact h a v hv

theorem Truthful.complete (h : Truthful s) (hr : Retired c jobId s s') : Truthful s' := by
  intro a v hv
  rw [hr.verdict] at hv
  split_ifs at hv
  · obtain ⟨w, hw, rfl⟩ := Option.map_eq_some_iff.mp hv
    exact ⟨(h a w hw).1, fun _ => rfl, by simp⟩
  · exact h a v hv

/-- Every step keeps the records truthful. -/
theorem Truthful.step (h : Truthful s) (hp : Places c s) (hrec : Recorded c s)
    (hstep : Step c s s') : Truthful s' := by
  cases hstep with
  | dispatch _ _ => exact h.of_verdict fun _ => rfl
  | stale _ _ _ => exact h.of_verdict fun _ => rfl
  | request _ => exact h.of_verdict fun _ => rfl
  | offer _ => exact h.of_verdict fun _ => rfl
  | arrive _ _ _ hr =>
    refine Truthful.arrive ?_ (hp.setKernel _) (hrec.setKernel _) hr
    exact h.of_verdict fun _ => rfl
  | complete _ _ _ hr =>
    refine Truthful.complete ?_ hr
    exact h.of_verdict fun _ => rfl
  | start _ _ hs => exact h.of_verdict hs.verdict
  | preempt _ hs => exact h.of_verdict hs.verdict
  | check _ hs => exact h.of_verdict hs.verdict

theorem Visited.truthful (hc : c.WellFormed) (h : Visited c s) : Truthful s := by
  induction h with
  | init h =>
    obtain ⟨k, rfl⟩ := scheduleArrivals_spec h
    intro a v hv
    simp [RunnerCore.verdict, MetricsCollector.verdict, Runner.init] at hv
  | step hs h ih => exact ih.step (hs.places hc) (hs.recorded hc) h

/-! ### Draining the queues -/

/-- The jobs that the end of the run takes from the FIFOs. -/
def drained (s : RunnerCore) : List String := s.fifoQueues.values.flatMap (·.contents)

theorem mem_drained (hp : Places c s) : jobId ∈ drained s.toRunnerCore ↔
    jobId ∈ fifoOf c jobId s.toRunnerCore := by
  unfold drained
  simp only [List.mem_flatMap, Dict.mem_values]
  constructor
  · rintro ⟨q, ⟨key, hq⟩, hm⟩
    have hfifo : jobId ∈ s.fifoAt key := by
      rw [RunnerCore.fifoAt, hq]
      exact hm
    rw [fifoOf, ← (hp.queued key jobId hfifo).2.1]
    exact hfifo
  · intro hm
    cases hq : s.fifoQueues.get? (fifoKeyOf c jobId) with
    | none => simp [fifoOf, RunnerCore.fifoAt, hq] at hm
    | some q =>
      rw [fifoOf, RunnerCore.fifoAt, hq] at hm
      exact ⟨q, ⟨_, hq⟩, hm⟩

/-- The record of a job after the queues were drained. -/
def afterDrain (s : RunnerCore) (r : JobMetricRecord) : JobMetricRecord :=
  if r.jobId ∈ drained s then { r with outcome := .dropped } else r

theorem afterDrain_completePs (t : RunnerCore) (r : JobMetricRecord) :
    (afterDrain t r).completePs = r.completePs ∧ (afterDrain t r).jobId = r.jobId ∧
      (afterDrain t r).isMeasurement = r.isMeasurement ∧
      (afterDrain t r).isWarmup = r.isWarmup := by
  unfold afterDrain
  split_ifs <;> exact ⟨rfl, rfl, rfl, rfl⟩

/-- A truthful record is found under its job id. -/
theorem Truthful.verdict_of_mem (h : Truthful s) {r : JobMetricRecord}
    (hr : r ∈ s.collector.jobs.values) : s.verdict r.jobId = some r.verdict := by
  obtain ⟨k, hk⟩ := Dict.mem_values.mp hr
  have hv : s.verdict k = some r.verdict := by
    rw [RunnerCore.verdict, MetricsCollector.verdict, hk]
    rfl
  have hid : r.jobId = k := (h k _ hv).1
  rw [hid]
  exact hv

/-- Draining the queues changes the outcome of the queued jobs and nothing else. -/
theorem drain_values (h : Truthful s) :
    (drain s).jobs.values = s.collector.jobs.values.map (afterDrain s.toRunnerCore) := by
  have hdrain : ∀ (l : List String) (col : MetricsCollector),
      (l.foldl (·.recordDrop ·) col).jobs =
        l.foldl (fun d a => d.modify a fun r => { r with outcome := .dropped }) col.jobs := by
    intro l
    induction l with
    | nil => exact fun _ => rfl
    | cons a l ih => exact fun col => ih _
  have hvalues : s.collector.jobs.values = s.collector.jobs.entries.map Prod.snd := rfl
  rw [drain, hdrain, Dict.foldl_modify_eq_mapValues
    (f := fun r : JobMetricRecord => { r with outcome := .dropped }) (fun _ => rfl),
    Dict.values_mapValues, hvalues, List.map_map]
  refine List.map_congr_left fun e he => ?_
  have hid : e.2.jobId = e.1 := by
    refine (h e.1 e.2.verdict ?_).1
    rw [RunnerCore.verdict, MetricsCollector.verdict, Dict.get?_eq_some.mpr he]
    rfl
  simp only [Function.comp_apply, afterDrain, hid]
  rfl

theorem drain_measurementJobs (h : Truthful s) : (drain s).measurementJobs =
    s.collector.measurementJobs.map (afterDrain s.toRunnerCore) :=
  MetricsCollector.measurementJobs_map (drain_values h) fun r =>
    (afterDrain_completePs s.toRunnerCore r).2.2

/-! ### Exact outcomes -/

/-- The returned metrics account for every measured job: those counted as completed have a
completion time and are neither running, nor preempted, nor pending, and every measured
job is counted once. -/
structure OutcomesExact (c : CompiledScenario) (s : RunnerState) : Prop where
  completed : ∀ r ∈ (drain s).measurementJobs, r.outcome = .completed ↔ r.completePs.isSome
  completedCount : (finish c s).completedCount =
    ((drain s).measurementJobs.filter (·.completePs.isSome)).length
  partition : (finish c s).releasedCount = (finish c s).completedCount +
    (finish c s).droppedCount + (finish c s).replacedCount + (finish c s).rejectedCount +
      (MetricsCollector.unfinished (drain s).measurementJobs).length
  waiting : ∀ r ∈ (drain s).measurementJobs, r.outcome = .completed →
    r.jobId ∉ s.running.keys ∧ r.jobId ∉ s.preempted ∧
      pendingOf c r.jobId s.toRunnerCore ≠ some r.jobId

/-- A measured job without a recorded fate waits in a FIFO, and a completed one is neither
queued, nor running, nor preempted. -/
def FatesSettled (c : CompiledScenario) (s : RunnerState) : Prop :=
  ∀ r ∈ s.collector.measurementJobs,
    (r.completePs.isSome → r.jobId ∉ fifoOf c r.jobId s.toRunnerCore ∧
      r.jobId ∉ s.running.keys ∧ r.jobId ∉ s.preempted) ∧
    (r.completePs = none → r.outcome = .completed → r.jobId ∈ fifoOf c r.jobId s.toRunnerCore)

instance : Decidable (FatesSettled c s) := inferInstanceAs (Decidable (∀ r ∈ _, _))

/-- When the records tell the completed jobs apart, the counts follow. -/
private theorem OutcomesExact.of_records (h : Truthful s)
    (hcompleted : ∀ r ∈ (drain s).measurementJobs, r.outcome = .completed ↔ r.completePs.isSome)
    (hwaiting : ∀ r ∈ (drain s).measurementJobs, r.outcome = .completed →
      r.jobId ∉ s.running.keys ∧ r.jobId ∉ s.preempted ∧
        pendingOf c r.jobId s.toRunnerCore ≠ some r.jobId) : OutcomesExact c s := by
  have htimeout : ∀ r ∈ (drain s).measurementJobs, r.outcome ≠ .timeout := by
    intro r' hr'
    rw [drain_measurementJobs h] at hr'
    obtain ⟨r, hr, rfl⟩ := List.mem_map.mp hr'
    have hv := h.verdict_of_mem (MetricsCollector.mem_values_of_mem_measurementJobs hr)
    unfold afterDrain
    split_ifs
    · simp
    · exact (h _ _ hv).2.2
  have hcount : (MetricsCollector.withOutcome (drain s).measurementJobs .completed) =
      (drain s).measurementJobs.filter (·.completePs.isSome) := by
    refine List.filter_congr fun r hr => ?_
    rw [Bool.eq_iff_iff, decide_eq_true_iff]
    exact hcompleted r hr
  have hnone : MetricsCollector.unfinished (drain s).measurementJobs = [] := by
    refine List.filter_eq_nil_iff.mpr fun r hr hopen => ?_
    simp only [Bool.and_eq_true, decide_eq_true_eq, Option.isNone_iff_eq_none] at hopen
    have hsome := (hcompleted r hr).mp hopen.1
    simp [hopen.2] at hsome
  refine ⟨hcompleted, congrArg List.length hcount, ?_, hwaiting⟩
  rw [hnone]
  exact MetricsCollector.length_eq_outcomes htimeout

/-- The metrics of a run account for every measured job exactly when every measured job
without a recorded fate waits in a FIFO at the end of the run, and no completed one is
queued, running, or preempted then. -/
theorem outcomes_exact_iff {sc : Scenario} {plan : Option ℤ} (hv : sc.validate = .ok ())
    (hcompile : compileScenario sc plan = .ok c) {rounds : ℕ}
    (hend : endState c rounds = .ok (some s)) :
    run c rounds = .ok (some (finish c s)) ∧ (OutcomesExact c s ↔ FatesSettled c s) := by
  obtain ⟨rfl, hc⟩ := compileScenario_wellFormed hv hcompile
  obtain ⟨hreach, _, hrun⟩ := endState_eq_some hend
  have hvisited := hreach.visited hc
  have hp := hvisited.places hc
  have htruth := hvisited.truthful hc
  have hmem : ∀ r ∈ s.collector.measurementJobs,
      afterDrain s.toRunnerCore r ∈ (drain s).measurementJobs := by
    intro r hr
    rw [drain_measurementJobs htruth]
    exact List.mem_map_of_mem hr
  have hkept : ∀ r, r.jobId ∉ fifoOf c r.jobId s.toRunnerCore → afterDrain s.toRunnerCore r = r :=
    fun r hr => if_neg fun hd => hr ((mem_drained hp).mp hd)
  have hdropped : ∀ r, r.jobId ∈ fifoOf c r.jobId s.toRunnerCore →
      (afterDrain s.toRunnerCore r).outcome = .dropped := by
    intro r hr
    rw [afterDrain, if_pos ((mem_drained hp).mpr hr)]
  have hoption : ∀ r ∈ s.collector.measurementJobs, r.completePs.isSome →
      r.outcome = .completed := fun r hr =>
    (htruth _ _ (htruth.verdict_of_mem (MetricsCollector.mem_values_of_mem_measurementJobs hr))).2.1
  refine ⟨hrun, fun h r hr => ⟨fun hsome => ?_, fun hnone hout => ?_⟩, fun h => ?_⟩
  · have hfifo : r.jobId ∉ fifoOf c r.jobId s.toRunnerCore := by
      intro hm
      have hcomp := (h.completed _ (hmem r hr)).mpr
        (by rw [(afterDrain_completePs s.toRunnerCore r).1]; exact hsome)
      rw [hdropped r hm] at hcomp
      cases hcomp
    have hkeep := hkept r hfifo
    have hwait := h.waiting r (hkeep ▸ hmem r hr) (hoption r hr hsome)
    exact ⟨hfifo, hwait.1, hwait.2.1⟩
  · by_contra hfifo
    have hsome := (h.completed r (hkept r hfifo ▸ hmem r hr)).mp hout
    simp [hnone] at hsome
  · -- a record with the outcome `completed` was not drained, so it has a completion time
    have hsettled : ∀ r ∈ s.collector.measurementJobs,
        (afterDrain s.toRunnerCore r).outcome = .completed →
          r.completePs.isSome ∧ r.jobId ∉ fifoOf c r.jobId s.toRunnerCore := by
      intro r hr hout
      have hfifo : r.jobId ∉ fifoOf c r.jobId s.toRunnerCore := by
        intro hm
        rw [hdropped r hm] at hout
        cases hout
      rw [hkept r hfifo] at hout
      refine ⟨?_, hfifo⟩
      by_contra hnone
      exact hfifo ((h r hr).2 (by simpa using hnone) hout)
    refine OutcomesExact.of_records htruth (fun r' hr' => ?_) fun r' hr' hout => ?_
    · rw [drain_measurementJobs htruth] at hr'
      obtain ⟨r, hr, rfl⟩ := List.mem_map.mp hr'
      rw [(afterDrain_completePs s.toRunnerCore r).1]
      refine ⟨fun hout => (hsettled r hr hout).1, fun hsome => ?_⟩
      rw [hkept r ((h r hr).1 hsome).1]
      exact hoption r hr hsome
    · rw [drain_measurementJobs htruth] at hr'
      obtain ⟨r, hr, rfl⟩ := List.mem_map.mp hr'
      rw [(afterDrain_completePs s.toRunnerCore r).2.1]
      have hsome := (hsettled r hr hout).1
      obtain ⟨_, hrun, hpre⟩ := (h r hr).1 hsome
      refine ⟨hrun, hpre, fun hpend => ?_⟩
      exact (hvisited.recorded hc).pending_open r.jobId r.verdict hpend
        (htruth.verdict_of_mem (MetricsCollector.mem_values_of_mem_measurementJobs hr)) (Or.inl hsome)

/-- One job that runs longer than the simulation. -/
def cutOff : Scenario := traceScenario [traceClass "A" [0] 200 0 [("compute", 1)]] []

/-- The unfinished job is counted as completed. -/
theorem cutOff_counts_unfinished : cutOff.validate = .ok () ∧
    ∃ c s, compileScenario cutOff none = .ok c ∧ endState c 2 = .ok (some s) ∧
      (finish c s).completedCount = 1 ∧ ¬OutcomesExact c s := by
  have htest : testEnd cutOff 2 (fun c s => decide ((finish c s).completedCount = 1) &&
      decide (((drain s).measurementJobs.filter (·.completePs.isSome)).length = 0)) = true := by
    decide +kernel
  obtain ⟨hv, c, s, hcompile, hend, htest⟩ := of_testEnd htest
  simp only [Bool.and_eq_true, decide_eq_true_eq] at htest
  refine ⟨hv, c, s, hcompile, hend, htest.1, fun h => ?_⟩
  have hcount := h.completedCount
  rw [htest.1, htest.2] at hcount
  cases hcount

/-- A run in which every job completes is accounted for. -/
theorem outcomes_exact_iff_finished : ∃ c s, endState c 2 = .ok (some s) ∧ OutcomesExact c s := by
  have htest : testEnd (traceScenario [traceClass "A" [0, 1] 5 0 [("compute", 1)]] []) 2
      (fun c s => decide (FatesSettled c s)) = true := by decide +kernel
  obtain ⟨hv, c, s, hcompile, hend, htest⟩ := of_testEnd htest
  exact ⟨c, s, hend, (outcomes_exact_iff hv hcompile hend).2.mpr (of_decide_eq_true htest)⟩

end Runner

end NpuArc
