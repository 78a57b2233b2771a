import NpuArc.Scheduler.Kernel

/-!
# Kernels in which nothing wakes up

A client that starts its jobs itself keeps the kernel quiet: there is no dispatch
callback, no job is ready, and pending jobs are hidden behind a release time in the
future. In a quiet kernel every operation has a closed form.
-/

namespace NpuArc

namespace Kernel

variable {π : Type}

/-- No dispatch callback, no ready job, and no pending job whose release time has come. -/
structure Quiet (k : Kernel π) : Prop where
  callback : k.hasDispatchCallback = false
  ready : ∀ jobId job, k.jobs.get? jobId = some job → job.state ≠ .ready
  pending : ∀ jobId job, k.jobs.get? jobId = some job → job.state = .pending →
    k.nowPs < job.releasePs

/-- The list of completed jobs after a job completed. -/
def addCompleted (completed : List String) (jobId : String) : List String :=
  if jobId ∈ completed then completed else completed ++ [jobId]

theorem mem_addCompleted {completed : List String} {jobId a : String} :
    a ∈ addCompleted completed jobId ↔ a = jobId ∨ a ∈ completed := by
  unfold addCompleted
  split_ifs with h
  · refine ⟨Or.inr, ?_⟩
    rintro (rfl | ha)
    · exact h
    · exact ha
  · simp [or_comm]

theorem length_le_addCompleted (completed : List String) (jobId : String) :
    completed.length ≤ (addCompleted completed jobId).length := by
  unfold addCompleted
  split_ifs <;> simp

theorem hasReady_of_quiet {k : Kernel π} (h : k.Quiet) : k.hasReady = false := by
  simp only [hasReady, List.any_eq_false, decide_eq_true_eq]
  intro job hjob
  obtain ⟨jobId, hget⟩ := Dict.mem_values.mp hjob
  exact h.ready jobId job hget

/-- In a quiet kernel no job is waiting to be woken. -/
theorem wakeDependents_of_quiet {k : Kernel π} (h : k.Quiet) : k.wakeDependents = k := by
  have hjobs : (k.jobs.mapValues fun _ other =>
      if other.state = .pending ∧ k.dependenciesSatisfied other = true ∧
          other.releasePs ≤ k.nowPs then
        { other with state := .ready }
      else other) = k.jobs := by
    refine Dict.mapValues_eq_self fun jobId job hget => if_neg ?_
    rintro ⟨hstate, _, hrelease⟩
    exact absurd (h.pending jobId job hget hstate) (not_lt.mpr hrelease)
  unfold wakeDependents
  rw [hjobs]

/-- Changing handles keeps a kernel quiet when no handle becomes ready or pending. -/
theorem Quiet.update {k : Kernel π} (h : k.Quiet) {jobs : Dict String JobHandle}
    {completed : List String}
    (hjobs : ∀ jobId job, jobs.get? jobId = some job → k.jobs.get? jobId = some job ∨
      job.state = .running ∨ job.state = .completed) :
    ({ k with jobs := jobs, completed := completed } : Kernel π).Quiet where
  callback := h.callback
  ready jobId job hget := by
    rcases hjobs jobId job hget with hold | hrun | hdone
    · exact h.ready jobId job hold
    · simp [hrun]
    · simp [hdone]
  pending jobId job hget hstate := by
    rcases hjobs jobId job hget with hold | hrun | hdone
    · exact h.pending jobId job hold hstate
    · simp [hrun] at hstate
    · simp [hdone] at hstate

/-- Completing a job in a quiet kernel changes its handle and the list of completed jobs. -/
theorem completeJobInternal_of_quiet {k : Kernel π} (h : k.Quiet) (jobId : String) :
    k.completeJobInternal jobId = .ok
      { k with
        jobs := k.jobs.modify jobId fun job => { job with remainingPs := 0, state := .completed }
        completed := addCompleted k.completed jobId } := by
  obtain ⟨k', hk'⟩ : ∃ k' : Kernel π, k' =
      { k with
        jobs := k.jobs.modify jobId fun job => { job with remainingPs := 0, state := .completed }
        completed := addCompleted k.completed jobId } := ⟨_, rfl⟩
  have hquiet : k'.Quiet := by
    rw [hk']
    refine h.update fun a job hget => ?_
    rw [Dict.get?_modify] at hget
    split_ifs at hget with ha
    · obtain ⟨old, _, rfl⟩ := Option.map_eq_some_iff.mp hget
      exact Or.inr (Or.inr rfl)
    · exact Or.inl hget
  have hunfold : k.completeJobInternal jobId =
      if k'.wakeDependents.hasReady then
        k'.wakeDependents.scheduleDispatch k'.wakeDependents.nowPs
      else .ok k'.wakeDependents := by
    rw [hk']
    rfl
  rw [hunfold, wakeDependents_of_quiet hquiet, hasReady_of_quiet hquiet, ← hk']
  rfl

/-- Completing a running or completed job of a quiet kernel succeeds, and leaves the job
completed. -/
theorem completeJob_of_quiet {k : Kernel π} (h : k.Quiet) {jobId : String} {job : JobHandle}
    (hget : k.jobs.get? jobId = some job) (hstate : job.state = .running ∨ job.state = .completed) :
    k.completeJob jobId = .ok (if job.state = .completed then k else
      { k with
        jobs := k.jobs.modify jobId fun job => { job with remainingPs := 0, state := .completed }
        completed := addCompleted k.completed jobId }) := by
  have hjob : k.getJob jobId = .ok job := by
    unfold getJob
    rw [hget]
  unfold completeJob
  rw [hjob]
  rcases hstate with hrun | hdone
  · have hne : job.state ≠ .completed := by simp [hrun]
    rw [if_neg hne, ← completeJobInternal_of_quiet h, bind_eq_ok_left]
    rw [if_neg hne, if_neg (by simp [hrun])]
  · rw [if_pos hdone, bind_eq_ok_left, if_pos hdone]

/-! ### Consuming work -/

/-- The handle of a job after some time has elapsed. -/
def consumeJob (delta : ℤ) (job : JobHandle) : JobHandle :=
  if job.state = .running then
    if job.remainingPs - min delta job.remainingPs = 0 then
      { job with remainingPs := 0, state := .completed }
    else { job with remainingPs := job.remainingPs - min delta job.remainingPs }
  else job

/-- Whether a job runs out of work when some time elapses. -/
def RunsOut (delta : ℤ) (job : JobHandle) : Prop :=
  job.state = .running ∧ job.remainingPs - min delta job.remainingPs = 0

/-- A running job becomes completed or stays running, and any other job is unchanged. -/
theorem consumeJob_state (delta : ℤ) (job : JobHandle) :
    consumeJob delta job = job ∨ (consumeJob delta job).state = .running ∨
      (consumeJob delta job).state = .completed := by
  unfold consumeJob
  split_ifs with hrun
  · exact Or.inr (Or.inr rfl)
  · exact Or.inr (Or.inl hrun)
  · exact Or.inl rfl

/-- The effect of one consumption step on a quiet kernel. -/
theorem consumeStep_of_quiet {k : Kernel π} (h : k.Quiet) (delta : ℤ) (jobId : String) :
    ∃ jobs completed, consumeStep delta k jobId =
        .ok { k with jobs := jobs, completed := completed } ∧
      jobs.keys = k.jobs.keys ∧
      (∀ a, jobs.get? a = if a = jobId then (k.jobs.get? a).map (consumeJob delta)
        else k.jobs.get? a) ∧
      (∀ a, a ∈ completed ↔ a ∈ k.completed ∨
        (a = jobId ∧ ∃ job, k.jobs.get? a = some job ∧ RunsOut delta job)) := by
  unfold consumeStep
  cases hget : k.jobs.get? jobId with
  | none =>
    refine ⟨k.jobs, k.completed, rfl, rfl, fun a => ?_, fun a => ?_⟩
    · by_cases ha : a = jobId
      · simp [ha, hget]
      · simp [ha]
    · by_cases ha : a = jobId
      · simp [ha, hget]
      · simp [ha]
  | some job =>
    simp only
    by_cases hrun : job.state = .running
    · simp only [hrun, ne_eq, not_true_eq_false, if_false]
      have hquiet : (k.modifyJob jobId fun old =>
          { old with remainingPs := job.remainingPs - min delta job.remainingPs }).Quiet := by
        refine h.update fun a other ha => ?_
        rw [Dict.get?_modify] at ha
        split_ifs at ha with hk
        · rw [hget, Option.map_some, Option.some.injEq] at ha
          exact Or.inr (Or.inl (ha ▸ hrun))
        · exact Or.inl ha
      by_cases hout : job.remainingPs - min delta job.remainingPs = 0
      · rw [if_pos hout, completeJobInternal_of_quiet hquiet]
        refine ⟨_, _, rfl, by simp [modifyJob], fun a => ?_, fun a => ?_⟩
        · by_cases ha : a = jobId
          · simp [modifyJob, ha, hget, consumeJob, hrun, hout]
          · simp [modifyJob, ha]
        · rw [mem_addCompleted]
          by_cases ha : a = jobId
          · simp [modifyJob, ha, hget, RunsOut, hrun, hout]
          · simp [modifyJob, ha]
      · rw [if_neg hout]
        refine ⟨_, _, rfl, by simp, fun a => ?_, fun a => ?_⟩
        · by_cases ha : a = jobId
          · simp [ha, hget, consumeJob, hrun, hout]
          · simp [ha]
        · by_cases ha : a = jobId
          · simp [ha, hget, RunsOut, hout]
          · simp [ha]
    · simp only [hrun, ne_eq, not_false_eq_true, if_true]
      refine ⟨k.jobs, k.completed, rfl, rfl, fun a => ?_, fun a => ?_⟩
      · by_cases ha : a = jobId
        · simp [ha, hget, consumeJob, hrun]
        · simp [ha]
      · by_cases ha : a = jobId
        · simp [ha, hget, RunsOut, hrun]
        · simp [ha]

private theorem consume_foldlM (delta : ℤ) {l : List String} (hl : l.Nodup) {k : Kernel π}
    (h : k.Quiet) :
    ∃ jobs completed, l.foldlM (consumeStep delta) k =
        .ok { k with jobs := jobs, completed := completed } ∧
      (∀ a, jobs.get? a = if a ∈ l then (k.jobs.get? a).map (consumeJob delta)
        else k.jobs.get? a) ∧
      (∀ a, a ∈ completed ↔ a ∈ k.completed ∨
        (a ∈ l ∧ ∃ job, k.jobs.get? a = some job ∧ RunsOut delta job)) := by
  induction l generalizing k with
  | nil => exact ⟨k.jobs, k.completed, rfl, by simp, by simp⟩
  | cons jobId l ih =>
    obtain ⟨hnot, hl⟩ := List.nodup_cons.mp hl
    obtain ⟨jobs, completed, hstep, _, hjobs, hcompleted⟩ := consumeStep_of_quiet h delta jobId
    have hquiet : ({ k with jobs := jobs, completed := completed } : Kernel π).Quiet := by
      refine h.update fun a job ha => ?_
      rw [hjobs] at ha
      split_ifs at ha
      · obtain ⟨old, hold, rfl⟩ := Option.map_eq_some_iff.mp ha
        rcases consumeJob_state delta old with heq | hstate
        · exact Or.inl (by rw [heq, hold])
        · exact Or.inr hstate
      · exact Or.inl ha
    obtain ⟨jobs', completed', hrest, hjobs', hcompleted'⟩ := ih hl hquiet
    refine ⟨jobs', completed', ?_, fun a => ?_, fun a => ?_⟩
    · rw [List.foldlM_cons, bind_eq_ok]
      exact ⟨_, hstep, hrest⟩
    · rw [hjobs', hjobs]
      by_cases ha : a = jobId
      · subst ha
        simp [hnot]
      · simp [ha]
    · rw [hcompleted', hcompleted]
      simp only [hjobs]
      by_cases ha : a = jobId
      · subst ha
        simp [hnot]
      · simp [ha]

/-- The effect of the passage of time on a quiet kernel. -/
theorem consumeElapsedWork_of_quiet {k : Kernel π} (h : k.Quiet) {previousTimePs : ℤ}
    (htime : previousTimePs < k.nowPs) :
    ∃ jobs completed, k.consumeElapsedWork previousTimePs =
        .ok { k with jobs := jobs, completed := completed } ∧
      (∀ a, jobs.get? a = (k.jobs.get? a).map (consumeJob (k.nowPs - previousTimePs))) ∧
      (∀ a, a ∈ completed ↔ a ∈ k.completed ∨
        ∃ job, k.jobs.get? a = some job ∧ RunsOut (k.nowPs - previousTimePs) job) := by
  obtain ⟨jobs, completed, hfold, hjobs, hcompleted⟩ :=
    consume_foldlM (k.nowPs - previousTimePs) k.jobs.keys_nodup h
  refine ⟨jobs, completed, ?_, fun a => ?_, fun a => ?_⟩
  · unfold consumeElapsedWork
    rw [if_neg (by omega)]
    exact hfold
  · rw [hjobs]
    split_ifs with ha
    · rfl
    · rw [Dict.not_mem_keys.mp ha]
      rfl
  · rw [hcompleted]
    refine or_congr Iff.rfl ⟨fun h => h.2, fun h => ⟨?_, h⟩⟩
    obtain ⟨job, hjob, _⟩ := h
    exact Dict.mem_keys.mpr ⟨job, hjob⟩

theorem consumeElapsedWork_of_le {k : Kernel π} {previousTimePs : ℤ}
    (htime : k.nowPs ≤ previousTimePs) : k.consumeElapsedWork previousTimePs = .ok k := by
  unfold consumeElapsedWork
  rw [if_pos (by omega)]

/-! ### Scheduling events -/

/-- Scheduling succeeds exactly for times that are neither past nor negative. -/
theorem schedule_eq_ok {k k' : Kernel π} {timePs : ℤ} {phase : EventPhase}
    {payload : KernelPayload π} {ev : Event (KernelPayload π)} :
    k.schedule timePs phase payload = .ok (ev, k') ↔
      k.nowPs ≤ timePs ∧ 0 ≤ timePs ∧ ev = ⟨timePs, phase, k.queue.seq, payload⟩ ∧
        k' = { k with queue := k.queue.insert timePs phase payload } := by
  unfold schedule EventQueue.push
  by_cases hpast : timePs < k.nowPs
  · simp [hpast]
  · by_cases hneg : timePs < 0
    · rw [if_neg hpast, if_pos hneg, bind_eq_ok]
      simp [hneg]
    · rw [if_neg hpast, if_neg hneg, bind_eq_ok]
      simp only [Except.ok.injEq, Prod.mk.injEq, Prod.exists]
      constructor
      · rintro ⟨_, _, ⟨rfl, rfl⟩, rfl, rfl⟩
        exact ⟨by omega, by omega, rfl, rfl⟩
      · rintro ⟨_, _, rfl, rfl⟩
        exact ⟨_, _, ⟨rfl, rfl⟩, rfl, rfl⟩

/-! ### Registering jobs -/

/-- Registering an independent job that is released now only adds its handle. -/
theorem registerJob_eq_ok {k : Kernel π} (h : k.hasDispatchCallback = false) {jobId : String} {workPs : ℤ}
    {relDeadline : ℤ} (priority : ℤ) (hid : jobId ≠ "") (hnew : k.jobs.contains jobId = false)
    (hwork : 0 ≤ workPs) (hdeadline : 0 ≤ relDeadline) :
    ∃ job : JobHandle, job.state = .ready ∧ job.remainingPs = workPs ∧ job.dependsOn = [] ∧
      ∃ jobs, k.registerJob jobId workPs k.nowPs (some relDeadline) priority [] =
        (.ok (), { k with jobs := jobs }) ∧
      ∀ a, jobs.get? a = if a = jobId then some job else k.jobs.get? a := by
  unfold registerJob
  simp only [Option.getD_some]
  rw [if_neg hid, if_neg (by simp [hnew]), if_neg (by omega), if_neg (by omega),
    if_neg (by omega), if_neg (by simp)]
  obtain ⟨job, hjob⟩ : ∃ job : JobHandle, job =
      { jobId := jobId
        releasePs := k.nowPs
        deadlinePs := k.nowPs + relDeadline
        workPs := workPs
        remainingPs := workPs
        state := .pending
        priorityClass := priority
        relativeDeadlinePs := relDeadline
        dependsOn := [] } := ⟨_, rfl⟩
  rw [← hjob]
  have hdeps : job.dependsOn = [] := by rw [hjob]
  have hcycle : ({ k with jobs := k.jobs.insert jobId job } : Kernel π).detectCycle jobId =
      false := by
    unfold detectCycle
    cases (k.jobs.insert jobId job).values.map (fun j => j.dependsOn.length) with
    | nil => simp [detectLoop, hdeps]
    | cons n l => simp [detectLoop, hdeps]
  rw [if_neg (by simp [hcycle])]
  have hsat : ({ k with jobs := k.jobs.insert jobId job } : Kernel π).dependenciesSatisfied job =
      true := by
    simp [dependenciesSatisfied, hdeps]
  simp only [hsat, if_true]
  refine ⟨{ job with state := .ready }, rfl, by rw [hjob], hdeps,
    (k.jobs.insert jobId job).modify jobId fun job =>
      if job.state = .pending then { job with state := .ready } else job, ?_, fun a => ?_⟩
  · simp [makeReady, modifyJob, scheduleDispatch, h]
  · have hpending : job.state = .pending := by rw [hjob]
    by_cases ha : a = jobId
    · simp [ha, hpending]
    · simp [ha]

end Kernel

end NpuArc
