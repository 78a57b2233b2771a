import NpuArc.Scheduler.CycleSearch

/-!
# Atomicity of registrations

Time starts at zero and never runs backwards, so in every run a registration that fails leaves
the kernel as it was, unless it is the search that fails: then the job has been stored already.
-/

namespace NpuArc

namespace Kernel

open Relation

variable {π : Type} {k k' : Kernel π}

/-! ### Time -/

private theorem nowPs_scheduleDispatch {timePs : ℤ} (h : k.scheduleDispatch timePs = .ok k') :
    k'.nowPs = k.nowPs := by
  unfold scheduleDispatch at h
  split_ifs at h
  · cases h
    rfl
  · cases h
    rfl
  · obtain ⟨_, _, h⟩ := bind_eq_ok.mp h
    cases h
    rfl

private theorem nowPs_completeJobInternal {jobId : String}
    (h : k.completeJobInternal jobId = .ok k') : k'.nowPs = k.nowPs := by
  unfold completeJobInternal at h
  dsimp only at h
  generalize hk₂ : ({ k.modifyJob jobId _ with completed := _ } : Kernel π) = k₂ at h
  have hnow : k₂.nowPs = k.nowPs := hk₂ ▸ rfl
  split_ifs at h
  · exact ((nowPs_scheduleDispatch h).trans rfl).trans hnow
  · cases h
    exact hnow

private theorem nowPs_consumeStep {delta : ℤ} {jobId : String}
    (h : consumeStep delta k jobId = .ok k') : k'.nowPs = k.nowPs := by
  unfold consumeStep at h
  cases hget : k.jobs.get? jobId with
  | none =>
    rw [hget] at h
    cases h
    rfl
  | some job =>
    rw [hget] at h
    dsimp only at h
    split_ifs at h
    · cases h
      rfl
    · exact (nowPs_completeJobInternal h).trans rfl
    · cases h
      rfl

private theorem nowPs_consumeElapsedWork {previousTimePs : ℤ}
    (h : k.consumeElapsedWork previousTimePs = .ok k') : k'.nowPs = k.nowPs := by
  unfold consumeElapsedWork at h
  dsimp only at h
  split_ifs at h
  · cases h
    rfl
  · refine foldlM_invariant (fun k₁ => k₁.nowPs = k.nowPs) h rfl ?_
    intro jobId _ k₁ k₂ hk₁ hstep
    exact (nowPs_consumeStep hstep).trans hk₁

private theorem nowPs_completeJob {jobId : String} (h : k.completeJob jobId = .ok k') :
    k'.nowPs = k.nowPs := by
  obtain ⟨job, _, h⟩ := bind_eq_ok.mp h
  split_ifs at h
  · cases h
    rfl
  · exact nowPs_completeJobInternal h

private theorem nowPs_releasePayload {jobId : String} (h : k.releasePayload jobId = .ok k') :
    k'.nowPs = k.nowPs := by
  obtain ⟨job, _, h⟩ := bind_eq_ok.mp h
  split_ifs at h
  · cases h
    rfl
  · exact (nowPs_scheduleDispatch h).trans rfl
  · cases h
    rfl

private theorem nowPs_consumeWork {jobId : String} {durationPs : ℤ}
    (h : k.consumeWork jobId durationPs = .ok k') : k'.nowPs = k.nowPs := by
  obtain ⟨job, _, h⟩ := bind_eq_ok.mp h
  split_ifs at h
  cases h
  rfl

private theorem nowPs_rejectJob {jobId : String} (h : k.rejectJob jobId = .ok k') :
    k'.nowPs = k.nowPs := by
  obtain ⟨job, _, h⟩ := bind_eq_ok.mp h
  cases h
  rfl

private theorem nowPs_schedule {timePs : ℤ} {phase : EventPhase} {payload : KernelPayload π}
    (h : (k.schedule timePs phase payload).map Prod.snd = .ok k') : k'.nowPs = k.nowPs := by
  unfold schedule at h
  split_ifs at h
  · cases h
  · cases hpush : k.queue.push timePs phase payload with
    | error e =>
      rw [hpush] at h
      cases h
    | ok x =>
      rw [hpush] at h
      cases h
      rfl

private theorem nowPs_registerJob {jobId : String} {workPs releasePs : ℤ}
    {relativeDeadlinePs : Option ℤ} {priorityClass : ℤ} {dependsOn : List String} :
    (k.registerJob jobId workPs releasePs relativeDeadlinePs priorityClass dependsOn).2.nowPs =
      k.nowPs := by
  unfold registerJob
  dsimp only
  split_ifs
  · rfl
  · rfl
  · rfl
  · rfl
  · rfl
  · rfl
  · rfl
  · split
    · next hdispatch => exact (nowPs_scheduleDispatch hdispatch).trans rfl
    · rfl
  · rfl
  · split <;> rfl

/-- An exception leaves the time as it is. -/
private theorem nowPs_after {x : Except Error (Kernel π)}
    (h : ∀ k', x = .ok k' → k'.nowPs = k.nowPs) : (k.after x).nowPs = k.nowPs := by
  cases hx : x with
  | error e => rfl
  | ok k' => exact h k' hx

private theorem nowPs_ownPayload (payload : KernelPayload π) :
    (k.ownPayload payload).nowPs = k.nowPs := by
  cases payload with
  | release jobId => exact nowPs_after fun _ => nowPs_releasePayload
  | dispatch => rfl
  | client payload => rfl

/-- Time never runs backwards. -/
theorem nowPs_le_act (k : Kernel π) (action : Action π) : k.nowPs ≤ (k.act action).nowPs := by
  cases action with
  | event =>
    change k.nowPs ≤ k.beginEvent.nowPs
    unfold beginEvent
    split
    · exact le_rfl
    · next ev queue hpop =>
      split_ifs with hpast
      · exact le_rfl
      · dsimp only
        rw [nowPs_ownPayload, nowPs_after fun _ => nowPs_consumeElapsedWork]
        exact not_lt.mp hpast
  | call call =>
    refine le_of_eq ?_
    cases call with
    | registerJob => exact nowPs_registerJob.symm
    | rejectJob => exact (nowPs_after fun _ => nowPs_rejectJob).symm
    | consumeWork => exact (nowPs_after fun _ => nowPs_consumeWork).symm
    | completeJob => exact (nowPs_after fun _ => nowPs_completeJob).symm
    | startJob => rfl
    | schedule => exact (nowPs_after fun _ => nowPs_schedule).symm

/-- Time is never negative. -/
theorem nowPs_run_nonneg (hasDispatchCallback : Bool) (actions : List (Action π)) :
    0 ≤ ((initial hasDispatchCallback).run actions).nowPs :=
  run_invariant (P := fun k => 0 ≤ k.nowPs) le_rfl
    fun k action _ h => h.trans (k.nowPs_le_act action)

/-! ### Registrations -/

/-- **A registration is atomic exactly when it does not fail on a cycle.** In every state of
every run, a registration that raises leaves the jobs, the event queue and the pending dispatch
as they were, if and only if it is not the case that the arguments pass the checks and the new job
lies on a cycle of dependencies. -/
theorem register_atomic_iff (hasDispatchCallback : Bool) (actions : List (Action π))
    (spec : JobSpec) :
    ((∃ e, (((initial hasDispatchCallback).run actions).register spec).1 = .error e) →
      Untouched ((initial hasDispatchCallback).run actions)
        (((initial hasDispatchCallback).run actions).register spec).2) ↔
    ¬(((initial hasDispatchCallback).run actions).PassesChecks spec ∧
      TransGen (((initial hasDispatchCallback).run actions).withJob spec).DependsOn
        spec.jobId spec.jobId) :=
  untouched_iff (nowPs_run_nonneg hasDispatchCallback actions)

/-- A job that closes a cycle is refused, and is registered afterwards. -/
theorem register_leaves_cyclic_job :
    ¬∀ (actions : List (Action Unit)) (spec : JobSpec),
      (∃ e, (((initial true).run actions).register spec).1 = .error e) →
        Untouched ((initial true).run actions) (((initial true).run actions).register spec).2 := by
  intro h
  have herror : (((initial true : Kernel Unit).run
      [.call (.registerJob "b" 1 5 none 0 ["a"])]).register ⟨"a", 1, 5, none, 0, ["b"]⟩).1 =
        .error (cyclicDependency "a") := by decide +kernel
  have hjobs := congrArg (fun jobs => jobs.keys) (h _ _ ⟨_, herror⟩).jobs
  revert hjobs
  decide +kernel

end Kernel

end NpuArc
