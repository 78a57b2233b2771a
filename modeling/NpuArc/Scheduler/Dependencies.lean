import NpuArc.Scheduler.Lifecycle
import Mathlib.Logic.Relation

/-!
# Dependencies and wake-ups

A job leaves the pending state only when its release time has come and its dependencies are
completed, and then it does not stay pending: either its release event is still to come, or
a dependency is missing. The invariant relates the coalescing of dispatch requests to the
events of the queue.
-/

namespace NpuArc

namespace Kernel

open Relation

variable {π : Type} {k k' : Kernel π} {jobId : String} {popped : Option (KernelPayload π)}

/-- A job with an id is completed. -/
def Completed (k : Kernel π) (jobId : String) : Prop :=
  ∃ job, k.jobs.get? jobId = some job ∧ job.state = .completed

/-- One registered job depends on another id. -/
def DependsOn (k : Kernel π) (a b : String) : Prop :=
  ∃ job, k.jobs.get? a = some job ∧ b ∈ job.dependsOn

/-- An event with a payload is waiting at a time. -/
def Scheduled (k : Kernel π) (payload : KernelPayload π) (timePs : ℤ) : Prop :=
  ∃ e, k.queue.Live e ∧ e.payload = payload ∧ e.timePs = timePs

/-- Why a job is still pending: its release event is still to come, or its release time has
come and a dependency is missing, or it depends on itself. -/
def Waits (k : Kernel π) (jobId : String) (job : JobHandle) : Prop :=
  k.Scheduled (.release jobId) job.releasePs ∨
    job.releasePs ≤ k.nowPs ∧ (∃ d ∈ job.dependsOn, ¬k.Completed d) ∨
    TransGen k.DependsOn jobId jobId

/-- The invariant of kernels that reject no job. While an event is being processed its payload
is exempt: a job that is being released need not wait, and a dispatch that is being made need
not be in the queue. -/
structure Dependable (k : Kernel π) (popped : Option (KernelPayload π)) : Prop where
  nonneg : 0 ≤ k.nowPs
  uncancelled : k.queue.cancelled = []
  future : ∀ e, k.queue.Live e → k.nowPs ≤ e.timePs
  started : ∀ jobId job, k.jobs.get? jobId = some job → job.state ≠ .pending →
    job.releasePs ≤ k.nowPs ∧ ∀ d ∈ job.dependsOn, k.Completed d
  waiting : ∀ jobId job, k.jobs.get? jobId = some job → job.state = .pending →
    popped ≠ some (.release jobId) → k.Waits jobId job
  releases : ∀ e jobId, k.queue.Live e → e.payload = .release jobId →
    ∃ job, k.jobs.get? jobId = some job ∧ e.timePs = job.releasePs
  /-- Dispatch events are due now. -/
  due : ∀ e, k.queue.Live e → e.payload = .dispatch → e.timePs = k.nowPs
  dispatching : ∀ timePs, k.nextDispatchTime = some timePs → popped ≠ some .dispatch →
    timePs = k.nowPs ∧ k.Scheduled .dispatch timePs

theorem dependenciesSatisfied_iff {job : JobHandle} (hstate : job.state ≠ .completed) :
    k.dependenciesSatisfied job = true ↔ ∀ d ∈ job.dependsOn, k.Completed d := by
  unfold dependenciesSatisfied Completed
  simp only [List.all_eq_true, decide_eq_true_eq]
  apply forall₂_congr
  intro d _
  cases hget : k.jobs.get? d with
  | none => simp [hstate]
  | some other => simp

/-- A job that depends on itself is never completed before it has started, so one of its
dependencies is missing. -/
theorem Dependable.missing (h : Dependable k popped) {job : JobHandle}
    (hget : k.jobs.get? jobId = some job) (hpending : job.state = .pending)
    (hcycle : TransGen k.DependsOn jobId jobId) : ∃ d ∈ job.dependsOn, ¬k.Completed d := by
  by_contra hall
  push Not at hall
  have hreach : ∀ b, TransGen k.DependsOn jobId b → k.Completed b := by
    intro b hpath
    induction hpath with
    | single hstep =>
      obtain ⟨job', hget', hmem⟩ := hstep
      cases hget.symm.trans hget'
      exact hall _ hmem
    | tail _ hstep ih =>
      obtain ⟨job', hget', hmem⟩ := hstep
      obtain ⟨done, hdone, hcompleted⟩ := ih
      cases hdone.symm.trans hget'
      exact (h.started _ _ hdone (by simp [hcompleted])).2 _ hmem
  obtain ⟨done, hdone, hcompleted⟩ := hreach jobId hcycle
  cases hget.symm.trans hdone
  rw [hpending] at hcompleted
  cases hcompleted

/-! ### Changes of jobs -/

/-- A change of jobs that starts only jobs whose time has come and whose dependencies are
completed, and leaves no other job pending. -/
structure Moves (k k' : Kernel π) (f : String → JobHandle → JobHandle) : Prop where
  queue : k'.queue = k.queue
  now : k'.nowPs = k.nowPs
  next : k'.nextDispatchTime = k.nextDispatchTime
  get : ∀ a, k'.jobs.get? a = (k.jobs.get? a).map (f a)
  same : ∀ a job, k.jobs.get? a = some job →
    (f a job).releasePs = job.releasePs ∧ (f a job).dependsOn = job.dependsOn
  keeps : ∀ a job, k.jobs.get? a = some job → job.state = .completed → (f a job).state = .completed
  starts : ∀ a job, k.jobs.get? a = some job → (f a job).state ≠ .pending →
    job.state ≠ .pending ∨ job.releasePs ≤ k.nowPs ∧ ∀ d ∈ job.dependsOn, k'.Completed d
  remains : ∀ a job, k.jobs.get? a = some job → (f a job).state = .pending →
    job.state = .pending ∧ (job.releasePs ≤ k.nowPs → (∃ d ∈ job.dependsOn, ¬k.Completed d) →
      ∃ d ∈ job.dependsOn, ¬k'.Completed d)

theorem Moves.completed {f : String → JobHandle → JobHandle} (h : Moves k k' f)
    (hdone : k.Completed jobId) : k'.Completed jobId := by
  obtain ⟨job, hget, hstate⟩ := hdone
  exact ⟨f jobId job, by rw [h.get, hget, Option.map_some], h.keeps jobId job hget hstate⟩

theorem Moves.dependsOn {f : String → JobHandle → JobHandle} (h : Moves k k' f) {a b : String}
    (hdepends : k.DependsOn a b) : k'.DependsOn a b := by
  obtain ⟨job, hget, hmem⟩ := hdepends
  refine ⟨f a job, by rw [h.get, hget, Option.map_some], ?_⟩
  rw [(h.same a job hget).2]
  exact hmem

theorem Dependable.moves {f : String → JobHandle → JobHandle} (hk : Dependable k popped)
    (h : Moves k k' f) : Dependable k' popped where
  nonneg := by
    rw [h.now]
    exact hk.nonneg
  uncancelled := by
    rw [h.queue]
    exact hk.uncancelled
  future := by
    rw [h.queue, h.now]
    exact hk.future
  started jobId job' hget' hstate := by
    rw [h.get] at hget'
    obtain ⟨job, hget, rfl⟩ := Option.map_eq_some_iff.mp hget'
    rw [h.now, (h.same jobId job hget).1, (h.same jobId job hget).2]
    rcases h.starts jobId job hget hstate with hold | hnew
    · obtain ⟨hrelease, hdeps⟩ := hk.started jobId job hget hold
      exact ⟨hrelease, fun d hd => h.completed (hdeps d hd)⟩
    · exact hnew
  waiting jobId job' hget' hpending hne := by
    rw [h.get] at hget'
    obtain ⟨job, hget, rfl⟩ := Option.map_eq_some_iff.mp hget'
    obtain ⟨hold, hmissing⟩ := h.remains jobId job hget hpending
    unfold Waits Scheduled
    rw [h.queue, h.now, (h.same jobId job hget).1, (h.same jobId job hget).2]
    rcases hk.waiting jobId job hget hold hne with hevent | ⟨hrelease, hdeps⟩ | hcycle
    · exact .inl hevent
    · exact .inr (.inl ⟨hrelease, hmissing hrelease hdeps⟩)
    · exact .inr (.inr (TransGen.mono (fun _ _ => h.dependsOn) _ _ hcycle))
  releases e jobId he hpayload := by
    rw [h.queue] at he
    obtain ⟨job, hget, htime⟩ := hk.releases e jobId he hpayload
    refine ⟨f jobId job, by rw [h.get, hget, Option.map_some], ?_⟩
    rw [(h.same jobId job hget).1]
    exact htime
  due := by
    rw [h.queue, h.now]
    exact hk.due
  dispatching := by
    unfold Scheduled
    rw [h.queue, h.now, h.next]
    exact hk.dispatching

/-- A change that completes no job leaves the missing dependencies missing. -/
private theorem exists_missing {job : JobHandle} (hkept : ∀ d, k'.Completed d → k.Completed d)
    (h : ∃ d ∈ job.dependsOn, ¬k.Completed d) : ∃ d ∈ job.dependsOn, ¬k'.Completed d := by
  obtain ⟨d, hd, hmissing⟩ := h
  exact ⟨d, hd, fun hdone => hmissing (hkept d hdone)⟩

/-- Changing one job that is not pending, without completing it. -/
theorem moves_modifyJob {f : JobHandle → JobHandle}
    (hsame : ∀ job, (f job).releasePs = job.releasePs ∧ (f job).dependsOn = job.dependsOn)
    (hpending : ∀ job, k.jobs.get? jobId = some job →
      ((f job).state = .pending ↔ job.state = .pending))
    (hcompleted : ∀ job, k.jobs.get? jobId = some job →
      ((f job).state = .completed ↔ job.state = .completed)) :
    Moves k (k.modifyJob jobId f) fun a job => if a = jobId then f job else job := by
  have hget : ∀ a, (k.modifyJob jobId f).jobs.get? a =
      (k.jobs.get? a).map fun job => if a = jobId then f job else job := by
    intro a
    by_cases ha : a = jobId
    · simp [modifyJob, ha]
    · simp [modifyJob, ha]
  have hkept : ∀ d, (k.modifyJob jobId f).Completed d → k.Completed d := by
    rintro d ⟨job', hjob', hdone⟩
    rw [hget] at hjob'
    obtain ⟨job, hjob, rfl⟩ := Option.map_eq_some_iff.mp hjob'
    refine ⟨job, hjob, ?_⟩
    split_ifs at hdone with ha
    · exact (hcompleted job (ha ▸ hjob)).mp hdone
    · exact hdone
  constructor
  · rfl
  · rfl
  · rfl
  · exact hget
  · intro a job _
    split_ifs
    · exact hsame job
    · exact ⟨rfl, rfl⟩
  · intro a job hjob hdone
    split_ifs with ha
    · exact (hcompleted job (ha ▸ hjob)).mpr hdone
    · exact hdone
  · intro a job hjob hstate
    left
    split_ifs at hstate with ha
    · exact fun h => hstate ((hpending job (ha ▸ hjob)).mpr h)
    · exact hstate
  · intro a job hjob hstate
    refine ⟨?_, fun _ => exists_missing hkept⟩
    split_ifs at hstate with ha
    · exact (hpending job (ha ▸ hjob)).mp hstate
    · exact hstate

/-- Making a pending job ready whose time has come and whose dependencies are completed. -/
theorem moves_makeReady {job : JobHandle} (hget : k.jobs.get? jobId = some job)
    (hrelease : job.releasePs ≤ k.nowPs) (hdeps : ∀ d ∈ job.dependsOn, k.Completed d) :
    Moves k (k.makeReady jobId) fun a job =>
      if a = jobId ∧ job.state = .pending then { job with state := .ready } else job := by
  have hget' : ∀ a, (k.makeReady jobId).jobs.get? a = (k.jobs.get? a).map fun job =>
      if a = jobId ∧ job.state = .pending then { job with state := .ready } else job := by
    intro a
    by_cases ha : a = jobId
    · simp [makeReady, modifyJob, ha]
    · simp [makeReady, modifyJob, ha]
  have hkept : ∀ d, (k.makeReady jobId).Completed d → k.Completed d := by
    rintro d ⟨job', hjob', hdone⟩
    rw [hget'] at hjob'
    obtain ⟨job, hjob, rfl⟩ := Option.map_eq_some_iff.mp hjob'
    refine ⟨job, hjob, ?_⟩
    split_ifs at hdone
    exact hdone
  have hkeeps : ∀ a old, k.jobs.get? a = some old → old.state = .completed →
      (if a = jobId ∧ old.state = .pending then { old with state := .ready } else old).state =
        .completed := by
    intro a old _ hdone
    rw [if_neg (by simp [hdone])]
    exact hdone
  constructor
  · rfl
  · rfl
  · rfl
  · exact hget'
  · intro a old _
    split_ifs
    · exact ⟨rfl, rfl⟩
    · exact ⟨rfl, rfl⟩
  · exact hkeeps
  · intro a old hold hstate
    by_cases hready : a = jobId ∧ old.state = .pending
    · right
      obtain ⟨rfl, _⟩ := hready
      cases hget.symm.trans hold
      refine ⟨hrelease, fun d hd => ?_⟩
      obtain ⟨done, hdone, hcompleted⟩ := hdeps d hd
      exact ⟨_, by rw [hget', hdone, Option.map_some], hkeeps d done hdone hcompleted⟩
    · rw [if_neg hready] at hstate
      exact .inl hstate
  · intro a old _ hstate
    refine ⟨?_, fun _ => exists_missing hkept⟩
    split_ifs at hstate
    exact hstate

/-- The jobs after one of them has been completed, before its dependents are woken. -/
def completeHandle (k : Kernel π) (jobId : String) : Kernel π :=
  { k.modifyJob jobId (fun job => { job with remainingPs := 0, state := .completed }) with
    completed := addCompleted k.completed jobId }

theorem completeJobInternal_eq : k.completeJobInternal jobId =
    if (k.completeHandle jobId).wakeDependents.hasReady then
      (k.completeHandle jobId).wakeDependents.scheduleDispatch k.nowPs
    else .ok (k.completeHandle jobId).wakeDependents := rfl

/-- Completing a job that has started and waking its dependents. -/
theorem moves_complete {job : JobHandle} (hget : k.jobs.get? jobId = some job)
    (hstarted : job.state ≠ .pending) :
    ∃ f, Moves k (k.completeHandle jobId).wakeDependents f := by
  have hhandle : ∀ a, (k.completeHandle jobId).jobs.get? a = (k.jobs.get? a).map fun job =>
      if a = jobId then { job with remainingPs := 0, state := .completed } else job := by
    intro a
    by_cases ha : a = jobId
    · simp [completeHandle, modifyJob, ha]
    · simp [completeHandle, modifyJob, ha]
  generalize hk₁ : k.completeHandle jobId = k₁ at hhandle
  have hnow : k₁.nowPs = k.nowPs := by
    subst hk₁
    rfl
  have hwake : ∀ a, k₁.wakeDependents.jobs.get? a = (k₁.jobs.get? a).map fun other =>
      if other.state = .pending ∧ k₁.dependenciesSatisfied other = true ∧
          other.releasePs ≤ k₁.nowPs then
        { other with state := .ready }
      else other := by
    intro a
    unfold wakeDependents
    rw [Dict.get?_mapValues]
  have hcompleted : ∀ d, k₁.wakeDependents.Completed d ↔ k₁.Completed d := by
    intro d
    unfold Completed
    rw [hwake]
    cases k₁.jobs.get? d with
    | none => simp
    | some other =>
      simp only [Option.map_some, Option.some.injEq, exists_eq_left']
      split_ifs with hwoken
      · simp [hwoken.1]
      · rfl
  refine ⟨fun a old =>
    let other := if a = jobId then { old with remainingPs := 0, state := .completed } else old
    if other.state = .pending ∧ k₁.dependenciesSatisfied other = true ∧
        other.releasePs ≤ k₁.nowPs then
      { other with state := .ready }
    else other, ?_⟩
  constructor
  · subst hk₁
    rfl
  · exact hnow
  · subst hk₁
    rfl
  · intro a
    rw [hwake, hhandle, Option.map_map]
    rfl
  · intro a old _
    dsimp only
    split_ifs
    all_goals exact ⟨rfl, rfl⟩
  · intro a old _ hdone
    by_cases ha : a = jobId
    · simp [ha]
    · simp [ha, hdone]
  · intro a old hold hstate
    by_cases ha : a = jobId
    · subst ha
      cases hget.symm.trans hold
      exact .inl hstarted
    · simp only [if_neg ha] at hstate
      by_cases hpending : old.state = .pending
      · right
        by_cases hwoken : old.state = .pending ∧ k₁.dependenciesSatisfied old = true ∧
            old.releasePs ≤ k₁.nowPs
        · refine ⟨hnow ▸ hwoken.2.2, fun d hd => (hcompleted d).mpr ?_⟩
          exact (dependenciesSatisfied_iff (by simp [hpending])).mp hwoken.2.1 d hd
        · rw [if_neg hwoken] at hstate
          exact absurd hpending hstate
      · exact .inl hpending
  · intro a old hold hstate
    by_cases ha : a = jobId
    · simp [ha] at hstate
    · simp only [if_neg ha] at hstate
      split_ifs at hstate with hwoken
      refine ⟨hstate, fun hrelease _ => ?_⟩
      by_contra hall
      push Not at hall
      apply hwoken
      refine ⟨hstate, ?_, hnow ▸ hrelease⟩
      apply (dependenciesSatisfied_iff (by simp [hstate])).mpr
      exact fun d hd => (hcompleted d).mp (hall d hd)

/-! ### Dispatch requests -/

/-- What happens within an action: time stands still, events stay in the queue, jobs keep
their release times, and a job becomes ready only with a dispatch event at the same time. -/
structure Grows (k k' : Kernel π) : Prop where
  now : k'.nowPs = k.nowPs
  callback : k'.hasDispatchCallback = k.hasDispatchCallback
  kept : ∀ jobId job, k.jobs.get? jobId = some job →
    ∃ job', k'.jobs.get? jobId = some job' ∧ job'.releasePs = job.releasePs
  live : ∀ payload timePs, k.Scheduled payload timePs → k'.Scheduled payload timePs
  wakes : ∀ jobId job', k'.jobs.get? jobId = some job' → job'.state = .ready →
    (∃ job, k.jobs.get? jobId = some job ∧ job.state = .ready) ∨
      k.hasDispatchCallback = false ∨ k'.Scheduled .dispatch k'.nowPs

theorem Grows.refl (k : Kernel π) : Grows k k where
  now := rfl
  callback := rfl
  kept _ job hget := ⟨job, hget, rfl⟩
  live _ _ h := h
  wakes _ job' hget hready := .inl ⟨job', hget, hready⟩

theorem Grows.trans {k₁ k₂ k₃ : Kernel π} (h : Grows k₁ k₂) (h' : Grows k₂ k₃) : Grows k₁ k₃ where
  now := h'.now.trans h.now
  callback := h'.callback.trans h.callback
  kept jobId job hget := by
    obtain ⟨job', hget', heq⟩ := h.kept jobId job hget
    obtain ⟨job'', hget'', heq'⟩ := h'.kept jobId job' hget'
    exact ⟨job'', hget'', heq'.trans heq⟩
  live payload timePs hlive := h'.live payload timePs (h.live payload timePs hlive)
  wakes jobId job hget hready := by
    rcases h'.wakes jobId job hget hready with ⟨old, hold, holdReady⟩ | hnone | hdispatch
    · rcases h.wakes jobId old hold holdReady with hfirst | hnone | hdispatch
      · exact .inl hfirst
      · exact .inr (.inl hnone)
      · rw [h'.now]
        exact .inr (.inr (h'.live _ _ hdispatch))
    · exact .inr (.inl (h.callback ▸ hnone))
    · exact .inr (.inr hdispatch)

theorem Moves.kept {f : String → JobHandle → JobHandle} (h : Moves k k' f) {job : JobHandle}
    (hget : k.jobs.get? jobId = some job) :
    ∃ job', k'.jobs.get? jobId = some job' ∧ job'.releasePs = job.releasePs :=
  ⟨f jobId job, by rw [h.get, hget, Option.map_some], (h.same jobId job hget).1⟩

/-- A change of the jobs that makes no job ready. -/
theorem Moves.grows {f : String → JobHandle → JobHandle} (h : Moves k k' f)
    (hcallback : k'.hasDispatchCallback = k.hasDispatchCallback)
    (hready : ∀ a job', k'.jobs.get? a = some job' → job'.state = .ready →
      ∃ job, k.jobs.get? a = some job ∧ job.state = .ready) : Grows k k' where
  now := h.now
  callback := hcallback
  kept _ _ := h.kept
  live := by
    unfold Scheduled
    rw [h.queue]
    exact fun _ _ h => h
  wakes a job' hget hstate := .inl (hready a job' hget hstate)

/-- Inserting a current or future event adds it to the events of the queue. -/
theorem Dependable.insert_live (h : Dependable k popped) {timePs : ℤ} {phase : EventPhase}
    {payload : KernelPayload π} {e : Event (KernelPayload π)} :
    (k.queue.insert timePs phase payload).Live e ↔
      e = ⟨timePs, phase, k.queue.seq, payload⟩ ∨ k.queue.Live e :=
  EventQueue.insert_live (by simp [h.uncancelled])

/-- Scheduling a release at the release time of its job, a dispatch now, or a payload of the
client. -/
theorem Dependable.insert (h : Dependable k popped) {timePs : ℤ} (phase : EventPhase)
    (payload : KernelPayload π) (htime : k.nowPs ≤ timePs)
    (hrelease : ∀ jobId, payload = .release jobId →
      ∃ job, k.jobs.get? jobId = some job ∧ timePs = job.releasePs)
    (hdue : payload = .dispatch → timePs = k.nowPs) :
    Dependable { k with queue := k.queue.insert timePs phase payload } popped where
  nonneg := h.nonneg
  uncancelled := h.uncancelled
  future e he := by
    rcases h.insert_live.mp he with rfl | he
    · exact htime
    · exact h.future e he
  started := h.started
  waiting jobId job hget hpending hne := by
    rcases h.waiting jobId job hget hpending hne with ⟨e, he, hevent⟩ | hrest
    · exact .inl ⟨e, h.insert_live.mpr (.inr he), hevent⟩
    · exact .inr hrest
  releases e jobId he hpayload := by
    rcases h.insert_live.mp he with rfl | he
    · exact hrelease jobId hpayload
    · exact h.releases e jobId he hpayload
  due e he hdispatch := by
    rcases h.insert_live.mp he with rfl | he
    · exact hdue hdispatch
    · exact h.due e he hdispatch
  dispatching t ht hne := by
    obtain ⟨rfl, e, he, hevent⟩ := h.dispatching t ht hne
    exact ⟨rfl, e, h.insert_live.mpr (.inr he), hevent⟩

theorem Dependable.grows_insert (h : Dependable k popped) (timePs : ℤ) (phase : EventPhase)
    (payload : KernelPayload π) :
    Grows k { k with queue := k.queue.insert timePs phase payload } where
  now := rfl
  callback := rfl
  kept _ job hget := ⟨job, hget, rfl⟩
  live := by
    rintro payload timePs ⟨e, he, hevent⟩
    exact ⟨e, h.insert_live.mpr (.inr he), hevent⟩
  wakes _ job' hget hready := .inl ⟨job', hget, hready⟩

/-- A dispatch request leaves a dispatch event in the queue. -/
theorem Dependable.scheduleDispatch (h : Dependable k popped)
    (hne : popped ≠ some .dispatch) (hok : k.scheduleDispatch k.nowPs = .ok k') :
    Dependable k' popped ∧ Grows k k' ∧
      (k.hasDispatchCallback = false ∨ k'.Scheduled .dispatch k'.nowPs) := by
  unfold Kernel.scheduleDispatch at hok
  split_ifs at hok with hcallback hnext
  · cases hok
    exact ⟨h, .refl k, .inl (by simpa using hcallback)⟩
  · cases hok
    obtain ⟨t, ht, _⟩ := (Option.any_eq_true _ _).mp hnext
    obtain ⟨rfl, hlive⟩ := h.dispatching t ht hne
    exact ⟨h, .refl k, .inr hlive⟩
  · obtain ⟨⟨ev, queue⟩, hpush, hok⟩ := bind_eq_ok.mp hok
    cases hok
    unfold EventQueue.push at hpush
    rw [if_neg (by have := h.nonneg; omega)] at hpush
    cases hpush
    have hinsert : Dependable { k with queue := k.queue.insert k.nowPs .dispatch .dispatch } popped :=
      h.insert _ _ (le_refl _) (by simp) fun _ => rfl
    have hlive : Scheduled { k with queue := k.queue.insert k.nowPs .dispatch .dispatch }
        .dispatch k.nowPs := ⟨_, h.insert_live.mpr (.inl rfl), rfl, rfl⟩
    have hgrows := h.grows_insert k.nowPs .dispatch .dispatch
    refine ⟨?_, ⟨rfl, rfl, hgrows.kept, hgrows.live, hgrows.wakes⟩, .inr hlive⟩
    constructor
    · exact hinsert.nonneg
    · exact hinsert.uncancelled
    · exact hinsert.future
    · exact hinsert.started
    · exact hinsert.waiting
    · exact hinsert.releases
    · exact hinsert.due
    · intro t ht _
      cases ht
      exact ⟨rfl, hlive⟩

end Kernel

end NpuArc
