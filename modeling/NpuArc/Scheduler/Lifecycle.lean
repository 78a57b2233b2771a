import NpuArc.Scheduler.Calls
import NpuArc.Scheduler.Quiet
import Mathlib.Data.List.Induction

/-!
# The lifecycle of a job

Completed and rejected jobs stay as they are, and the lists of completed and rejected jobs
agree with the states of the jobs, as long as no call rejects a job that is already
completed or rejected. Rejecting does not check the state of the job, and such a call breaks
the agreement.
-/

namespace NpuArc

namespace Kernel

variable {π : Type} {k k' : Kernel π} {jobId : String}

/-- Whether a state is terminal. -/
def Terminal (state : JobState) : Prop := state = .completed ∨ state = .rejected

instance (state : JobState) : Decidable (Terminal state) := inferInstanceAs (Decidable (_ ∨ _))

/-- The lists of completed and rejected jobs agree with the states of the jobs, and the
remaining work of a job is between zero and its work, and zero once it is completed. -/
structure Lifecycle (k : Kernel π) : Prop where
  completed_iff : ∀ jobId, jobId ∈ k.completed ↔
    ∃ job, k.jobs.get? jobId = some job ∧ job.state = .completed
  rejected_iff : ∀ jobId, jobId ∈ k.rejected ↔
    ∃ job, k.jobs.get? jobId = some job ∧ job.state = .rejected
  completed_nodup : k.completed.Nodup
  rejected_nodup : k.rejected.Nodup
  disjoint : k.completed.Disjoint k.rejected
  bounds : ∀ jobId job, k.jobs.get? jobId = some job →
    0 ≤ job.remainingPs ∧ job.remainingPs ≤ job.workPs
  done : ∀ jobId job, k.jobs.get? jobId = some job → job.state = .completed → job.remainingPs = 0

/-- Jobs in a terminal state keep it. -/
def KeepsTerminal (k k' : Kernel π) : Prop :=
  ∀ jobId job, k.jobs.get? jobId = some job → Terminal job.state →
    ∃ job', k'.jobs.get? jobId = some job' ∧ job'.state = job.state

/-- A change that keeps the lifecycle and the terminal states. -/
structure Evolves (k k' : Kernel π) : Prop where
  lifecycle : k.Lifecycle → k'.Lifecycle
  terminal : KeepsTerminal k k'

theorem Evolves.refl (k : Kernel π) : Evolves k k where
  lifecycle h := h
  terminal _ job hget _ := ⟨job, hget, rfl⟩

theorem Evolves.trans {k₁ k₂ k₃ : Kernel π} (h : Evolves k₁ k₂) (h' : Evolves k₂ k₃) :
    Evolves k₁ k₃ where
  lifecycle hk := h'.lifecycle (h.lifecycle hk)
  terminal jobId job hget hterminal := by
    obtain ⟨job', hget', hstate⟩ := h.terminal jobId job hget hterminal
    obtain ⟨job'', hget'', hstate'⟩ := h'.terminal jobId job' hget' (hstate ▸ hterminal)
    exact ⟨job'', hget'', hstate'.trans hstate⟩

/-! ### Kinds of changes -/

/-- A job stays as it is, or it moves between states that are not terminal and its remaining
work does not grow. -/
def Adjusts (job job' : JobHandle) : Prop :=
  job' = job ∨ ¬Terminal job.state ∧ ¬Terminal job'.state ∧ job'.workPs = job.workPs ∧
    (0 ≤ job.remainingPs → 0 ≤ job'.remainingPs ∧ job'.remainingPs ≤ job.remainingPs)

theorem Adjusts.state_eq {job job' : JobHandle} (h : Adjusts job job') {state : JobState}
    (hterminal : Terminal state) : job'.state = state ↔ job.state = state := by
  rcases h with rfl | ⟨hold, hnew, _⟩
  · rfl
  · constructor
    · rintro rfl
      exact absurd hterminal hnew
    · rintro rfl
      exact absurd hterminal hold

theorem evolves_of_adjusts {f : String → JobHandle → JobHandle}
    (hget : ∀ a, k'.jobs.get? a = (k.jobs.get? a).map (f a))
    (hadjusts : ∀ a job, k.jobs.get? a = some job → Adjusts job (f a job))
    (hcompleted : k'.completed = k.completed) (hrejected : k'.rejected = k.rejected) :
    Evolves k k' := by
  have hstate : ∀ state, Terminal state → ∀ a,
      (∃ job, k'.jobs.get? a = some job ∧ job.state = state) ↔
        ∃ job, k.jobs.get? a = some job ∧ job.state = state := by
    intro state hterminal a
    rw [hget]
    cases hjob : k.jobs.get? a with
    | none => simp
    | some job => simpa using (hadjusts a job hjob).state_eq hterminal
  constructor
  · intro h
    constructor
    · intro a
      rw [hcompleted, hstate .completed (.inl rfl) a]
      exact h.completed_iff a
    · intro a
      rw [hrejected, hstate .rejected (.inr rfl) a]
      exact h.rejected_iff a
    · rw [hcompleted]
      exact h.completed_nodup
    · rw [hrejected]
      exact h.rejected_nodup
    · rw [hcompleted, hrejected]
      exact h.disjoint
    · intro a job' hjob'
      rw [hget] at hjob'
      obtain ⟨job, hjob, rfl⟩ := Option.map_eq_some_iff.mp hjob'
      have hbounds := h.bounds a job hjob
      rcases hadjusts a job hjob with heq | ⟨_, _, hwork, hremaining⟩
      · rw [heq]
        exact hbounds
      · have hremaining := hremaining hbounds.1
        rw [hwork]
        omega
    · intro a job' hjob' hdone
      rw [hget] at hjob'
      obtain ⟨job, hjob, rfl⟩ := Option.map_eq_some_iff.mp hjob'
      rcases hadjusts a job hjob with heq | ⟨_, hnew, _⟩
      · rw [heq] at hdone ⊢
        exact h.done a job hjob hdone
      · exact absurd (.inl hdone) hnew
  · intro a job hjob hterminal
    refine ⟨f a job, by rw [hget, hjob, Option.map_some], ?_⟩
    exact ((hadjusts a job hjob).state_eq hterminal).mpr rfl

/-- Changes beside the jobs and the lists. -/
theorem evolves_of_eq (hjobs : k'.jobs = k.jobs) (hcompleted : k'.completed = k.completed)
    (hrejected : k'.rejected = k.rejected) : Evolves k k' := by
  apply evolves_of_adjusts (f := fun _ job => job)
  · simp [hjobs]
  · exact fun _ _ _ => .inl rfl
  · exact hcompleted
  · exact hrejected

theorem evolves_modifyJob {f : JobHandle → JobHandle}
    (hadjusts : ∀ job, k.jobs.get? jobId = some job → Adjusts job (f job)) :
    Evolves k (k.modifyJob jobId f) := by
  apply evolves_of_adjusts (f := fun a job => if a = jobId then f job else job)
  · intro a
    by_cases ha : a = jobId
    · simp [modifyJob, ha]
    · simp [modifyJob, ha]
  · intro a job hjob
    split_ifs with ha
    · exact hadjusts job (ha ▸ hjob)
    · exact .inl rfl
  · rfl
  · rfl

/-- A new job starts with all its work. -/
theorem evolves_insert (job : JobHandle) (hnew : k.jobs.get? jobId = none)
    (hstate : ¬Terminal job.state) (hremaining : job.remainingPs = job.workPs)
    (hwork : 0 ≤ job.workPs) : Evolves k { k with jobs := k.jobs.insert jobId job } := by
  have hkept : ∀ state, Terminal state → ∀ a,
      (∃ j, (k.jobs.insert jobId job).get? a = some j ∧ j.state = state) ↔
        ∃ j, k.jobs.get? a = some j ∧ j.state = state := by
    intro state hterminal a
    rw [Dict.get?_insert]
    by_cases ha : a = jobId
    · subst ha
      rw [if_pos rfl, hnew]
      constructor
      · rintro ⟨_, hjob, rfl⟩
        cases hjob
        exact absurd hterminal hstate
      · rintro ⟨_, hnone, _⟩
        cases hnone
    · rw [if_neg ha]
  constructor
  · intro h
    constructor
    · intro a
      rw [hkept .completed (.inl rfl) a]
      exact h.completed_iff a
    · intro a
      rw [hkept .rejected (.inr rfl) a]
      exact h.rejected_iff a
    · exact h.completed_nodup
    · exact h.rejected_nodup
    · exact h.disjoint
    · intro a j hj
      rw [Dict.get?_insert] at hj
      split_ifs at hj
      · cases hj
        omega
      · exact h.bounds a j hj
    · intro a j hj hdone
      rw [Dict.get?_insert] at hj
      split_ifs at hj
      · cases hj
        exact absurd (.inl hdone) hstate
      · exact h.done a j hj hdone
  · intro a j hj _
    refine ⟨j, ?_, rfl⟩
    rw [Dict.get?_insert, if_neg, hj]
    rintro rfl
    rw [hnew] at hj
    cases hj

/-- A job that is not yet in a terminal state enters one and is recorded in its list. -/
theorem evolves_finish {job : JobHandle} {f : JobHandle → JobHandle}
    (hget : k.jobs.get? jobId = some job) (hstate : ¬Terminal job.state)
    (hdone : (f job).state = .completed → (f job).remainingPs = 0)
    (hbounds : 0 ≤ job.remainingPs → job.remainingPs ≤ job.workPs →
      0 ≤ (f job).remainingPs ∧ (f job).remainingPs ≤ (f job).workPs)
    (hjobs : k'.jobs = k.jobs.modify jobId f)
    (hcompleted : k'.completed =
      if (f job).state = .completed then addCompleted k.completed jobId else k.completed)
    (hrejected : k'.rejected =
      if (f job).state = .rejected then k.rejected ++ [jobId] else k.rejected) :
    Evolves k k' := by
  have hget' : ∀ a, k'.jobs.get? a = if a = jobId then some (f job) else k.jobs.get? a := by
    intro a
    rw [hjobs, Dict.get?_modify, hget, Option.map_some]
  have hmoved : ∀ state, Terminal state → ∀ a,
      (∃ j, k'.jobs.get? a = some j ∧ j.state = state) ↔
        a = jobId ∧ (f job).state = state ∨ ∃ j, k.jobs.get? a = some j ∧ j.state = state := by
    intro state hterminal a
    rw [hget']
    by_cases ha : a = jobId
    · subst ha
      rw [if_pos rfl, hget]
      have hne : job.state ≠ state := fun h => hstate (h ▸ hterminal)
      simp [hne]
    · simp [ha]
  constructor
  · intro h
    have hcompletedNot : jobId ∉ k.completed := by
      rw [h.completed_iff, hget]
      rintro ⟨_, hjob, hcompleted⟩
      cases hjob
      exact hstate (.inl hcompleted)
    have hrejectedNot : jobId ∉ k.rejected := by
      rw [h.rejected_iff, hget]
      rintro ⟨_, hjob, hrejected⟩
      cases hjob
      exact hstate (.inr hrejected)
    have hcompletedMem : ∀ a, a ∈ k'.completed ↔
        ∃ j, k'.jobs.get? a = some j ∧ j.state = .completed := by
      intro a
      rw [hmoved .completed (.inl rfl) a, ← h.completed_iff, hcompleted]
      split_ifs with hone
      · simp [mem_addCompleted, hone]
      · simp [hone]
    have hrejectedMem : ∀ a, a ∈ k'.rejected ↔
        ∃ j, k'.jobs.get? a = some j ∧ j.state = .rejected := by
      intro a
      rw [hmoved .rejected (.inr rfl) a, ← h.rejected_iff, hrejected]
      split_ifs with hone
      · simp [hone, or_comm]
      · simp [hone]
    constructor
    · exact hcompletedMem
    · exact hrejectedMem
    · rw [hcompleted]
      split_ifs
      · unfold addCompleted
        rw [if_neg hcompletedNot]
        exact h.completed_nodup.append (List.nodup_singleton _) (by simpa using hcompletedNot)
      · exact h.completed_nodup
    · rw [hrejected]
      split_ifs
      · exact h.rejected_nodup.append (List.nodup_singleton _) (by simpa using hrejectedNot)
      · exact h.rejected_nodup
    · intro a hmem hmem'
      obtain ⟨j, hj, hcompleted⟩ := (hcompletedMem a).mp hmem
      obtain ⟨j', hj', hrejected⟩ := (hrejectedMem a).mp hmem'
      cases hj.symm.trans hj'
      rw [hcompleted] at hrejected
      cases hrejected
    · intro a j hj
      rw [hget'] at hj
      split_ifs at hj with ha
      · cases hj
        have hold := h.bounds jobId job hget
        exact hbounds hold.1 hold.2
      · exact h.bounds a j hj
    · intro a j hj hcompleted
      rw [hget'] at hj
      split_ifs at hj with ha
      · cases hj
        exact hdone hcompleted
      · exact h.done a j hj hcompleted
  · intro a j hj hterminal
    refine ⟨j, ?_, rfl⟩
    rw [hget', if_neg, hj]
    rintro rfl
    cases hget.symm.trans hj
    exact hstate hterminal

/-! ### Operations of the kernel -/

theorem scheduleDispatch_frame {timePs : ℤ} (h : k.scheduleDispatch timePs = .ok k') :
    k'.jobs = k.jobs ∧ k'.completed = k.completed ∧ k'.rejected = k.rejected := by
  unfold scheduleDispatch at h
  split_ifs at h
  · cases h
    exact ⟨rfl, rfl, rfl⟩
  · cases h
    exact ⟨rfl, rfl, rfl⟩
  · obtain ⟨_, _, h⟩ := bind_eq_ok.mp h
    cases h
    exact ⟨rfl, rfl, rfl⟩

theorem evolves_scheduleDispatch {timePs : ℤ} (h : k.scheduleDispatch timePs = .ok k') :
    Evolves k k' := by
  obtain ⟨hjobs, hcompleted, hrejected⟩ := scheduleDispatch_frame h
  exact evolves_of_eq hjobs hcompleted hrejected

/-- Moving a job between pending, ready, and running. -/
private theorem adjusts_state {job : JobHandle} {old new : JobState} (hold : ¬Terminal old)
    (hnew : ¬Terminal new) : Adjusts job (if job.state = old then { job with state := new } else job) := by
  split_ifs with hstate
  · right
    refine ⟨hstate ▸ hold, hnew, rfl, ?_⟩
    intro hnonneg
    exact ⟨hnonneg, le_refl _⟩
  · exact .inl rfl

theorem evolves_makeReady : Evolves k (k.makeReady jobId) :=
  evolves_modifyJob fun _ _ => adjusts_state (by decide) (by decide)

theorem evolves_startJob : Evolves k (k.startJob jobId) :=
  evolves_modifyJob fun _ _ => adjusts_state (by decide) (by decide)

theorem evolves_wakeDependents : Evolves k k.wakeDependents := by
  apply evolves_of_adjusts
  · intro a
    unfold wakeDependents
    rw [Dict.get?_mapValues]
  · intro a job _
    split_ifs with hwake
    · right
      refine ⟨by simp [hwake.1, Terminal], by simp [Terminal], rfl, ?_⟩
      intro hnonneg
      exact ⟨hnonneg, le_refl _⟩
    · exact .inl rfl
  · rfl
  · rfl

theorem evolves_completeJobInternal {job : JobHandle} (hget : k.jobs.get? jobId = some job)
    (hstate : ¬Terminal job.state) (h : k.completeJobInternal jobId = .ok k') : Evolves k k' := by
  unfold completeJobInternal at h
  dsimp only at h
  generalize hfinished : ({ k.modifyJob jobId fun job =>
      { job with remainingPs := 0, state := .completed } with
    completed := if jobId ∈ (k.modifyJob jobId fun job =>
        { job with remainingPs := 0, state := .completed }).completed then _ else _ } :
    Kernel π) = k₁ at h
  have hfinish : Evolves k k₁ := by
    subst hfinished
    apply evolves_finish hget hstate (f := fun job => { job with remainingPs := 0, state := .completed })
    · exact fun _ => rfl
    · intro hnonneg hle
      exact ⟨le_refl 0, hnonneg.trans hle⟩
    · rfl
    · rfl
    · rfl
  apply hfinish.trans
  split_ifs at h
  · exact evolves_wakeDependents.trans (evolves_scheduleDispatch h)
  · cases h
    exact evolves_wakeDependents

theorem getJob_eq_ok {job : JobHandle} : k.getJob jobId = .ok job ↔ k.jobs.get? jobId = some job := by
  unfold getJob
  cases k.jobs.get? jobId with
  | none => simp
  | some old => simp

theorem evolves_completeJob (h : k.completeJob jobId = .ok k') : Evolves k k' := by
  obtain ⟨job, hget, h⟩ := bind_eq_ok.mp h
  split_ifs at h with hcompleted hrunning
  · cases h
    exact .refl k
  · apply evolves_completeJobInternal (getJob_eq_ok.mp hget) _ h
    simp only [ne_eq, not_not] at hrunning
    simp [hrunning, Terminal]

theorem evolves_releasePayload (h : k.releasePayload jobId = .ok k') : Evolves k k' := by
  obtain ⟨job, _, h⟩ := bind_eq_ok.mp h
  split_ifs at h
  · cases h
    exact .refl k
  · exact evolves_makeReady.trans (evolves_scheduleDispatch h)
  · cases h
    exact .refl k

theorem evolves_consumeWork {durationPs : ℤ} (h : k.consumeWork jobId durationPs = .ok k') :
    Evolves k k' := by
  obtain ⟨job, hget, h⟩ := bind_eq_ok.mp h
  split_ifs at h with hrunning hneg hover
  cases h
  apply evolves_modifyJob
  intro other hother
  cases hother.symm.trans (getJob_eq_ok.mp hget)
  simp only [ne_eq, not_not] at hrunning
  right
  refine ⟨by simp [hrunning, Terminal], by simp [hrunning, Terminal], rfl, ?_⟩
  intro hnonneg
  dsimp only
  omega

private theorem evolves_consumeStep {delta : ℤ} (hdelta : 0 ≤ delta)
    (h : consumeStep delta k jobId = .ok k') : Evolves k k' := by
  unfold consumeStep at h
  cases hget : k.jobs.get? jobId with
  | none =>
    rw [hget] at h
    cases h
    exact .refl k
  | some job =>
    rw [hget] at h
    dsimp only at h
    by_cases hrunning : job.state = .running
    · rw [if_neg (by simp [hrunning])] at h
      have hconsume : Evolves k (k.modifyJob jobId fun old =>
          { old with remainingPs := job.remainingPs - min delta job.remainingPs }) := by
        apply evolves_modifyJob
        intro old hold
        cases hget.symm.trans hold
        right
        refine ⟨by simp [hrunning, Terminal], by simp [hrunning, Terminal], rfl, ?_⟩
        intro hnonneg
        dsimp only
        omega
      apply hconsume.trans
      split_ifs at h
      · apply evolves_completeJobInternal _ _ h
        · exact { job with remainingPs := job.remainingPs - min delta job.remainingPs }
        · simp [modifyJob, hget]
        · simp [hrunning, Terminal]
      · cases h
        exact .refl _
    · rw [if_pos hrunning] at h
      cases h
      exact .refl k

theorem evolves_consumeElapsedWork {previousTimePs : ℤ}
    (h : k.consumeElapsedWork previousTimePs = .ok k') : Evolves k k' := by
  unfold consumeElapsedWork at h
  dsimp only at h
  split_ifs at h with hdelta
  · cases h
    exact .refl k
  · apply foldlM_invariant (Evolves k) h (.refl k)
    intro k₁ jobId k₂ _ hk₁ hstep
    exact hk₁.trans (evolves_consumeStep (by omega) hstep)

theorem evolves_registerJob {workPs releasePs : ℤ} {relativeDeadlinePs : Option ℤ}
    {priorityClass : ℤ} {dependsOn : List String} :
    Evolves k (k.registerJob jobId workPs releasePs relativeDeadlinePs priorityClass dependsOn).2 := by
  unfold registerJob
  dsimp only
  split_ifs with hid hnew hwork hpast hdeadline hself hcycle hnow hsatisfied
  · exact .refl k
  · exact .refl k
  · exact .refl k
  · exact .refl k
  · exact .refl k
  · exact .refl k
  all_goals
    have hinsert := evolves_insert
      { jobId := jobId
        releasePs := releasePs
        deadlinePs := releasePs + relativeDeadlinePs.getD workPs
        workPs := workPs
        remainingPs := workPs
        state := .pending
        priorityClass := priorityClass
        relativeDeadlinePs := relativeDeadlinePs.getD workPs
        dependsOn := dependsOn } (Dict.contains_eq_false.mp (by simpa using hnew))
      (by simp [Terminal]) rfl (by simpa using hwork)
  · exact hinsert
  · apply hinsert.trans
    apply evolves_makeReady.trans
    split
    · next hdispatch => exact evolves_scheduleDispatch hdispatch
    · exact .refl _
  · exact hinsert
  · apply hinsert.trans
    split
    · exact evolves_of_eq rfl rfl rfl
    · exact .refl _

/-- Rejecting a job that is not yet completed or rejected. -/
theorem evolves_rejectJob
    (hallowed : ∀ job, k.jobs.get? jobId = some job → ¬Terminal job.state)
    (h : k.rejectJob jobId = .ok k') : Evolves k k' := by
  obtain ⟨job, hget, h⟩ := bind_eq_ok.mp h
  cases h
  apply evolves_finish (getJob_eq_ok.mp hget) (hallowed job (getJob_eq_ok.mp hget))
    (f := fun job => { job with state := .rejected })
  · intro hcompleted
    cases hcompleted
  · exact fun hnonneg hle => ⟨hnonneg, hle⟩
  · rfl
  · rfl
  · rfl

/-- Rejecting a job that is already completed or rejected breaks the lists of jobs. -/
theorem not_lifecycle_rejectJob {job : JobHandle} (hget : k.jobs.get? jobId = some job)
    (hterminal : Terminal job.state) (hk : k.Lifecycle) :
    ¬(k.perform (.rejectJob jobId)).Lifecycle := by
  intro h
  have hrejected : (k.perform (.rejectJob jobId)).rejected = k.rejected ++ [jobId] := by
    simp [perform, rejectJob, getJob_eq_ok.mpr hget, after, bind_eq_ok_left]
  have hcompleted : (k.perform (.rejectJob jobId)).completed = k.completed := by
    simp [perform, rejectJob, getJob_eq_ok.mpr hget, after, bind_eq_ok_left, modifyJob]
  rcases hterminal with hstate | hstate
  · have hmem : jobId ∈ k.completed := (hk.completed_iff jobId).mpr ⟨job, hget, hstate⟩
    apply h.disjoint (a := jobId)
    · rw [hcompleted]
      exact hmem
    · rw [hrejected]
      simp
  · have hmem : jobId ∈ k.rejected := (hk.rejected_iff jobId).mpr ⟨job, hget, hstate⟩
    have hnodup := h.rejected_nodup
    rw [hrejected, List.nodup_append] at hnodup
    exact hnodup.2.2 jobId hmem jobId (by simp) rfl

/-! ### Runs -/

/-- An action that does not reject a completed or rejected job. -/
def RejectsOnlyLive (k : Kernel π) : Action π → Prop
  | .call (.rejectJob jobId) => ∀ job, k.jobs.get? jobId = some job → ¬Terminal job.state
  | _ => True

private theorem evolves_after {r : Except Error (Kernel π)} (h : ∀ k', r = .ok k' → Evolves k k') :
    Evolves k (k.after r) := by
  cases r with
  | error _ => exact .refl k
  | ok k' => exact h k' rfl

theorem evolves_ownPayload (payload : KernelPayload π) : Evolves k (k.ownPayload payload) := by
  cases payload with
  | release jobId => exact evolves_after fun _ => evolves_releasePayload
  | dispatch => exact evolves_of_eq rfl rfl rfl
  | client _ => exact .refl k

theorem evolves_beginEvent : Evolves k k.beginEvent := by
  unfold beginEvent
  split
  · exact .refl k
  · next ev queue _ =>
    split_ifs
    · exact evolves_of_eq rfl rfl rfl
    · have hpopped : Evolves k { k with queue := queue, nowPs := ev.timePs } :=
        evolves_of_eq rfl rfl rfl
      exact (hpopped.trans (evolves_after fun _ => evolves_consumeElapsedWork)).trans
        (evolves_ownPayload _)

/-- What an action does that does not reject a completed or rejected job. -/
theorem evolves_act {action : Action π} (h : k.RejectsOnlyLive action) : Evolves k (k.act action) := by
  cases action with
  | event => exact evolves_beginEvent
  | call call =>
    cases call with
    | registerJob => exact evolves_registerJob
    | rejectJob jobId => exact evolves_after fun _ => evolves_rejectJob h
    | consumeWork => exact evolves_after fun _ => evolves_consumeWork
    | completeJob => exact evolves_after fun _ => evolves_completeJob
    | startJob => exact evolves_startJob
    | schedule timePs phase payload =>
      apply evolves_after
      intro k' hk'
      cases hschedule : k.schedule timePs phase (.client payload) with
      | error _ =>
        rw [hschedule] at hk'
        cases hk'
      | ok result =>
        obtain ⟨ev, k₁⟩ := result
        obtain ⟨_, _, _, rfl⟩ := schedule_eq_ok.mp hschedule
        rw [hschedule] at hk'
        cases hk'
        exact evolves_of_eq rfl rfl rfl

theorem lifecycle_initial (hasDispatchCallback : Bool) :
    (initial hasDispatchCallback : Kernel π).Lifecycle := by
  constructor <;> simp [initial]

/-- In a run of a new kernel, every state keeps the lifecycle of its jobs and every action
keeps the terminal states, exactly if no call rejects a completed or rejected job. -/
theorem lifecycle_iff (hasDispatchCallback : Bool) (actions : List (Action π)) :
    (∀ before rest, actions = before ++ rest →
      ((initial hasDispatchCallback).run before).Lifecycle) ∧
    (∀ before action rest, actions = before ++ action :: rest →
      KeepsTerminal ((initial hasDispatchCallback).run before)
        ((initial hasDispatchCallback).run (before ++ [action]))) ↔
    ∀ before action rest, actions = before ++ action :: rest →
      ((initial hasDispatchCallback).run before).RejectsOnlyLive action := by
  constructor
  · rintro ⟨hlifecycle, _⟩ before action rest rfl
    cases action with
    | event => trivial
    | call call =>
      cases call with
      | rejectJob jobId =>
        intro job hget hterminal
        apply not_lifecycle_rejectJob hget hterminal (hlifecycle before _ rfl)
        have hnext := hlifecycle (before ++ [.call (.rejectJob jobId)]) rest (by simp)
        rw [run_append] at hnext
        exact hnext
      | _ => trivial
  · intro hlive
    constructor
    · intro before
      induction before using List.reverseRecOn with
      | nil => exact fun _ _ => lifecycle_initial hasDispatchCallback
      | append_singleton before action ih =>
        rintro rest rfl
        rw [run_append]
        apply (evolves_act (hlive before action rest (by simp))).lifecycle
        exact ih (action :: rest) (by simp)
    · rintro before action rest rfl
      rw [run_append]
      exact (evolves_act (hlive before action rest rfl)).terminal

/-- Completing a job and then rejecting it puts it into both lists. -/
theorem completed_job_rejected :
    ¬((initial false : Kernel Unit).run
      [.call (.registerJob "j1" 10 0 none 0 []), .call (.startJob "j1"),
        .call (.completeJob "j1"), .call (.rejectJob "j1")]).Lifecycle := by
  intro h
  apply h.disjoint (a := "j1")
  · decide
  · decide

end Kernel

end NpuArc
