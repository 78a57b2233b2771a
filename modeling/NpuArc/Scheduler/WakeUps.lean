import NpuArc.Scheduler.Dependencies

/-!
# No lost wake-up

Every action of a run that rejects no job keeps the invariant of dependencies. Jobs start in
the order of their dependencies, none is forgotten, and each that becomes ready finds a
dispatch event waiting for it.
-/

namespace NpuArc

namespace Kernel

open Relation

variable {π : Type} {k k' : Kernel π} {jobId : String} {popped : Option (KernelPayload π)}

/-! ### Operations of the kernel -/

/-- What an operation within an action keeps. -/
def Keeps (popped : Option (KernelPayload π)) (k k' : Kernel π) : Prop :=
  Dependable k popped → Dependable k' popped ∧ Grows k k'

private theorem Keeps.trans {k₁ k₂ k₃ : Kernel π} (h : Keeps popped k₁ k₂)
    (h' : Keeps popped k₂ k₃) : Keeps popped k₁ k₃ := by
  intro h₁
  obtain ⟨h₂, hgrows⟩ := h h₁
  obtain ⟨h₃, hgrows'⟩ := h' h₂
  exact ⟨h₃, hgrows.trans hgrows'⟩

private theorem Keeps.refl (k : Kernel π) : Keeps popped k k := fun h => ⟨h, .refl k⟩

/-- A request for a dispatch justifies that jobs have become ready before it. -/
private theorem keeps_of_moves_dispatch {k₁ : Kernel π} {f : String → JobHandle → JobHandle}
    (hne : popped ≠ some .dispatch) (hmoves : Moves k k₁ f)
    (hcallback : k₁.hasDispatchCallback = k.hasDispatchCallback)
    (hok : k₁.scheduleDispatch k.nowPs = .ok k') : Keeps popped k k' := by
  intro hk
  rw [← hmoves.now] at hok
  obtain ⟨hk', hgrows, hdispatch⟩ := (hk.moves hmoves).scheduleDispatch hne hok
  refine ⟨hk', hgrows.now.trans hmoves.now, hgrows.callback.trans hcallback, ?_, ?_, ?_⟩
  · intro a job hget
    obtain ⟨job', hget', heq⟩ := hmoves.kept hget
    rw [(scheduleDispatch_frame hok).1]
    exact ⟨job', hget', heq⟩
  · intro payload timePs hlive
    apply hgrows.live
    unfold Scheduled at hlive ⊢
    rw [hmoves.queue]
    exact hlive
  · intro _ _ _ _
    rw [← hcallback]
    exact .inr hdispatch

private theorem keeps_completeJobInternal {job : JobHandle} (hne : popped ≠ some .dispatch)
    (hget : k.jobs.get? jobId = some job) (hstarted : job.state ≠ .pending)
    (hok : k.completeJobInternal jobId = .ok k') : Keeps popped k k' := by
  rw [completeJobInternal_eq] at hok
  obtain ⟨f, hmoves⟩ := moves_complete hget hstarted
  split_ifs at hok with hready
  · exact keeps_of_moves_dispatch hne hmoves rfl hok
  · cases hok
    intro hk
    refine ⟨hk.moves hmoves, hmoves.grows rfl ?_⟩
    intro a job' hget' hstate
    exfalso
    apply hready
    unfold hasReady
    rw [List.any_eq_true]
    exact ⟨job', Dict.mem_values.mpr ⟨a, hget'⟩, by simp [hstate]⟩

private theorem keeps_completeJob (hne : popped ≠ some .dispatch)
    (hok : k.completeJob jobId = .ok k') : Keeps popped k k' := by
  obtain ⟨job, hget, hok⟩ := bind_eq_ok.mp hok
  split_ifs at hok with hcompleted hrunning
  · cases hok
    exact .refl k
  · apply keeps_completeJobInternal hne (getJob_eq_ok.mp hget) _ hok
    simp only [ne_eq, not_not] at hrunning
    simp [hrunning]

/-- Changing a job that has started without completing it and without making it ready. -/
private theorem keeps_modifyJob {f : JobHandle → JobHandle}
    (hsame : ∀ job, (f job).releasePs = job.releasePs ∧ (f job).dependsOn = job.dependsOn)
    (hpending : ∀ job, k.jobs.get? jobId = some job →
      ((f job).state = .pending ↔ job.state = .pending))
    (hcompleted : ∀ job, k.jobs.get? jobId = some job →
      ((f job).state = .completed ↔ job.state = .completed))
    (hready : ∀ job, (f job).state = .ready → job.state = .ready) :
    Keeps popped k (k.modifyJob jobId f) := by
  intro hk
  have hmoves := moves_modifyJob hsame hpending hcompleted
  refine ⟨hk.moves hmoves, hmoves.grows rfl ?_⟩
  intro a job' hget' hstate
  rw [hmoves.get] at hget'
  obtain ⟨job, hget, rfl⟩ := Option.map_eq_some_iff.mp hget'
  refine ⟨job, hget, ?_⟩
  split_ifs at hstate
  · exact hready job hstate
  · exact hstate

private theorem keeps_startJob : Keeps popped k (k.startJob jobId) := by
  apply keeps_modifyJob
  · intro job
    split_ifs
    · exact ⟨rfl, rfl⟩
    · exact ⟨rfl, rfl⟩
  · intro job _
    split_ifs with hready
    · simp [hready]
    · rfl
  · intro job _
    split_ifs with hready
    · simp [hready]
    · rfl
  · intro job hstate
    split_ifs at hstate
    exact hstate

private theorem keeps_consume (remaining : JobHandle → ℤ) : Keeps popped k
    (k.modifyJob jobId fun job => { job with remainingPs := remaining job }) :=
  keeps_modifyJob (fun _ => ⟨rfl, rfl⟩) (fun _ _ => Iff.rfl) (fun _ _ => Iff.rfl) fun _ h => h

private theorem keeps_consumeStep {delta : ℤ} (hne : popped ≠ some .dispatch)
    (hok : consumeStep delta k jobId = .ok k') : Keeps popped k k' := by
  unfold consumeStep at hok
  cases hget : k.jobs.get? jobId with
  | none =>
    rw [hget] at hok
    cases hok
    exact .refl k
  | some job =>
    rw [hget] at hok
    dsimp only at hok
    by_cases hrunning : job.state = .running
    · rw [if_neg (by simp [hrunning])] at hok
      apply (keeps_consume fun _ => job.remainingPs - min delta job.remainingPs).trans
      split_ifs at hok
      · apply keeps_completeJobInternal hne _ _ hok
        · exact { job with remainingPs := job.remainingPs - min delta job.remainingPs }
        · simp [modifyJob, hget]
        · simp [hrunning]
      · cases hok
        exact .refl _
    · rw [if_pos hrunning] at hok
      cases hok
      exact .refl k

private theorem keeps_consumeElapsedWork {previousTimePs : ℤ}
    (hne : popped ≠ some .dispatch ∨ k.nowPs ≤ previousTimePs)
    (hok : k.consumeElapsedWork previousTimePs = .ok k') : Keeps popped k k' := by
  rcases hne with hne | htime
  · unfold consumeElapsedWork at hok
    dsimp only at hok
    split_ifs at hok
    · cases hok
      exact .refl k
    · apply foldlM_invariant (Keeps popped k) hok (.refl k)
      intro k₁ jobId k₂ _ hk₁ hstep
      exact hk₁.trans (keeps_consumeStep hne hstep)
  · rw [consumeElapsedWork_of_le htime] at hok
    cases hok
    exact .refl k

/-- A job waits again when its release has been handled. -/
private theorem Dependable.settle (h : Dependable k (some (.release jobId)))
    (hwaits : ∀ job, k.jobs.get? jobId = some job → job.state = .pending → k.Waits jobId job) :
    Dependable k none where
  nonneg := h.nonneg
  uncancelled := h.uncancelled
  future := h.future
  started := h.started
  waiting a job hget hpending _ := by
    by_cases ha : a = jobId
    · subst ha
      exact hwaits job hget hpending
    · exact h.waiting a job hget hpending (by simp [Ne.symm ha])
  releases := h.releases
  due := h.due
  dispatching t ht _ := h.dispatching t ht (by simp)

theorem scheduleDispatch_ok (hnonneg : 0 ≤ k.nowPs) : ∃ k', k.scheduleDispatch k.nowPs = .ok k' := by
  unfold scheduleDispatch EventQueue.push
  split_ifs
  · exact ⟨_, rfl⟩
  · exact ⟨_, rfl⟩
  · omega
  · exact ⟨_, rfl⟩

/-- Releasing a job that is due, whether from its event or on registration. -/
private theorem Dependable.release (h : Dependable k (some (.release jobId))) {job : JobHandle}
    (hget : k.jobs.get? jobId = some job) (hpending : job.state = .pending)
    (hrelease : job.releasePs ≤ k.nowPs) :
    (k.dependenciesSatisfied job = true ∧ ∃ k', (k.makeReady jobId).scheduleDispatch k.nowPs = .ok k' ∧
      Dependable k' none ∧ Grows k k') ∨
    k.dependenciesSatisfied job = false ∧ Dependable k none := by
  cases hsatisfied : k.dependenciesSatisfied job with
  | true =>
    left
    have hdeps := (dependenciesSatisfied_iff (by simp [hpending])).mp hsatisfied
    have hmoves := moves_makeReady hget hrelease hdeps
    have hnonneg : 0 ≤ (k.makeReady jobId).nowPs := h.nonneg
    obtain ⟨k', hok⟩ := scheduleDispatch_ok hnonneg
    have hkeeps : Keeps (some (.release jobId)) k k' :=
      keeps_of_moves_dispatch (by simp) hmoves rfl hok
    obtain ⟨hk', hgrows⟩ := hkeeps h
    refine ⟨rfl, k', hok, hk'.settle ?_, hgrows⟩
    intro job' hget' hpending'
    rw [(scheduleDispatch_frame hok).1, hmoves.get, hget, Option.map_some] at hget'
    cases hget'
    simp [hpending] at hpending'
  | false =>
    right
    refine ⟨rfl, h.settle ?_⟩
    intro job' hget' _
    cases hget.symm.trans hget'
    right
    left
    refine ⟨hrelease, ?_⟩
    by_contra hall
    push Not at hall
    rw [(dependenciesSatisfied_iff (by simp [hpending])).mpr hall] at hsatisfied
    cases hsatisfied

private theorem Dependable.ownPayload {payload : KernelPayload π} (h : Dependable k (some payload))
    (hrelease : ∀ jobId, payload = .release jobId →
      ∃ job, k.jobs.get? jobId = some job ∧ k.nowPs = job.releasePs) :
    Dependable (k.ownPayload payload) none ∧ Grows k (k.ownPayload payload) := by
  cases payload with
  | release jobId =>
    obtain ⟨job, hget, htime⟩ := hrelease jobId rfl
    by_cases hpending : job.state = .pending
    · have heq : k.releasePayload jobId =
          if k.dependenciesSatisfied job then (k.makeReady jobId).scheduleDispatch k.nowPs
          else .ok k := by
        unfold releasePayload
        rw [getJob_eq_ok.mpr hget, bind_eq_ok_left, if_neg (by simp [hpending])]
      unfold Kernel.ownPayload
      dsimp only
      rw [heq]
      rcases h.release hget hpending htime.ge with ⟨hsatisfied, k', hok, hk', hgrows⟩ |
        ⟨hsatisfied, hk⟩
      · rw [if_pos hsatisfied, hok]
        exact ⟨hk', hgrows⟩
      · rw [hsatisfied]
        exact ⟨hk, .refl k⟩
    · have heq : k.releasePayload jobId = .ok k := by
        unfold releasePayload
        rw [getJob_eq_ok.mpr hget, bind_eq_ok_left, if_pos hpending]
      unfold Kernel.ownPayload
      dsimp only
      rw [heq]
      refine ⟨h.settle ?_, .refl k⟩
      intro job' hget' hpending'
      cases hget.symm.trans hget'
      exact absurd hpending' hpending
  | dispatch =>
    refine ⟨?_, ⟨rfl, rfl, fun _ job hget => ⟨job, hget, rfl⟩, fun _ _ h => h,
      fun _ job' hget hready => .inl ⟨job', hget, hready⟩⟩⟩
    constructor
    · exact h.nonneg
    · exact h.uncancelled
    · exact h.future
    · exact h.started
    · exact fun a job hget hpending _ => h.waiting a job hget hpending (by simp)
    · exact h.releases
    · exact h.due
    · intro t ht
      cases ht
  | client payload =>
    refine ⟨?_, .refl k⟩
    constructor
    · exact h.nonneg
    · exact h.uncancelled
    · exact h.future
    · exact h.started
    · exact fun a job hget hpending _ => h.waiting a job hget hpending (by simp)
    · exact h.releases
    · exact h.due
    · exact fun t ht _ => h.dispatching t ht (by simp)

/-! ### Events -/

/-- Popping the earliest event and advancing time to it. -/
private theorem Dependable.pop (h : Dependable k none) {ev : Event (KernelPayload π)}
    {queue : EventQueue (KernelPayload π)} (hpop : k.queue.pop = (some ev, queue)) :
    k.nowPs ≤ ev.timePs ∧
      Dependable { k with queue := queue, nowPs := ev.timePs } (some ev.payload) ∧
      (ev.payload = .dispatch → ev.timePs = k.nowPs) ∧
      ∀ jobId, ev.payload = .release jobId →
        ∃ job, k.jobs.get? jobId = some job ∧ ev.timePs = job.releasePs := by
  obtain ⟨hlive, hrest, _, hcancelled⟩ := EventQueue.pop_spec hpop
  have hnow := h.future ev hlive
  have hearliest : ∀ e, k.queue.Live e → ev.timePs ≤ e.timePs := fun e he =>
    timePs_le_of_eventKey_le (EventQueue.pop_least hpop he)
  have hother : ∀ payload timePs, k.Scheduled payload timePs → ev.payload ≠ payload →
      ∃ e, queue.Live e ∧ e.payload = payload ∧ e.timePs = timePs := by
    rintro payload timePs ⟨e, he, hpayload, htime⟩ hne
    refine ⟨e, (hrest e).mpr ⟨he, ?_⟩, hpayload, htime⟩
    rintro rfl
    exact hne hpayload
  refine ⟨hnow, ?_, h.due ev hlive, fun jobId => h.releases ev jobId hlive⟩
  constructor
  · exact h.nonneg.trans hnow
  · exact List.subset_nil.mp (h.uncancelled ▸ hcancelled)
  · exact fun e he => hearliest e ((hrest e).mp he).1
  · intro a job hget hstate
    obtain ⟨hrelease, hdeps⟩ := h.started a job hget hstate
    exact ⟨hrelease.trans hnow, hdeps⟩
  · intro a job hget hpending hne
    rcases h.waiting a job hget hpending (by simp) with hevent | ⟨hrelease, hmissing⟩ | hcycle
    · exact .inl (hother _ _ hevent fun heq => hne (by rw [heq]))
    · exact .inr (.inl ⟨hrelease.trans hnow, hmissing⟩)
    · exact .inr (.inr hcycle)
  · exact fun e jobId he => h.releases e jobId ((hrest e).mp he).1
  · intro e he hpayload
    have hdue := h.due e ((hrest e).mp he).1 hpayload
    have hle := hearliest e ((hrest e).mp he).1
    change e.timePs = ev.timePs
    omega
  · intro t ht hne
    obtain ⟨rfl, e, he, hpayload, htime⟩ := h.dispatching t ht (by simp)
    have hle := hearliest e he
    have heq : k.nowPs = ev.timePs := by omega
    refine ⟨heq, hother _ _ ⟨e, he, hpayload, htime⟩ fun heq => hne (by rw [heq])⟩

/-- What beginning an event does: time advances at most to the event, and then the kernel
grows. -/
private theorem Dependable.beginEvent (h : Dependable k none) :
    Dependable k.beginEvent none ∧
      ∃ k₁, k₁.jobs = k.jobs ∧ k₁.hasDispatchCallback = k.hasDispatchCallback ∧
        Grows k₁ k.beginEvent := by
  unfold Kernel.beginEvent
  split
  · exact ⟨h, k, rfl, rfl, .refl k⟩
  · next ev queue hpop =>
    obtain ⟨hnow, hpopped, hdue, hreleases⟩ := h.pop hpop
    rw [if_neg (by omega)]
    dsimp only
    have hconsume : Keeps (some ev.payload) { k with queue := queue, nowPs := ev.timePs }
        (after { k with queue := queue, nowPs := ev.timePs }
          (consumeElapsedWork { k with queue := queue, nowPs := ev.timePs } k.nowPs)) := by
      cases hok : consumeElapsedWork { k with queue := queue, nowPs := ev.timePs } k.nowPs with
      | error _ => exact .refl _
      | ok k₂ =>
        apply keeps_consumeElapsedWork _ hok
        by_cases hdispatch : ev.payload = .dispatch
        · right
          exact (hdue hdispatch).le
        · left
          simpa using hdispatch
    obtain ⟨hk₂, hgrows⟩ := hconsume hpopped
    obtain ⟨hk', hgrows'⟩ := hk₂.ownPayload (by
      intro jobId hpayload
      obtain ⟨job, hget, htime⟩ := hreleases jobId hpayload
      obtain ⟨job', hget', heq⟩ := hgrows.kept jobId job hget
      exact ⟨job', hget', (hgrows.now.trans htime).trans heq.symm⟩)
    refine ⟨hk', _, ?_, ?_, hgrows.trans hgrows'⟩
    · rfl
    · rfl

/-! ### Registration -/

/-- The search finds only cycles. -/
private theorem detectLoop_sound {start : String} :
    ∀ fuel stack visited, (∀ a ∈ stack, TransGen k.DependsOn start a) →
      detectLoop k.jobs start fuel stack visited = true → TransGen k.DependsOn start start
  | 0, _, _, _, h => by simp [detectLoop] at h
  | _ + 1, [], _, _, h => by simp [detectLoop] at h
  | fuel + 1, current :: stack, visited, hstack, h => by
    have hcurrent := hstack current List.mem_cons_self
    have hrest : ∀ a ∈ stack, TransGen k.DependsOn start a := fun a ha =>
      hstack a (List.mem_cons_of_mem current ha)
    unfold detectLoop at h
    split_ifs at h with hvisited hfound
    · exact hfound ▸ hcurrent
    · exact detectLoop_sound fuel stack visited hrest h
    · cases hget : k.jobs.get? current with
      | none =>
        rw [hget] at h
        exact detectLoop_sound fuel stack _ hrest h
      | some job =>
        rw [hget] at h
        apply detectLoop_sound fuel _ _ _ h
        intro a ha
        rcases List.mem_append.mp ha with ha | ha
        · exact hcurrent.tail ⟨job, hget, List.mem_reverse.mp ha⟩
        · exact hrest a ha

theorem detectCycle_sound (h : k.detectCycle jobId = true) :
    TransGen k.DependsOn jobId jobId := by
  unfold detectCycle detectLoop at h
  rw [if_neg List.not_mem_nil] at h
  cases hget : k.jobs.get? jobId with
  | none =>
    rw [hget] at h
    exact detectLoop_sound _ _ _ (by simp) h
  | some job =>
    rw [hget] at h
    apply detectLoop_sound _ _ _ _ h
    intro a ha
    rw [List.append_nil, List.mem_reverse] at ha
    exact .single ⟨job, hget, ha⟩

/-- A new pending job waits for its release. -/
private theorem Dependable.insertJob (h : Dependable k none) (job : JobHandle)
    (hnew : k.jobs.get? jobId = none) (hpending : job.state = .pending) :
    Dependable { k with jobs := k.jobs.insert jobId job } (some (.release jobId)) ∧
      Grows k { k with jobs := k.jobs.insert jobId job } ∧
      ({ k with jobs := k.jobs.insert jobId job } : Kernel π).jobs.get? jobId = some job := by
  have hself : (k.jobs.insert jobId job).get? jobId = some job := by
    rw [Dict.get?_insert, if_pos rfl]
  have hold : ∀ a old, k.jobs.get? a = some old → (k.jobs.insert jobId job).get? a = some old := by
    intro a old hget
    rw [Dict.get?_insert, if_neg, hget]
    rintro rfl
    rw [hnew] at hget
    cases hget
  have hget : ∀ a other, (k.jobs.insert jobId job).get? a = some other →
      k.jobs.get? a = some other ∨ a = jobId ∧ other = job := by
    intro a other hget
    rw [Dict.get?_insert] at hget
    split_ifs at hget with ha
    · cases hget
      exact .inr ⟨ha, rfl⟩
    · exact .inl hget
  generalize hk₁ : ({ k with jobs := k.jobs.insert jobId job } : Kernel π) = k₁
  have hjobs : k₁.jobs = k.jobs.insert jobId job := hk₁ ▸ rfl
  have hqueue : k₁.queue = k.queue := hk₁ ▸ rfl
  have hnow : k₁.nowPs = k.nowPs := hk₁ ▸ rfl
  have hcompleted : ∀ d, k₁.Completed d ↔ k.Completed d := by
    intro d
    unfold Completed
    rw [hjobs]
    constructor
    · rintro ⟨other, hother, hdone⟩
      rcases hget d other hother with hother | ⟨_, rfl⟩
      · exact ⟨other, hother, hdone⟩
      · rw [hpending] at hdone
        cases hdone
    · rintro ⟨other, hother, hdone⟩
      exact ⟨other, hold d other hother, hdone⟩
  have hdepends : ∀ a b, k.DependsOn a b → k₁.DependsOn a b := by
    rintro a b ⟨other, hother, hmem⟩
    exact ⟨other, hjobs ▸ hold a other hother, hmem⟩
  refine ⟨?_, ?_, hjobs ▸ hself⟩
  · constructor
    · rw [hnow]
      exact h.nonneg
    · rw [hqueue]
      exact h.uncancelled
    · rw [hqueue, hnow]
      exact h.future
    · intro a other hother hstate
      rw [hjobs] at hother
      rcases hget a other hother with hother | ⟨_, rfl⟩
      · obtain ⟨hrelease, hdeps⟩ := h.started a other hother hstate
        rw [hnow]
        exact ⟨hrelease, fun d hd => (hcompleted d).mpr (hdeps d hd)⟩
      · exact absurd hpending hstate
    · intro a other hother hstate hne
      rw [hjobs] at hother
      rcases hget a other hother with hother | ⟨rfl, _⟩
      · unfold Waits Scheduled
        rw [hqueue, hnow]
        rcases h.waiting a other hother hstate (by simp) with hevent | ⟨hrelease, d, hd, hmissing⟩ |
          hcycle
        · exact .inl hevent
        · exact .inr (.inl ⟨hrelease, d, hd, fun hdone => hmissing ((hcompleted d).mp hdone)⟩)
        · exact .inr (.inr (TransGen.mono hdepends _ _ hcycle))
      · exact absurd rfl hne
    · intro e a he hpayload
      rw [hqueue] at he
      obtain ⟨other, hother, htime⟩ := h.releases e a he hpayload
      exact ⟨other, hjobs ▸ hold a other hother, htime⟩
    · rw [hqueue, hnow]
      exact h.due
    · unfold Scheduled
      rw [hqueue, hnow]
      intro t ht _
      exact h.dispatching t (by rw [← hk₁] at ht; exact ht) (by simp)
  · constructor
    · exact hnow
    · rw [← hk₁]
    · intro a other hother
      exact ⟨other, hjobs ▸ hold a other hother, rfl⟩
    · unfold Scheduled
      rw [hqueue]
      exact fun _ _ h => h
    · intro a other hother hready
      rw [hjobs] at hother
      rcases hget a other hother with hother | ⟨_, rfl⟩
      · exact .inl ⟨other, hother, hready⟩
      · rw [hpending] at hready
        cases hready

private theorem keeps_registerJob {workPs releasePs : ℤ} {relativeDeadlinePs : Option ℤ}
    {priorityClass : ℤ} {dependsOn : List String} : Keeps none k
    (k.registerJob jobId workPs releasePs relativeDeadlinePs priorityClass dependsOn).2 := by
  unfold registerJob
  dsimp only
  split_ifs with hid hnew hwork hpast hdeadline hself hcycle hnow hsatisfied
  · exact .refl k
  · exact .refl k
  · exact .refl k
  · exact .refl k
  · exact .refl k
  · exact .refl k
  all_goals
    intro hk
    obtain ⟨hinserted, hgrows, hjob⟩ := hk.insertJob
      { jobId := jobId
        releasePs := releasePs
        deadlinePs := releasePs + relativeDeadlinePs.getD workPs
        workPs := workPs
        remainingPs := workPs
        state := .pending
        priorityClass := priorityClass
        relativeDeadlinePs := relativeDeadlinePs.getD workPs
        dependsOn := dependsOn } (Dict.contains_eq_false.mp (by simpa using hnew)) rfl
  · refine ⟨hinserted.settle fun _ _ _ => ?_, hgrows⟩
    exact .inr (.inr (detectCycle_sound hcycle))
  · subst hnow
    rcases hinserted.release hjob rfl (le_refl _) with ⟨_, k', hok, hk', hgrows'⟩ | ⟨hneither, _⟩
    · have hok : scheduleDispatch _ k.nowPs = .ok k' := hok
      rw [hok]
      exact ⟨hk', hgrows.trans hgrows'⟩
    · rw [hsatisfied] at hneither
      cases hneither
  · rcases hinserted.release hjob rfl hnow.le with ⟨hboth, _⟩ | ⟨_, hk'⟩
    · exact absurd hboth hsatisfied
    · exact ⟨hk', hgrows⟩
  · have hfuture : k.nowPs ≤ releasePs := by omega
    have hnonneg : 0 ≤ k.nowPs := hk.nonneg
    have hpushed := hinserted.insert .release (.release jobId) hfuture
      (fun a ha => ⟨_, (by cases ha; exact hjob), rfl⟩) (by simp)
    have hgrows' := hinserted.grows_insert releasePs .release (.release jobId)
    unfold EventQueue.push
    rw [if_neg (by omega)]
    refine ⟨hpushed.settle fun job hget _ => ?_, hgrows.trans hgrows'⟩
    cases hjob.symm.trans hget
    exact .inl ⟨_, hinserted.insert_live.mpr (.inl rfl), rfl, rfl⟩

/-! ### Runs -/

/-- An action that rejects no job. -/
def Action.RejectsNone : Action π → Prop
  | .call (.rejectJob _) => False
  | _ => True

private theorem keeps_after {r : Except Error (Kernel π)}
    (h : ∀ k', r = .ok k' → Keeps popped k k') : Keeps popped k (k.after r) := by
  cases r with
  | error _ => exact .refl k
  | ok k' => exact h k' rfl

private theorem keeps_schedule {timePs : ℤ} {phase : EventPhase} {payload : π} :
    Keeps none k (k.perform (.schedule timePs phase payload)) := by
  apply keeps_after
  intro k' hk'
  cases hschedule : k.schedule timePs phase (.client payload) with
  | error _ =>
    rw [hschedule] at hk'
    cases hk'
  | ok result =>
    obtain ⟨ev, k₁⟩ := result
    obtain ⟨htime, _, _, rfl⟩ := schedule_eq_ok.mp hschedule
    rw [hschedule] at hk'
    cases hk'
    exact fun hk => ⟨hk.insert _ _ htime (by simp) (by simp), hk.grows_insert _ _ _⟩

private theorem keeps_consumeWork {durationPs : ℤ} (hok : k.consumeWork jobId durationPs = .ok k') :
    Keeps popped k k' := by
  obtain ⟨job, hget, hok⟩ := bind_eq_ok.mp hok
  split_ifs at hok
  cases hok
  exact keeps_consume _

/-- An action keeps the invariant, and after popping an event it only grows the kernel. -/
theorem Dependable.act (h : Dependable k none) {action : Action π}
    (hrejects : action.RejectsNone) :
    Dependable (k.act action) none ∧
      ∃ k₁, k₁.jobs = k.jobs ∧ k₁.hasDispatchCallback = k.hasDispatchCallback ∧
        Grows k₁ (k.act action) := by
  cases action with
  | event => exact h.beginEvent
  | call call =>
    have hkeeps : Keeps none k (k.perform call) := by
      cases call with
      | registerJob => exact keeps_registerJob
      | rejectJob => exact absurd hrejects id
      | consumeWork => exact keeps_after fun _ => keeps_consumeWork
      | completeJob => exact keeps_after fun _ => keeps_completeJob (by simp)
      | startJob => exact keeps_startJob
      | schedule => exact keeps_schedule
    obtain ⟨hk', hgrows⟩ := hkeeps h
    exact ⟨hk', k, rfl, rfl, hgrows⟩

theorem dependable_initial (hasDispatchCallback : Bool) :
    Dependable (initial hasDispatchCallback : Kernel π) none := by
  constructor <;> simp [initial, EventQueue.empty, EventQueue.Live]

theorem dependable_run {hasDispatchCallback : Bool} {actions : List (Action π)}
    (h : ∀ action ∈ actions, action.RejectsNone) :
    Dependable ((initial hasDispatchCallback).run actions) none :=
  run_invariant (P := fun k => Dependable k none) (dependable_initial hasDispatchCallback)
    fun _ action hmem hk => (hk.act (h action hmem)).1

/-- A job is ready, running, or completed only after its release time and with its
dependencies completed. -/
def StartedInOrder (k : Kernel π) : Prop :=
  ∀ jobId job, k.jobs.get? jobId = some job →
    job.state = .ready ∨ job.state = .running ∨ job.state = .completed →
      job.releasePs ≤ k.nowPs ∧ ∀ d ∈ job.dependsOn, k.Completed d

/-- A pending job whose release event is no longer to come misses a dependency. -/
def NoneForgotten (k : Kernel π) : Prop :=
  ∀ jobId job, k.jobs.get? jobId = some job → job.state = .pending →
    (∀ e, k.queue.Live e → e.payload ≠ .release jobId) → ∃ d ∈ job.dependsOn, ¬k.Completed d

/-- A job that becomes ready finds a dispatch event at the same time, if there is a callback. -/
def WakesDispatcher (k k' : Kernel π) : Prop :=
  ∀ jobId job', k'.jobs.get? jobId = some job' → job'.state = .ready →
    (∀ job, k.jobs.get? jobId = some job → job.state ≠ .ready) →
      k'.hasDispatchCallback = true → k'.Scheduled .dispatch k'.nowPs

/-- In every run in which no job is rejected, jobs start in the order of their dependencies,
none of them is forgotten, and each that becomes ready wakes the dispatcher. -/
theorem dependency_safe (hasDispatchCallback : Bool) (actions : List (Action π))
    (hrejects : ∀ action ∈ actions, action.RejectsNone) :
    (∀ before rest, actions = before ++ rest →
      ((initial hasDispatchCallback).run before).StartedInOrder ∧
        ((initial hasDispatchCallback).run before).NoneForgotten) ∧
    ∀ before action rest, actions = before ++ action :: rest →
      WakesDispatcher ((initial hasDispatchCallback).run before)
        ((initial hasDispatchCallback).run (before ++ [action])) := by
  constructor
  · rintro before rest rfl
    have hk : Dependable ((initial hasDispatchCallback).run before) none :=
      dependable_run fun a ha => hrejects a (List.mem_append_left rest ha)
    constructor
    · intro jobId job hget hstate
      apply hk.started jobId job hget
      rcases hstate with hstate | hstate | hstate
      all_goals simp [hstate]
    · intro jobId job hget hpending hnone
      rcases hk.waiting jobId job hget hpending (by simp) with ⟨e, he, hpayload, _⟩ |
        ⟨_, hmissing⟩ | hcycle
      · exact absurd hpayload (hnone e he)
      · exact hmissing
      · exact hk.missing hget hpending hcycle
  · rintro before action rest rfl jobId job' hget hready hnot hcallback
    have hk : Dependable ((initial hasDispatchCallback).run before) none :=
      dependable_run fun a ha => hrejects a (List.mem_append_left _ ha)
    obtain ⟨_, k₁, hjobs, _, hgrows⟩ := hk.act (hrejects action (by simp))
    rw [run_append, run_singleton] at hget hcallback ⊢
    rcases hgrows.wakes jobId job' hget hready with ⟨job, hold, hstate⟩ | hnone | hdispatch
    · exact absurd hstate (hnot job (hjobs ▸ hold))
    · rw [hgrows.callback, hnone] at hcallback
      cases hcallback
    · exact hdispatch

/-- A job that depends on another one is released, waits for it, and is woken. -/
theorem dependency_safe_chain :
    ((initial true).run [Action.call (.registerJob "j1" 10 0 none 0 []),
        .call (.registerJob "j2" 10 5 none 0 ["j1"]), .event, .call (.startJob "j1"), .event,
        .call (.completeJob "j1"), (.event : Action Unit)]).StartedInOrder ∧
      ((initial true).run [Action.call (.registerJob "j1" 10 0 none 0 []),
        .call (.registerJob "j2" 10 5 none 0 ["j1"]), .event, .call (.startJob "j1"), .event,
        .call (.completeJob "j1"), (.event : Action Unit)]).NoneForgotten :=
  (dependency_safe true _ (by simp [Action.RejectsNone])).1 _ [] (List.append_nil _).symm

end Kernel

end NpuArc
