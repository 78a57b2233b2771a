import NpuArc.Scheduler.SerialRuns

/-!
# Registering jobs for the serial dispatcher

A kernel is created with its dispatch callback, the jobs are registered one after the other,
and the kernel runs until they are complete. Registration leaves the unit idle, at time zero,
with a release to come for every job that is not yet due.
-/

namespace NpuArc

open Kernel

/-- The arguments of `registerJob`. -/
structure JobSpec where
  jobId : String
  workPs : ℤ
  releasePs : ℤ
  relativeDeadlinePs : Option ℤ := none
  priorityClass : ℤ := 0
  dependsOn : List String := []

namespace JobSpec

/-- The call that registers a job. -/
def call (spec : JobSpec) : Call String :=
  .registerJob spec.jobId spec.workPs spec.releasePs spec.relativeDeadlinePs spec.priorityClass
    spec.dependsOn

/-- The handle of a new job. -/
def handle (spec : JobSpec) : JobHandle :=
  { jobId := spec.jobId
    releasePs := spec.releasePs
    deadlinePs := spec.releasePs + spec.relativeDeadlinePs.getD spec.workPs
    workPs := spec.workPs
    remainingPs := spec.workPs
    state := .pending
    priorityClass := spec.priorityClass
    relativeDeadlinePs := spec.relativeDeadlinePs.getD spec.workPs
    dependsOn := spec.dependsOn }

end JobSpec

/-- Register a job; an exception ends the program. -/
def registerSpec (k : Kernel String) (spec : JobSpec) : Except Error (Kernel String) :=
  match k.registerJob spec.jobId spec.workPs spec.releasePs spec.relativeDeadlinePs
      spec.priorityClass spec.dependsOn with
  | (.ok (), k') => .ok k'
  | (.error e, _) => .error e

/-- A program that creates a kernel with a serial dispatcher, registers jobs, and runs them to
completion. -/
def serialRun (choice : Choice) (specs : List JobSpec) (maxTimePs : ℤ) (maxEvents : ℕ) :
    Except Error (Kernel String) := do
  let k ← specs.foldlM registerSpec (Kernel.initial true)
  (serialClient choice).host.runUntilComplete maxTimePs maxEvents k

namespace Serial

variable {choice : Choice} {k k' : Kernel String} {spec : JobSpec} {specs done : List JobSpec}

/-- One of some jobs depends on another id. -/
def SpecDependsOn (specs : List JobSpec) (a b : String) : Prop :=
  ∃ spec ∈ specs, spec.jobId = a ∧ b ∈ spec.dependsOn

/-- Jobs with distinct ids, positive work, non-negative release times and deadlines, and acyclic
dependencies. -/
structure Registrable (specs : List JobSpec) : Prop where
  nodup : (specs.map (·.jobId)).Nodup
  named : ∀ spec ∈ specs, spec.jobId ≠ ""
  work : ∀ spec ∈ specs, 0 < spec.workPs
  release : ∀ spec ∈ specs, 0 ≤ spec.releasePs
  deadline : ∀ spec ∈ specs, ∀ deadline ∈ spec.relativeDeadlinePs, 0 ≤ deadline
  acyclic : ∀ a, ¬Relation.TransGen (SpecDependsOn specs) a a

/-- The jobs of the kernel are the registered ones, and every one of them is completed, once,
and after its dependencies. -/
structure CompletedInOrder (specs : List JobSpec) (k : Kernel String) : Prop where
  registered : ∀ a, a ∈ k.jobs.keys ↔ a ∈ specs.map (·.jobId)
  completed : AllCompleted k
  once : k.completed.Perm (specs.map (·.jobId))
  ordered : ∀ spec ∈ specs, ∀ before after, k.completed = before ++ spec.jobId :: after →
    ∀ d ∈ spec.dependsOn, d ∈ before

/-! ### One registration -/

/-- What the registration of a job leaves. -/
structure Registers (k : Kernel String) (spec : JobSpec) (k' : Kernel String) : Prop where
  act : k' = k.act (.call spec.call)
  now : k'.nowPs = k.nowPs
  callback : k'.hasDispatchCallback = true
  completed : k'.completed = k.completed
  keys : k'.jobs.keys = k.jobs.keys ++ [spec.jobId]
  total : k'.jobs.total stepsLeft = k.jobs.total stepsLeft + 2
  others : ∀ a, a ≠ spec.jobId → k'.jobs.get? a = k.jobs.get? a
  outcome : (k.nowPs < spec.releasePs ∧ k'.jobs.get? spec.jobId = some spec.handle ∧
      k'.queue = k.queue.insert spec.releasePs .release (.release spec.jobId) ∧
      k'.nextDispatchTime = k.nextDispatchTime) ∨
    spec.releasePs = k.nowPs ∧ k'.jobs.get? spec.jobId = some spec.handle ∧
      k'.queue = k.queue ∧ k'.nextDispatchTime = k.nextDispatchTime ∨
    spec.releasePs = k.nowPs ∧
      k'.jobs.get? spec.jobId = some { spec.handle with state := .ready } ∧
      k'.nextDispatchTime ≠ none ∧
      (k.nextDispatchTime ≠ none ∧ k'.queue = k.queue ∨
        k.nextDispatchTime = none ∧ k'.queue = k.queue.insert k.nowPs .dispatch .dispatch)

/-- What makes a pending job ready. -/
private theorem makeReady_spec {jobId : String} {job : JobHandle}
    (hget : k.jobs.get? jobId = some job) (hpending : job.state = .pending) :
    (k.makeReady jobId).jobs.keys = k.jobs.keys ∧
      (k.makeReady jobId).jobs.total stepsLeft = k.jobs.total stepsLeft ∧
      (k.makeReady jobId).jobs.get? jobId = some { job with state := .ready } ∧
      ∀ a, a ≠ jobId → (k.makeReady jobId).jobs.get? a = k.jobs.get? a := by
  have hkeys : (k.makeReady jobId).jobs.keys = k.jobs.keys := Dict.keys_modify _ _ _
  have hself : (k.makeReady jobId).jobs.get? jobId = some { job with state := .ready } := by
    simp [makeReady, modifyJob, hget, hpending]
  have hothers : ∀ a, a ≠ jobId → (k.makeReady jobId).jobs.get? a = k.jobs.get? a := by
    intro a ha
    simp [makeReady, modifyJob, ha]
  refine ⟨hkeys, Dict.total_congr hkeys fun a => ?_, hself, hothers⟩
  by_cases ha : a = jobId
  · rw [ha, hself, hget]
    simp [stepsLeft, hpending]
  · rw [hothers a ha]

/-- A request for a dispatch at the time of an earlier request is dropped. -/
private theorem scheduleDispatch_coalesced {t : ℤ} (hcallback : k.hasDispatchCallback = true)
    (hnext : k.nextDispatchTime = some t) : k.scheduleDispatch t = .ok k := by
  unfold scheduleDispatch
  rw [if_neg (by simp [hcallback]), if_pos (by simp [hnext])]

/-- A job that passes the checks of the arguments is registered. -/
theorem registerSpec_ok (spec : JobSpec) (hcallback : k.hasDispatchCallback = true) (hnow : 0 ≤ k.nowPs)
    (hnext : ∀ t, k.nextDispatchTime = some t → t = k.nowPs) (hnamed : spec.jobId ≠ "")
    (hnew : k.jobs.get? spec.jobId = none) (hwork : 0 < spec.workPs)
    (hrelease : k.nowPs ≤ spec.releasePs)
    (hdeadline : ∀ deadline ∈ spec.relativeDeadlinePs, 0 ≤ deadline)
    (hself : spec.jobId ∉ spec.dependsOn)
    (hacyclic : ¬Relation.TransGen
      ({ k with jobs := k.jobs.insert spec.jobId spec.handle } : Kernel String).DependsOn
      spec.jobId spec.jobId) :
    ∃ k', registerSpec k spec = .ok k' ∧ Registers k spec k' := by
  have hkeys : (k.jobs.insert spec.jobId spec.handle).keys = k.jobs.keys ++ [spec.jobId] :=
    Dict.keys_insert_of_not_mem _ (Dict.not_mem_keys.mpr hnew)
  have htotal : (k.jobs.insert spec.jobId spec.handle).total stepsLeft =
      k.jobs.total stepsLeft + 2 := Dict.total_insert hnew
  have hget : (k.jobs.insert spec.jobId spec.handle).get? spec.jobId = some spec.handle := by
    rw [Dict.get?_insert, if_pos rfl]
  have hothers : ∀ a, a ≠ spec.jobId →
      (k.jobs.insert spec.jobId spec.handle).get? a = k.jobs.get? a := by
    intro a ha
    rw [Dict.get?_insert, if_neg ha]
  have hact : ∀ k', k.registerJob spec.jobId spec.workPs spec.releasePs spec.relativeDeadlinePs
      spec.priorityClass spec.dependsOn = (.ok (), k') → k' = k.act (.call spec.call) :=
    fun k' h => (congrArg Prod.snd h).symm
  suffices h : ∃ k', k.registerJob spec.jobId spec.workPs spec.releasePs spec.relativeDeadlinePs
      spec.priorityClass spec.dependsOn = (.ok (), k') ∧ (k' = k.act (.call spec.call) →
        Registers k spec k') by
    obtain ⟨k', hregister, h⟩ := h
    refine ⟨k', ?_, h (hact k' hregister)⟩
    unfold registerSpec
    rw [hregister]
  have hdeadline : ¬spec.relativeDeadlinePs.getD spec.workPs < 0 := by
    cases hcase : spec.relativeDeadlinePs with
    | none => exact not_lt.mpr hwork.le
    | some deadline => exact not_lt.mpr (hdeadline deadline hcase)
  generalize hk₁ : ({ k with jobs := k.jobs.insert spec.jobId spec.handle } : Kernel String) = k₁
    at hacyclic
  have hjobs₁ : k₁.jobs = k.jobs.insert spec.jobId spec.handle := hk₁ ▸ rfl
  have hnow₁ : k₁.nowPs = k.nowPs := hk₁ ▸ rfl
  have hcallback₁ : k₁.hasDispatchCallback = true := hk₁ ▸ hcallback
  have hqueue₁ : k₁.queue = k.queue := hk₁ ▸ rfl
  have hnext₁ : k₁.nextDispatchTime = k.nextDispatchTime := hk₁ ▸ rfl
  have hcompleted₁ : k₁.completed = k.completed := hk₁ ▸ rfl
  have hchecked := registerJob_eq hnamed (Dict.contains_eq_false.mpr hnew) (by omega) (by omega)
    hdeadline hself (show spec.handle = _ from rfl) hk₁.symm fun h => hacyclic (detectCycle_sound h)
  rw [hchecked]
  by_cases hdue : spec.releasePs = k₁.nowPs
  · have hdue' : spec.releasePs = k.nowPs := hdue.trans hnow₁
    rw [if_pos hdue]
    by_cases hsatisfied : k₁.dependenciesSatisfied spec.handle = true
    · rw [if_pos hsatisfied, hdue]
      have hget₁ : k₁.jobs.get? spec.jobId = some spec.handle := hjobs₁ ▸ hget
      obtain ⟨hkeys₂, htotal₂, hget₂, hothers₂⟩ := makeReady_spec hget₁ rfl
      have hregisters : ∀ k', k'.jobs = (k₁.makeReady spec.jobId).jobs → k'.nowPs = k₁.nowPs →
          k'.hasDispatchCallback = true → k'.completed = k₁.completed → k'.nextDispatchTime ≠ none →
          (k.nextDispatchTime ≠ none ∧ k'.queue = k.queue ∨ k.nextDispatchTime = none ∧
            k'.queue = k.queue.insert k.nowPs .dispatch .dispatch) →
          k' = k.act (.call spec.call) → Registers k spec k' := by
        intro k' hjobs hnow' hcallback' hcompleted' hnext' hqueue' hact'
        exact {
          act := hact'
          now := hnow'.trans hnow₁
          callback := hcallback'
          completed := hcompleted'.trans hcompleted₁
          keys := by rw [hjobs, hkeys₂, hjobs₁, hkeys]
          total := by rw [hjobs, htotal₂, hjobs₁, htotal]
          others := fun a ha => by rw [hjobs, hothers₂ a ha, hjobs₁, hothers a ha]
          outcome := .inr (.inr ⟨hdue', by rw [hjobs, hget₂], hnext', hqueue'⟩) }
      cases hcase : k.nextDispatchTime with
      | none =>
        have hdispatch : (k₁.makeReady spec.jobId).scheduleDispatch k₁.nowPs =
            .ok (withDispatch (k₁.makeReady spec.jobId)) :=
          scheduleDispatch_eq (k := k₁.makeReady spec.jobId) hcallback₁ (hnext₁.trans hcase)
            (hnow₁.symm ▸ hnow)
        rw [hdispatch]
        refine ⟨_, rfl, hregisters _ rfl rfl hcallback₁ rfl (by simp [withDispatch]) ?_⟩
        right
        refine ⟨hcase, ?_⟩
        rw [← hqueue₁, ← hnow₁]
        rfl
      | some t =>
        have hcoalesced : (k₁.makeReady spec.jobId).scheduleDispatch k₁.nowPs =
            .ok (k₁.makeReady spec.jobId) := by
          apply scheduleDispatch_coalesced (k := k₁.makeReady spec.jobId) hcallback₁
          rw [show (k₁.makeReady spec.jobId).nextDispatchTime = some t from hnext₁.trans hcase,
            hnext t hcase, hnow₁]
        rw [hcoalesced]
        exact ⟨_, rfl, hregisters _ rfl rfl hcallback₁ rfl (by simp [makeReady, modifyJob, hnext₁, hcase])
          (.inl ⟨by simp [hcase], hqueue₁⟩)⟩
    · rw [if_neg hsatisfied]
      refine ⟨k₁, rfl, fun hact => ?_⟩
      exact {
        act := hact
        now := hnow₁
        callback := hcallback₁
        completed := hcompleted₁
        keys := by rw [hjobs₁, hkeys]
        total := by rw [hjobs₁, htotal]
        others := by rw [hjobs₁]; exact hothers
        outcome := .inr (.inl ⟨hdue', by rw [hjobs₁, hget], hqueue₁, hnext₁⟩) }
  · have hlater : k.nowPs < spec.releasePs := by omega
    have hpush : k₁.queue.push spec.releasePs .release (.release spec.jobId) =
        .ok (⟨spec.releasePs, .release, k.queue.seq, .release spec.jobId⟩,
          k.queue.insert spec.releasePs .release (.release spec.jobId)) := by
      unfold EventQueue.push
      rw [if_neg (by omega), hqueue₁]
    rw [if_neg hdue, hpush]
    refine ⟨_, rfl, fun hact => ?_⟩
    exact {
      act := hact
      now := hnow₁
      callback := hcallback₁
      completed := hcompleted₁
      keys := by rw [hjobs₁, hkeys]
      total := by rw [hjobs₁, htotal]
      others := by rw [hjobs₁]; exact hothers
      outcome := .inl ⟨hlater, by rw [hjobs₁, hget], rfl, hnext₁⟩ }

/-- A registered job is an old one or the new one, which is pending or ready. -/
theorem Registers.get (hr : Registers k spec k') {a : String} {job : JobHandle}
    (hget : k'.jobs.get? a = some job) : (a ≠ spec.jobId ∧ k.jobs.get? a = some job) ∨
      a = spec.jobId ∧ job.jobId = spec.jobId ∧ job.workPs = spec.workPs ∧
        job.remainingPs = spec.workPs ∧ job.dependsOn = spec.dependsOn ∧
        (job.state = .pending ∨ job.state = .ready) := by
  by_cases ha : a = spec.jobId
  · right
    rw [ha] at hget
    refine ⟨ha, ?_⟩
    rcases hr.outcome with ⟨_, hnew, _⟩ | ⟨_, hnew, _⟩ | ⟨_, hnew, _⟩
    · cases hnew.symm.trans hget
      exact ⟨rfl, rfl, rfl, rfl, .inl rfl⟩
    · cases hnew.symm.trans hget
      exact ⟨rfl, rfl, rfl, rfl, .inl rfl⟩
    · cases hnew.symm.trans hget
      exact ⟨rfl, rfl, rfl, rfl, .inr rfl⟩
  · left
    rw [hr.others a ha] at hget
    exact ⟨ha, hget⟩

/-- The events of the queue after a registration. -/
theorem Registers.live (hr : Registers k spec k') (hcancelled : k.queue.cancelled = [])
    {e : Event (KernelPayload String)} (he : k'.queue.Live e) : k.queue.Live e ∨
      e = ⟨spec.releasePs, .release, k.queue.seq, .release spec.jobId⟩ ∨
      k.nextDispatchTime = none ∧ k'.nextDispatchTime ≠ none ∧
        e = ⟨k.nowPs, .dispatch, k.queue.seq, .dispatch⟩ := by
  rcases hr.outcome with ⟨_, _, hqueue, _⟩ | ⟨_, _, hqueue, _⟩ |
    ⟨_, _, hrequested, ⟨_, hqueue⟩ | ⟨hnext, hqueue⟩⟩
  · rw [hqueue, insert_live_iff hcancelled] at he
    rcases he with rfl | he
    · exact .inr (.inl rfl)
    · exact .inl he
  · exact .inl (hqueue ▸ he)
  · exact .inl (hqueue ▸ he)
  · rw [hqueue, insert_live_iff hcancelled] at he
    rcases he with rfl | he
    · exact .inr (.inr ⟨hnext, hrequested, rfl⟩)
    · exact .inl he

/-- The jobs registered so far are the only ones in the kernel, at time zero, and none of them
has been started. -/
structure Registered (done : List JobSpec) (k : Kernel String) : Prop where
  invariant : Invariant k
  now : k.nowPs = 0
  untouched : ∀ a job, k.jobs.get? a = some job → job.state = .pending ∨ job.state = .ready
  completed : k.completed = []
  keys : k.jobs.keys = done.map (·.jobId)
  jobs : ∀ spec ∈ done, ∃ job, k.jobs.get? spec.jobId = some job ∧ job.dependsOn = spec.dependsOn
  rounds : roundsLeft k =
    (done.filter fun spec => decide (0 < spec.releasePs)).length + 2 * done.length

theorem Registered.idle (h : Registered done k) : Idle k := by
  rcases h.invariant.mode with hidle | ⟨jobId, job, e, hbusy⟩
  · exact hidle
  · have hrunning := hbusy.running
    rcases h.untouched jobId job hbusy.get with hstate | hstate
    · rw [hrunning] at hstate
      cases hstate
    · rw [hrunning] at hstate
      cases hstate

theorem Registers.untouched (hr : Registers k spec k') (h : Registered done k) {a : String}
    {job : JobHandle} (hget : k'.jobs.get? a = some job) :
    job.state = .pending ∨ job.state = .ready := by
  rcases hr.get hget with ⟨_, hold⟩ | ⟨_, _, _, _, _, hstate⟩
  · exact h.untouched a job hold
  · exact hstate

/-- A registration leaves the unit idle. -/
theorem Registers.idle (hr : Registers k spec k') (h : Registered done k)
    (hnew : k.jobs.get? spec.jobId = none) : Idle k' := by
  have hidle := h.idle
  constructor
  · intro a job hget hrunning
    rcases hr.untouched h hget with hstate | hstate
    · rw [hrunning] at hstate
      cases hstate
    · rw [hrunning] at hstate
      cases hstate
  · intro e a he
    rcases hr.live h.invariant.dependable.uncancelled he with he | rfl | ⟨_, _, rfl⟩
    · exact hidle.quiet e a he
    · exact nofun
    · exact nofun
  · have hkept : ∀ a job, k.jobs.get? a = some job → k'.jobs.get? a = some job := by
      intro a job hget
      rw [hr.others a, hget]
      rintro rfl
      cases hnew.symm.trans hget
    have hpending : k'.jobs.get? spec.jobId = some spec.handle →
        k'.nextDispatchTime = k.nextDispatchTime → (k'.nextDispatchTime ≠ none ↔
          ∃ a job, k'.jobs.get? a = some job ∧ job.state = .ready) := by
      intro hself hnext
      rw [hnext, hidle.ready]
      constructor
      · rintro ⟨a, job, hget, hready⟩
        exact ⟨a, job, hkept a job hget, hready⟩
      · rintro ⟨a, job, hget, hready⟩
        rcases hr.get hget with ⟨_, hold⟩ | ⟨rfl, _⟩
        · exact ⟨a, job, hold, hready⟩
        · cases hself.symm.trans hget
          cases hready
    rcases hr.outcome with ⟨_, hself, _, hnext⟩ | ⟨_, hself, _, hnext⟩ | ⟨_, hself, hnext, _⟩
    · exact hpending hself hnext
    · exact hpending hself hnext
    · exact iff_of_true hnext ⟨_, _, hself, rfl⟩

/-- A registration keeps the invariant. -/
theorem Registers.invariant (hr : Registers k spec k') (h : Registered done k)
    (hnew : k.jobs.get? spec.jobId = none) (hwork : 0 < spec.workPs) : Invariant k' := by
  have hk := h.invariant
  have hcancelled := hk.dependable.uncancelled
  have hbase := base_act hk.dependable hk.lifecycle (.call spec.call) trivial trivial
  rw [← hr.act] at hbase
  constructor
  · exact hbase.1
  · exact hbase.2
  · exact hr.callback
  · intro a job hget
    refine ⟨?_, ?_, ?_⟩
    · rcases hr.get hget with ⟨_, hold⟩ | ⟨rfl, hid, _⟩
      · exact (hk.known a job hold).1
      · exact hid
    · rcases hr.get hget with ⟨_, hold⟩ | ⟨_, _, hwork', _⟩
      · exact (hk.known a job hold).2.1
      · omega
    · intro hrejected
      rcases hr.untouched h hget with hstate | hstate
      · rw [hrejected] at hstate
        cases hstate
      · rw [hrejected] at hstate
        cases hstate
  · intro a job hget hstate
    rcases hr.get hget with ⟨_, hold⟩ | ⟨_, _, hwork', hremaining, _⟩
    · exact hk.fresh a job hold hstate
    · omega
  · intro e he
    rcases hr.live hcancelled he with he | rfl | ⟨_, _, rfl⟩
    · exact hk.phased e he
    · rfl
    · rfl
  · exact fun _ _ _ _ _ hget => hr.untouched h hget
  · intro e he hpayload
    rcases hr.live hcancelled he with he | rfl | ⟨_, hrequested, _⟩
    · have hnext := hk.requested e he hpayload
      rcases hr.outcome with ⟨_, _, _, hsame⟩ | ⟨_, _, _, hsame⟩ | ⟨_, _, hrequested, _⟩
      · rwa [hsame]
      · rwa [hsame]
      · exact hrequested
    · cases hpayload
    · exact hrequested
  · intro e e' he he' hpayload hpayload'
    rcases hr.live hcancelled he with he | rfl | ⟨hnone, _, rfl⟩
    · rcases hr.live hcancelled he' with he' | rfl | ⟨hnone, _, rfl⟩
      · exact hk.single e e' he he' hpayload hpayload'
      · cases hpayload'
      · exact absurd hnone (hk.requested e he hpayload)
    · cases hpayload
    · rcases hr.live hcancelled he' with he' | rfl | ⟨_, _, rfl⟩
      · exact absurd hnone (hk.requested e' he' hpayload')
      · cases hpayload'
      · rfl
  · intro before a after job hcompleted
    rw [hr.completed, h.completed] at hcompleted
    simp at hcompleted
  · exact .inl (hr.idle h hnew)

/-- The rounds that a new job adds. -/
theorem Registers.rounds (hr : Registers k spec k') (hnow : k.nowPs = 0) : roundsLeft k' =
    roundsLeft k + (if 0 < spec.releasePs then 1 else 0) + 2 := by
  have hreleases : (k'.queue.heap.filter isRelease).length =
      (k.queue.heap.filter isRelease).length + if 0 < spec.releasePs then 1 else 0 := by
    rcases hr.outcome with ⟨hlater, _, hqueue, _⟩ | ⟨hdue, _, hqueue, _⟩ |
      ⟨hdue, _, _, ⟨_, hqueue⟩ | ⟨_, hqueue⟩⟩
    · rw [hqueue, if_pos (by omega)]
      have hperm : (k.queue.insert spec.releasePs .release (.release spec.jobId)).heap.Perm
          (⟨spec.releasePs, .release, k.queue.seq, .release spec.jobId⟩ :: k.queue.heap) :=
        List.perm_orderedInsert _ _ _
      rw [(hperm.filter isRelease).length_eq, List.filter_cons_of_pos rfl, List.length_cons]
    · rw [hqueue, if_neg (by omega)]
      omega
    · rw [hqueue, if_neg (by omega)]
      omega
    · rw [hqueue, if_neg (by omega), releases_insert (by simp)]
      omega
  have htotal := hr.total
  unfold roundsLeft
  omega

/-! ### All registrations -/

theorem registered_initial : Registered [] (Kernel.initial true) := by
  have hnone : ∀ a job, ¬(Kernel.initial true : Kernel String).jobs.get? a = some job := by
    intro a job hget
    cases hget
  have hquiet : ∀ e, ¬(Kernel.initial true : Kernel String).queue.Live e :=
    fun e he => List.not_mem_nil he.1
  constructor
  · constructor
    · exact dependable_initial true
    · exact lifecycle_initial true
    · rfl
    · exact fun a job hget => absurd hget (hnone a job)
    · exact fun a job hget => absurd hget (hnone a job)
    · exact fun e he => absurd he (hquiet e)
    · exact fun e _ _ he => absurd he (hquiet e)
    · exact fun e he => absurd he (hquiet e)
    · exact fun e _ he => absurd he (hquiet e)
    · exact fun _ _ _ job _ hget => absurd hget (hnone _ job)
    · left
      constructor
      · exact fun a job hget => absurd hget (hnone a job)
      · exact fun e _ he => absurd he (hquiet e)
      · apply iff_of_false (by simp [Kernel.initial])
        rintro ⟨a, job, hget, _⟩
        exact hnone a job hget
  · rfl
  · exact fun a job hget => absurd hget (hnone a job)
  · rfl
  · rfl
  · intro spec hspec
    cases hspec
  · rfl

/-- The dependencies in the kernel are those of the registered jobs. -/
theorem Registered.dependsOn_iff (h : Registered done k) {a b : String} :
    k.DependsOn a b ↔ SpecDependsOn done a b := by
  constructor
  · rintro ⟨job, hget, hmem⟩
    have ha : a ∈ done.map (·.jobId) := h.keys ▸ Dict.mem_keys.mpr ⟨job, hget⟩
    obtain ⟨spec, hspec, rfl⟩ := List.mem_map.mp ha
    obtain ⟨job', hget', hdeps⟩ := h.jobs spec hspec
    cases hget.symm.trans hget'
    exact ⟨spec, hspec, rfl, hdeps ▸ hmem⟩
  · rintro ⟨spec, hspec, rfl, hmem⟩
    obtain ⟨job, hget, hdeps⟩ := h.jobs spec hspec
    exact ⟨job, hget, hdeps ▸ hmem⟩

theorem SpecDependsOn.mono {specs' : List JobSpec} (hsub : specs ⊆ specs') {a b : String}
    (h : SpecDependsOn specs a b) : SpecDependsOn specs' a b := by
  obtain ⟨spec, hspec, hid, hmem⟩ := h
  exact ⟨spec, hsub hspec, hid, hmem⟩

/-- One more job is registered. -/
theorem Registered.register (h : Registered done k) (hspecs : Registrable (done ++ spec :: specs)) :
    ∃ k', registerSpec k spec = .ok k' ∧ Registered (done ++ [spec]) k' := by
  have hmem : spec ∈ done ++ spec :: specs := by simp
  have hfresh : spec.jobId ∉ done.map (·.jobId) := by
    have hnodup := hspecs.nodup
    rw [List.map_append, List.map_cons, List.nodup_append] at hnodup
    exact fun hdone => hnodup.2.2 _ hdone _ List.mem_cons_self rfl
  have hnew : k.jobs.get? spec.jobId = none := Dict.not_mem_keys.mp (h.keys ▸ hfresh)
  have hrelease := hspecs.release spec hmem
  have hnow := h.now
  have hdepends : ∀ a b,
      ({ k with jobs := k.jobs.insert spec.jobId spec.handle } : Kernel String).DependsOn a b →
        SpecDependsOn (done ++ spec :: specs) a b := by
    rintro a b ⟨job, hget, hb⟩
    have hget : (k.jobs.insert spec.jobId spec.handle).get? a = some job := hget
    rw [Dict.get?_insert] at hget
    split_ifs at hget with ha
    · cases hget
      exact ⟨spec, hmem, ha.symm, hb⟩
    · exact (h.dependsOn_iff.mp ⟨job, hget, hb⟩).mono (by simp)
  obtain ⟨k', hok, hr⟩ := registerSpec_ok spec h.invariant.callback hnow.ge
    (fun t ht => (h.invariant.dependable.dispatching t ht (by simp)).1) (hspecs.named spec hmem) hnew
    (hspecs.work spec hmem) (by omega) (hspecs.deadline spec hmem)
    (fun hself => hspecs.acyclic _ (.single ⟨spec, hmem, rfl, hself⟩))
    (fun hcycle => hspecs.acyclic _ (Relation.TransGen.mono hdepends _ _ hcycle))
  refine ⟨k', hok, ?_⟩
  constructor
  · exact hr.invariant h hnew (hspecs.work spec hmem)
  · rw [hr.now, hnow]
  · exact fun _ _ hget => hr.untouched h hget
  · rw [hr.completed, h.completed]
  · rw [hr.keys, h.keys, List.map_append]
    rfl
  · intro spec' hspec'
    rcases List.mem_append.mp hspec' with hdone | hlast
    · obtain ⟨job, hget, hdeps⟩ := h.jobs spec' hdone
      refine ⟨job, ?_, hdeps⟩
      rw [hr.others, hget]
      intro heq
      exact hfresh (heq ▸ List.mem_map_of_mem hdone)
    · obtain rfl := List.mem_singleton.mp hlast
      rcases hr.outcome with ⟨_, hself, _⟩ | ⟨_, hself, _⟩ | ⟨_, hself, _⟩
      · exact ⟨_, hself, rfl⟩
      · exact ⟨_, hself, rfl⟩
      · exact ⟨_, hself, rfl⟩
  · have hrounds := h.rounds
    rw [hr.rounds hnow, List.filter_append, List.length_append, List.length_append]
    by_cases hlater : 0 < spec.releasePs
    · simp [hlater]
      omega
    · simp [hlater]
      omega

/-- All jobs are registered. -/
theorem Registered.registerAll (h : Registered done k) (specs : List JobSpec) (hspecs : Registrable (done ++ specs)) :
    ∃ k', specs.foldlM registerSpec k = .ok k' ∧ Registered (done ++ specs) k' := by
  induction specs generalizing done k with
  | nil =>
    rw [List.append_nil]
    exact ⟨k, rfl, h⟩
  | cons spec specs ih =>
    obtain ⟨k₁, hok, h₁⟩ := h.register hspecs
    have hsplit : done ++ spec :: specs = (done ++ [spec]) ++ specs := by simp
    rw [hsplit] at hspecs ⊢
    obtain ⟨k', hrest, h'⟩ := ih h₁ hspecs
    refine ⟨k', ?_, h'⟩
    rw [List.foldlM_cons, hok]
    exact hrest

/-! ### The run -/

/-- The steps of a run that completes some jobs: the releases that are still to come, and a
dispatch and a completion for each job. -/
def roundsNeeded (specs : List JobSpec) : ℕ :=
  (specs.filter fun spec => decide (0 < spec.releasePs)).length + 2 * specs.length

/-- Every dependency is registered. -/
def DependenciesGiven (specs : List JobSpec) : Prop :=
  ∀ spec ∈ specs, ∀ d ∈ spec.dependsOn, d ∈ specs.map (·.jobId)

instance : Decidable (DependenciesGiven specs) :=
  inferInstanceAs (Decidable (∀ spec ∈ specs, ∀ d ∈ spec.dependsOn, d ∈ specs.map (·.jobId)))

theorem Registered.closed_iff (h : Registered specs k) : Closed k ↔ DependenciesGiven specs := by
  have hjob : ∀ d, (∃ job, k.jobs.get? d = some job) ↔ d ∈ specs.map (·.jobId) := by
    intro d
    rw [← h.keys]
    exact Dict.mem_keys.symm
  constructor
  · intro hclosed spec hspec d hd
    exact (hjob d).mp (hclosed spec.jobId d (h.dependsOn_iff.mpr ⟨spec, hspec, rfl, hd⟩))
  · intro hgiven a d hdepends
    obtain ⟨spec, hspec, _, hd⟩ := h.dependsOn_iff.mp hdepends
    exact (hjob d).mpr (hgiven spec hspec d hd)

/-- After a run of registered jobs they are completed in order as soon as all are completed. -/
theorem completedInOrder_iff (hspecs : Registrable specs) (h : Registered specs k)
    (h' : Invariant k') (hsame : SameJobs k k') : CompletedInOrder specs k' ↔ AllCompleted k' := by
  have hids : ∀ a, (∃ job, k'.jobs.get? a = some job) ↔ a ∈ specs.map (·.jobId) := by
    intro a
    rw [hsame.exists_iff, ← h.keys]
    exact Dict.mem_keys.symm
  constructor
  · exact fun hdone => hdone.completed
  · intro hall
    constructor
    · exact fun a => Dict.mem_keys.trans (hids a)
    · exact hall
    · apply (List.perm_ext_iff_of_nodup h'.lifecycle.completed_nodup hspecs.nodup).mpr
      intro a
      rw [h'.lifecycle.completed_iff, ← hids]
      constructor
      · rintro ⟨job, hget, _⟩
        exact ⟨job, hget⟩
      · rintro ⟨job, hget⟩
        exact ⟨job, hget, hall a job hget⟩
    · intro spec hspec before after hsplit d hd
      obtain ⟨job', hget'⟩ := (hids spec.jobId).mpr (List.mem_map_of_mem hspec)
      obtain ⟨job, hget, hdeps⟩ := h.jobs spec hspec
      have hdeps' := hsame spec.jobId
      rw [hget, hget', Option.map_some, Option.map_some, Option.some.injEq] at hdeps'
      apply h'.ordered before spec.jobId after job' hsplit hget'
      rw [hdeps', hdeps]
      exact hd

end Serial

open Serial in
/-- A serial dispatcher completes all jobs, each once and after its dependencies, exactly if
every dependency is registered, the limits of the run leave room for it, and no release
disturbs the dispatcher. -/
theorem serial_completes_iff (choice : Choice) (specs : List JobSpec) (maxTimePs : ℤ)
    (maxEvents : ℕ) (hspecs : Registrable specs) :
    (∃ k, serialRun choice specs maxTimePs maxEvents = .ok k ∧ CompletedInOrder specs k) ↔
      DependenciesGiven specs ∧ roundsNeeded specs ≤ maxEvents ∧
        ∀ m k, serialRun choice specs maxTimePs m = .ok k → Safe maxTimePs k := by
  obtain ⟨k, hregister, h⟩ := registered_initial.registerAll specs hspecs
  have h : Registered specs k := h
  have hrun : ∀ m, serialRun choice specs maxTimePs m =
      (serialClient choice).host.runUntilComplete maxTimePs m k := by
    intro m
    unfold serialRun
    rw [hregister, bind_eq_ok_left]
  have hacyclic : Acyclic k := fun a hcycle =>
    hspecs.acyclic a (Relation.TransGen.mono (fun _ _ => h.dependsOn_iff.mp) _ _ hcycle)
  have hrounds : roundsLeft k = roundsNeeded specs := h.rounds
  rw [← h.closed_iff, ← hrounds]
  simp only [hrun]
  constructor
  · rintro ⟨k', hok, hdone⟩
    obtain ⟨henough, h', hsame, hsafe⟩ := h.invariant.safe_of_completes hok hdone.completed
    refine ⟨?_, henough, hsafe⟩
    apply hsame.closed.mp
    rintro a d ⟨job, hget, hd⟩
    have hstate := hdone.completed a job hget
    obtain ⟨dep, hdep, _⟩ := (h'.dependable.started a job hget (by simp [hstate])).2 d hd
    exact ⟨dep, hdep⟩
  · rintro ⟨hclosed, henough, hsafe⟩
    obtain ⟨k', hok, hall, h', hsame⟩ := h.invariant.completes hacyclic hclosed henough hsafe
    exact ⟨k', hok, (completedInOrder_iff hspecs h h' hsame).mpr hall⟩

/-- Choose the ready job with the smallest id. -/
def firstReady : Choice where
  pick _ ready := ready.headD ⟨"", 0, 0, 0, 0, .pending, 0, 0, []⟩
  pick_mem _ ready h := by
    cases ready with
    | nil => exact absurd rfl h
    | cons job ready => exact List.mem_cons_self

/-- A job that is released while the unit is busy with the job that it depends on. -/
def follower : List JobSpec :=
  [{ jobId := "a", workPs := 2, releasePs := 0 },
    { jobId := "b", workPs := 3, releasePs := 1, dependsOn := ["a"] }]

/-- Two jobs that are released at the same time. -/
def twins : List JobSpec :=
  [{ jobId := "a", workPs := 2, releasePs := 5 }, { jobId := "b", workPs := 3, releasePs := 5 }]

namespace Serial

private theorem acyclic_of_lt {specs : List JobSpec}
    (hlt : ∀ spec ∈ specs, ∀ d ∈ spec.dependsOn, d < spec.jobId) (a : String) :
    ¬Relation.TransGen (SpecDependsOn specs) a a := by
  have hless : ∀ b, Relation.TransGen (SpecDependsOn specs) a b → b < a := by
    intro b hpath
    induction hpath with
    | single hstep =>
      obtain ⟨spec, hspec, rfl, hd⟩ := hstep
      exact hlt spec hspec _ hd
    | tail _ hstep ih =>
      obtain ⟨spec, hspec, rfl, hd⟩ := hstep
      exact String.lt_trans (hlt spec hspec _ hd) ih
  exact fun hcycle => String.lt_irrefl a (hless a hcycle)

private theorem registrable_follower : Registrable follower where
  nodup := by decide
  named := by decide
  work := by decide
  release := by decide
  deadline := by simp [follower]
  acyclic := acyclic_of_lt (by decide)

private theorem registrable_twins : Registrable twins where
  nodup := by decide
  named := by decide
  work := by decide
  release := by decide
  deadline := by simp [twins]
  acyclic := acyclic_of_lt (by decide)

end Serial

open Serial in
/-- Both jobs are completed, so the release of the second one disturbs nothing. -/
theorem serial_completes_iff_follower :
    (∃ k, serialRun firstReady follower (10 ^ 18) 1000000 = .ok k ∧ CompletedInOrder follower k) ∧
      ∀ m k, serialRun firstReady follower (10 ^ 18) m = .ok k → Safe (10 ^ 18) k := by
  have hrun : (serialRun firstReady follower (10 ^ 18) 1000000).toOption.map (fun k =>
      (k.completed, k.jobs.keys, k.jobs.values.map (·.state))) =
        some (["a", "b"], ["a", "b"], [.completed, .completed]) := by decide +kernel
  rw [Option.map_eq_some_iff] at hrun
  obtain ⟨k, hok, hfinal⟩ := hrun
  have hok : serialRun firstReady follower (10 ^ 18) 1000000 = .ok k := by
    cases hcase : serialRun firstReady follower (10 ^ 18) 1000000 with
    | error e =>
      rw [hcase] at hok
      cases hok
    | ok k' =>
      rw [hcase] at hok
      cases hok
      rfl
  simp only [Prod.mk.injEq] at hfinal
  obtain ⟨hcompleted, hkeys, hstates⟩ := hfinal
  have hdone : CompletedInOrder follower k := by
    constructor
    · intro a
      rw [hkeys]
      rfl
    · intro a job hget
      have hmem : job.state ∈ [JobState.completed, .completed] :=
        hstates ▸ List.mem_map_of_mem (Dict.mem_values.mpr ⟨a, hget⟩)
      simpa using hmem
    · rw [hcompleted]
      rfl
    · intro spec hspec before after hsplit d hd
      rcases List.mem_pair.mp hspec with rfl | rfl
      · cases hd
      · obtain rfl := List.mem_singleton.mp hd
        rw [hcompleted] at hsplit
        cases before with
        | nil => simp at hsplit
        | cons first before =>
          obtain ⟨rfl, _⟩ := List.cons.inj hsplit
          exact List.mem_cons_self
  exact ⟨⟨k, hok, hdone⟩,
    ((serial_completes_iff firstReady follower _ _ registrable_follower).mp ⟨k, hok, hdone⟩).2.2⟩

open Serial in
/-- The second of two releases at one instant is taken for a livelock. -/
theorem twins_fail : Registrable twins ∧ DependenciesGiven twins ∧
    ∃ e, serialRun firstReady twins (10 ^ 18) 1000000 = .error e ∧ e.isSchedulerError = true := by
  refine ⟨registrable_twins, by decide, ?_⟩
  have hrun : (match serialRun firstReady twins (10 ^ 18) 1000000 with
      | .error e => e.isSchedulerError
      | .ok _ => false) = true := by decide +kernel
  cases hcase : serialRun firstReady twins (10 ^ 18) 1000000 with
  | error e =>
    rw [hcase] at hrun
    exact ⟨e, rfl, hrun⟩
  | ok k =>
    rw [hcase] at hrun
    cases hrun

end NpuArc
