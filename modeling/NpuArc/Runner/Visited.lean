import Mathlib.Logic.Relation
import NpuArc.Runner.Steps

/-!
# Visited states

`Step` lists the elementary steps that the runner takes inside and between events, each
with the guard under which it takes them, and `Visited` closes the initial state under
these steps. Invariants are proved for visited states, so that they hold in the middle of
a dispatch pass as well as between two events.
-/

namespace NpuArc

namespace Runner

variable {c : CompiledScenario} {s s' : RunnerState}

/-! ### Moves -/

/-- Whether an action starts, preempts, or completes a given job. -/
def IsMove (jobId : String) (a : Action) : Prop :=
  a = .start jobId ∨ a = .preempt jobId ∨ a = .complete jobId

instance (jobId : String) (a : Action) : Decidable (IsMove jobId a) :=
  inferInstanceAs (Decidable (_ ∨ _))

/-- The most recent move of a job. -/
def lastMove (jobId : String) : List (Action × RunnerCore) → Option Action
  | [] => none
  | (a, _) :: older => if IsMove jobId a then some a else lastMove jobId older

@[simp] theorem lastMove_nil (jobId : String) : lastMove jobId [] = none := rfl

@[simp] theorem lastMove_start (a jobId : String) (t : RunnerCore)
    (h : List (Action × RunnerCore)) : lastMove a ((.start jobId, t) :: h) =
      if a = jobId then some (.start jobId) else lastMove a h := by
  by_cases ha : a = jobId
  · simp [lastMove, IsMove, ha]
  · simp [lastMove, IsMove, ha, Ne.symm ha]

@[simp] theorem lastMove_preempt (a jobId : String) (t : RunnerCore)
    (h : List (Action × RunnerCore)) : lastMove a ((.preempt jobId, t) :: h) =
      if a = jobId then some (.preempt jobId) else lastMove a h := by
  by_cases ha : a = jobId
  · simp [lastMove, IsMove, ha]
  · simp [lastMove, IsMove, ha, Ne.symm ha]

@[simp] theorem lastMove_complete (a jobId : String) (t : RunnerCore)
    (h : List (Action × RunnerCore)) : lastMove a ((.complete jobId, t) :: h) =
      if a = jobId then some (.complete jobId) else lastMove a h := by
  by_cases ha : a = jobId
  · simp [lastMove, IsMove, ha]
  · simp [lastMove, IsMove, ha, Ne.symm ha]

@[simp] theorem lastMove_arrive (a jobId : String) (t : RunnerCore)
    (h : List (Action × RunnerCore)) : lastMove a ((.arrive jobId, t) :: h) = lastMove a h := by
  simp [lastMove, IsMove]

@[simp] theorem lastMove_offer (a jobId : String) (t : RunnerCore)
    (h : List (Action × RunnerCore)) : lastMove a ((.offer jobId, t) :: h) = lastMove a h := by
  simp [lastMove, IsMove]

@[simp] theorem lastMove_check (a : String) (t : RunnerCore)
    (h : List (Action × RunnerCore)) : lastMove a ((.check, t) :: h) = lastMove a h := by
  simp [lastMove, IsMove]

/-! ### Steps -/

/-- The kernel after its earliest event was popped and time advanced to it. -/
def Popped (c : CompiledScenario) (s : RunnerCore) (ev : RunnerEvent)
    (k : Kernel RunnerPayload) : Prop :=
  ∃ queue, s.kernel.queue.pop = (some ev, queue) ∧ s.kernel.nowPs ≤ ev.timePs ∧
    ev.timePs ≤ maxTimePs c ∧ Kernel.consumeElapsedWork
      { s.kernel with queue := queue, nowPs := ev.timePs } s.kernel.nowPs = .ok k

/-- A job that the dispatcher may start: it has arrived, does not run, and is preempted,
queued in its FIFO, or was never started. -/
def Startable (c : CompiledScenario) (jobId : String) (s : RunnerState) : Prop :=
  s.verdict jobId ≠ none ∧ jobId ∉ s.running.keys ∧
    (jobId ∈ s.preempted ∨ jobId ∈ fifoOf c jobId s.toRunnerCore ∨
      lastMove jobId s.history = none)

/-- The elementary steps of the runner. -/
inductive Step (c : CompiledScenario) (s : RunnerState) : RunnerState → Prop
  | dispatch {ev : RunnerEvent} {k : Kernel RunnerPayload}
      (hpop : Popped c s.toRunnerCore ev k)
      (hpayload : ev.payload = .client .dispatch) : Step c s { s with kernel := k }
  | arrive {ev : RunnerEvent} {k : Kernel RunnerPayload} {r : JobRelease} {s' : RunnerState}
      (hpop : Popped c s.toRunnerCore ev k)
      (hpayload : ev.payload = .client (.arrival r)) (hr : r ∈ c.releases)
      (h : Received c r { s with kernel := k } s') : Step c s s'
  | complete {ev : RunnerEvent} {k : Kernel RunnerPayload} {jobId : String} {s' : RunnerState}
      (hpop : Popped c s.toRunnerCore ev k)
      (hpayload : ev.payload = .client (.complete jobId)) (hrunning : jobId ∈ s.running.keys)
      (h : Retired c jobId { s with kernel := k } s') : Step c s s'
  | stale {ev : RunnerEvent} {k : Kernel RunnerPayload} {jobId : String}
      (hpop : Popped c s.toRunnerCore ev k)
      (hpayload : ev.payload = .client (.complete jobId)) (hrunning : jobId ∉ s.running.keys) :
      Step c s { s with kernel := k }
  | offer {jobId : String} (hstartable : Startable c jobId s) : Step c s (s.log (.offer jobId))
  | start {jobId : String} {ev : RunnerEvent} {s' : RunnerState}
      (hstartable : Startable c jobId s)
      (hfits : canAllocate c jobId s = true) (h : Started c jobId s s' ev) : Step c s s'
  | preempt {jobId : String} {ev : RunnerEvent} {s' : RunnerState}
      (hrunning : s.running.get? jobId = some ev)
      (h : Preempted c jobId s s' ev) : Step c s s'
  | check {s' : RunnerState} (heq : s' = maybeRecordRecovery c s) (h : Checked s s') : Step c s s'
  | request (hnow : 0 ≤ s.kernel.nowPs) : Step c s { s with kernel := { s.kernel with
      queue := s.kernel.queue.insert s.kernel.nowPs .dispatch (.client .dispatch) } }

/-- The states that the runner passes through. -/
inductive Visited (c : CompiledScenario) : RunnerState → Prop
  | init {s : RunnerState} (h : scheduleArrivals c (init c) = .ok s) : Visited c s
  | step {s s' : RunnerState} (hs : Visited c s) (h : Step c s s') : Visited c s'

/-- The steps of a dispatch pass. -/
inductive PassStep (c : CompiledScenario) (s : RunnerState) : RunnerState → Prop
  | offer {jobId : String} (hstartable : Startable c jobId s) :
      PassStep c s (s.log (.offer jobId))
  | start {jobId : String} {ev : RunnerEvent} {s' : RunnerState}
      (hstartable : Startable c jobId s)
      (hfits : canAllocate c jobId s = true) (h : Started c jobId s s' ev) : PassStep c s s'
  | preempt {jobId : String} {ev : RunnerEvent} {s' : RunnerState}
      (hrunning : s.running.get? jobId = some ev)
      (h : Preempted c jobId s s' ev) : PassStep c s s'

theorem PassStep.step (h : PassStep c s s') : Step c s s' := by
  cases h with
  | offer hstartable => exact .offer hstartable
  | start hstartable hfits h => exact .start hstartable hfits h
  | preempt hrunning h => exact .preempt hrunning h

/-- The runner gets from one state to another by steps of a dispatch pass. -/
abbrev PassSteps (c : CompiledScenario) : RunnerState → RunnerState → Prop :=
  Relation.ReflTransGen (PassStep c)

/-- The runner gets from one state to another by elementary steps. -/
abbrev Steps (c : CompiledScenario) : RunnerState → RunnerState → Prop :=
  Relation.ReflTransGen (Step c)

theorem PassSteps.steps (h : PassSteps c s s') : Steps c s s' :=
  Relation.ReflTransGen.mono (fun _ _ => PassStep.step) _ _ h

theorem Visited.steps (hs : Visited c s) (h : Steps c s s') : Visited c s' := by
  induction h with
  | refl => exact hs
  | tail _ h ih => exact ih.step h

/-- The state in which a run starts: a new runner whose kernel holds the arrival events
and a first dispatch event. -/
theorem scheduleArrivals_spec (h : scheduleArrivals c (init c) = .ok s) :
    ∃ k, s = { init c with kernel := k } := by
  simp only [scheduleArrivals, bind_eq_ok] at h
  obtain ⟨k, _, ⟨_, k'⟩, _, heq⟩ := h
  cases heq
  exact ⟨k', rfl⟩

/-- The moments of a run: the present state, and those in which its actions were logged. -/
def Moment (s m : RunnerState) : Prop :=
  m = s ∨ ∃ a, (a, m.toRunnerCore) :: m.history <:+ s.history

/-- A step changes the kernel only, or logs one action with the state it found up to the
kernel. -/
theorem Step.history (h : Step c s s') : (∃ k, s' = { s with kernel := k }) ∨
    ∃ a k, s'.history = (a, { s with kernel := k }.toRunnerCore) :: s.history := by
  cases h with
  | dispatch _ _ => exact Or.inl ⟨_, rfl⟩
  | arrive _ _ _ h => exact Or.inr ⟨_, _, h.history⟩
  | complete _ _ _ h => exact Or.inr ⟨_, _, h.history⟩
  | stale _ _ _ => exact Or.inl ⟨_, rfl⟩
  | offer _ => exact Or.inr ⟨_, s.kernel, rfl⟩
  | start _ _ h => exact Or.inr ⟨_, s.kernel, h.history⟩
  | preempt _ h => exact Or.inr ⟨_, s.kernel, h.history⟩
  | check _ h => exact Or.inr ⟨_, s.kernel, h.history⟩
  | request _ => exact Or.inl ⟨_, rfl⟩

/-- The history only grows. -/
theorem Steps.history (h : Steps c s s') : s.history <:+ s'.history := by
  induction h with
  | refl => exact List.suffix_refl _
  | tail _ h ih =>
    rcases h.history with ⟨k, rfl⟩ | ⟨a, k, heq⟩
    · exact ih
    · rw [heq]
      exact ih.trans (List.suffix_cons _ _)

/-- What a step does, by the action it logs; `t` is the logged state. -/
def Logged (c : CompiledScenario) (s s' : RunnerState) (t : RunnerCore) : Action → Prop
  | .arrive jobId => ∃ k r, r.jobId = jobId ∧ t = { s with kernel := k }.toRunnerCore ∧
      Received c r { s with kernel := k } s'
  | .offer jobId => t = s.toRunnerCore ∧ Startable c jobId s
  | .start jobId => t = s.toRunnerCore ∧ Startable c jobId s ∧ canAllocate c jobId s = true ∧
      ∃ ev, Started c jobId s s' ev
  | .preempt jobId => t = s.toRunnerCore ∧
      ∃ ev, s.running.get? jobId = some ev ∧ Preempted c jobId s s' ev
  | .complete jobId => ∃ k, t = { s with kernel := k }.toRunnerCore ∧
      Retired c jobId { s with kernel := k } s'
  | .check => t = s.toRunnerCore ∧ s' = maybeRecordRecovery c s

/-- A step does what it logs. -/
theorem Step.logged (h : Step c s s') {a : Action} {t : RunnerCore}
    (hhistory : s'.history = (a, t) :: s.history) : Logged c s s' t a := by
  cases h with
  | dispatch _ _ => exact absurd hhistory.symm (List.cons_ne_self _ _)
  | stale _ _ _ => exact absurd hhistory.symm (List.cons_ne_self _ _)
  | request _ => exact absurd hhistory.symm (List.cons_ne_self _ _)
  | arrive _ _ _ h =>
    rw [h.history] at hhistory
    cases hhistory
    exact ⟨_, _, rfl, rfl, h⟩
  | complete _ _ _ h =>
    rw [h.history] at hhistory
    cases hhistory
    exact ⟨_, rfl, h⟩
  | offer hstartable =>
    cases hhistory
    exact ⟨rfl, hstartable⟩
  | start hstartable hfits h =>
    rw [h.history] at hhistory
    cases hhistory
    exact ⟨rfl, hstartable, hfits, _, h⟩
  | preempt hrunning h =>
    rw [h.history] at hhistory
    cases hhistory
    exact ⟨rfl, _, hrunning, h⟩
  | check heq h =>
    rw [h.history] at hhistory
    cases hhistory
    exact ⟨rfl, heq⟩

/-- The moments after a step are the present one and, up to the kernel, those before. -/
theorem Step.moment (h : Step c s s') {m : RunnerState} (hm : Moment s' m) :
    m = s' ∨ Moment s m ∨ ∃ k, m = { s with kernel := k } := by
  rcases hm with rfl | ⟨a, hsuffix⟩
  · exact Or.inl rfl
  · rcases h.history with ⟨k, rfl⟩ | ⟨b, k, heq⟩
    · exact Or.inr (Or.inl (Or.inr ⟨a, hsuffix⟩))
    · rw [heq, List.suffix_cons_iff] at hsuffix
      rcases hsuffix with hnew | hold
      · cases m
        cases hnew
        exact Or.inr (Or.inr ⟨k, rfl⟩)
      · exact Or.inr (Or.inl (Or.inr ⟨a, hold⟩))

/-- What holds in every visited state and does not depend on the kernel holds at every
moment. -/
theorem Visited.moments {P : RunnerState → Prop} (hP : ∀ s, Visited c s → P s)
    (hkernel : ∀ t k, P t → P { t with kernel := k }) (h : Visited c s) :
    ∀ m, Moment s m → P m := by
  induction h with
  | init h =>
    rintro m (rfl | ⟨a, ha⟩)
    · exact hP _ (.init h)
    · obtain ⟨k, rfl⟩ := scheduleArrivals_spec h
      cases List.suffix_nil.mp ha
  | step hs h ih =>
    intro m hm
    rcases h.moment hm with rfl | hold | ⟨k, rfl⟩
    · exact hP _ (hs.step h)
    · exact ih m hold
    · exact hkernel _ k (hP _ hs)

/-- What is kept by every step whose logged action meets a condition holds at every
moment of a run whose logged actions all meet it. -/
theorem Visited.moments_of_logged {P : RunnerState → Prop} {G : Action → RunnerCore → Prop}
    (hinit : ∀ s, scheduleArrivals c (Runner.init c) = .ok s → P s)
    (hkernel : ∀ t k, P t → P { t with kernel := k })
    (hkeep : ∀ s s', Visited c s → Step c s s' → P s → (∀ a t, (a, t) ∈ s'.history → G a t) →
      P s')
    (h : Visited c s) (hlogged : ∀ a t, (a, t) ∈ s.history → G a t) : ∀ m, Moment s m → P m := by
  induction h with
  | init h =>
    obtain ⟨k, rfl⟩ := scheduleArrivals_spec h
    rintro m (rfl | ⟨a, ha⟩)
    · exact hinit _ h
    · cases List.suffix_nil.mp ha
  | @step s s' hs h ih =>
    have hpast := ih fun a t ht => hlogged a t <| by
      rcases h.history with ⟨k, rfl⟩ | ⟨b, k, heq⟩
      · exact ht
      · rw [heq]
        exact List.mem_cons_of_mem _ ht
    intro m hm
    rcases h.moment hm with rfl | hold | ⟨k, rfl⟩
    · exact hkeep s _ hs h (hpast s (Or.inl rfl)) hlogged
    · exact hpast m hold
    · exact hkernel _ k (hpast s (Or.inl rfl))

/-- When a property before and after a step forces the logged action to meet a condition,
every logged action of a run with the property at every moment meets it. -/
theorem Visited.logged_of_moments {P : RunnerState → Prop} {G : Action → RunnerCore → Prop}
    (hkernel : ∀ t k, P t → P { t with kernel := k })
    (honly : ∀ s s', Visited c s → Step c s s' → P s → P s' →
      ∀ a t, s'.history = (a, t) :: s.history → G a t)
    (h : Visited c s) (hmoments : ∀ m, Moment s m → P m) :
    ∀ a t, (a, t) ∈ s.history → G a t := by
  induction h with
  | init h =>
    obtain ⟨k, rfl⟩ := scheduleArrivals_spec h
    exact fun a t ht => absurd ht List.not_mem_nil
  | @step s s' hs h ih =>
    have hprev : P s := by
      rcases h.history with ⟨k, rfl⟩ | ⟨a, k, heq⟩
      · exact hkernel { s with kernel := k } s.kernel (hmoments _ (Or.inl rfl))
      · exact hkernel { s with kernel := k } s.kernel (hmoments _ (Or.inr ⟨a, [], heq.symm⟩))
    have hpast : ∀ m, Moment s m → P m := by
      rintro m (rfl | ⟨a, ha⟩)
      · exact hprev
      · refine hmoments m (Or.inr ⟨a, ?_⟩)
        rcases h.history with ⟨k, rfl⟩ | ⟨b, k, heq⟩
        · exact ha
        · rw [heq]
          exact ha.trans (List.suffix_cons _ _)
    intro a t ht
    rcases h.history with ⟨k, rfl⟩ | ⟨b, k, heq⟩
    · exact ih hpast a t ht
    · rw [heq] at ht
      rcases List.mem_cons.mp ht with hnew | hold
      · refine honly s s' hs h hprev (hmoments s' (Or.inl rfl)) a t ?_
        rw [heq, hnew]
      · exact ih hpast a t hold

/-! ### Where jobs are -/

/-- Every job is stored only where it belongs, and its last move tells whether it runs or
is preempted. -/
structure Places (c : CompiledScenario) (s : RunnerState) : Prop where
  capacity : ∀ cls ∈ c.scenario.classes, cls.queuePolicy = .fifo →
    s.capacityAt (fifoKey cls.id) = some cls.queueCapacity
  fifo_class : ∀ key capacity, s.capacityAt key = some capacity →
    ∃ cls ∈ c.scenario.classes, cls.queuePolicy = .fifo ∧ key = fifoKey cls.id
  mailbox_class : ∀ key, key ∈ s.mailboxes.keys ↔
    ∃ cls ∈ c.scenario.classes, cls.queuePolicy = .mailboxLatest ∧ key = mailboxKey cls.stream
  queued : ∀ key jobId, jobId ∈ s.fifoAt key →
    IsFifo c jobId ∧ key = fifoKeyOf c jobId ∧ s.verdict jobId ≠ none
  pending : ∀ key stream jobId, s.pendingAt key stream = some jobId →
    ¬IsFifo c jobId ∧ key = mailboxKey (streamOf c jobId) ∧ stream = streamOf c jobId ∧
      lastMove jobId s.history = none ∧ s.verdict jobId ≠ none
  running : ∀ jobId, jobId ∈ s.running.keys ↔ lastMove jobId s.history = some (.start jobId)
  preempted : ∀ jobId, jobId ∈ s.preempted ↔ lastMove jobId s.history = some (.preempt jobId)
  moved : ∀ jobId, lastMove jobId s.history ≠ none → s.verdict jobId ≠ none
  known : ∀ jobId, s.verdict jobId ≠ none → Known c jobId

namespace Places

theorem not_preempted_of_running (h : Places c s) {jobId : String}
    (hr : jobId ∈ s.running.keys) : jobId ∉ s.preempted := by
  rw [h.preempted, (h.running jobId).mp hr]
  simp

/-- A pending item neither runs nor is preempted. -/
theorem pending_idle (h : Places c s) {key stream jobId : String}
    (hp : s.pendingAt key stream = some jobId) :
    jobId ∉ s.running.keys ∧ jobId ∉ s.preempted := by
  rw [h.running, h.preempted, (h.pending key stream jobId hp).2.2.2.1]
  simp

/-- A job whose class has a mailbox is queued nowhere else, and conversely. -/
theorem fifoOf_eq_nil (h : Places c s) {jobId : String} (hF : ¬IsFifo c jobId) :
    jobId ∉ fifoOf c jobId s.toRunnerCore :=
  fun hm => hF (h.queued _ _ hm).1

/-- The hypothesis of `receive_spec` holds in every state. -/
theorem pending_spec (h : Places c s) {jobId old : String}
    (hp : pendingOf c jobId s.toRunnerCore = some old) :
    s.running.get? old = none ∧ old ∉ s.preempted ∧ s.verdict old ≠ none := by
  obtain ⟨hrun, hpre⟩ := h.pending_idle hp
  exact ⟨Dict.not_mem_keys.mp hrun, hpre, (h.pending _ _ _ hp).2.2.2.2⟩

end Places

/-- A new runner satisfies `Places`. -/
theorem places_init (hc : c.WellFormed) (h : scheduleArrivals c (init c) = .ok s) :
    Places c s := by
  obtain ⟨k, rfl⟩ := scheduleArrivals_spec h
  have hfifo : ∀ key q, (fifoQueuesOf c.queues).get? key = some q →
      ∃ cls ∈ c.scenario.classes, cls.queuePolicy = .fifo ∧ key = fifoKey cls.id ∧
        q.capacity = cls.queueCapacity ∧ q.items = [] := by
    intro key q hq
    obtain ⟨cls, hcls, hkey, hfresh⟩ := hc.class_of_queue key _ (get?_fifoQueuesOf.mp hq)
    cases hfresh with
    | fifo hpolicy _ hcapacity hitems =>
      exact ⟨cls, hcls, hpolicy, by rw [hkey, queueKey, hpolicy], hcapacity, hitems⟩
  have hmailbox : ∀ key mb, (mailboxesOf c.queues).get? key = some mb →
      ∃ cls ∈ c.scenario.classes, cls.queuePolicy = .mailboxLatest ∧
        key = mailboxKey cls.stream ∧ mb.pending = .empty := by
    intro key mb hmb
    obtain ⟨cls, hcls, hkey, hfresh⟩ := hc.class_of_queue key _ (get?_mailboxesOf.mp hmb)
    cases hfresh with
    | mailbox hpolicy => exact ⟨cls, hcls, hpolicy, by rw [hkey, queueKey, hpolicy], rfl⟩
  refine ⟨?_, ?_, ?_, ?_, ?_, ?_, ?_, ?_, ?_⟩
  · intro cls hcls hpolicy
    obtain ⟨q, hq⟩ := hc.queue_of_class cls hcls
    obtain ⟨cls', hcls', hkey, hfresh⟩ := hc.class_of_queue _ q hq
    rw [queueKey, hpolicy] at hkey hq
    cases hfresh with
    | mailbox hpolicy' =>
      rw [queueKey, hpolicy'] at hkey
      exact absurd hkey (fifoKey_ne_mailboxKey _ _)
    | fifo hpolicy' q hcapacity _ =>
      rw [queueKey, hpolicy'] at hkey
      have heq := class_eq_of_id hc hcls hcls' (fifoKey_injective hkey)
      change ((fifoQueuesOf c.queues).get? _).map _ = _
      rw [get?_fifoQueuesOf.mpr hq, Option.map_some, hcapacity, heq]
  · intro key capacity hcap
    obtain ⟨q, hq, _⟩ := Option.map_eq_some_iff.mp hcap
    obtain ⟨cls, hcls, hpolicy, hkey, _⟩ := hfifo key q hq
    exact ⟨cls, hcls, hpolicy, hkey⟩
  · intro key
    constructor
    · intro hkey
      obtain ⟨mb, hmb⟩ := Dict.mem_keys.mp hkey
      obtain ⟨cls, hcls, hpolicy, hkey, _⟩ := hmailbox key mb hmb
      exact ⟨cls, hcls, hpolicy, hkey⟩
    · rintro ⟨cls, hcls, hpolicy, rfl⟩
      obtain ⟨q, hq⟩ := hc.queue_of_class cls hcls
      obtain ⟨cls', _, hkey, hfresh⟩ := hc.class_of_queue _ q hq
      rw [queueKey, hpolicy] at hkey hq
      cases hfresh with
      | fifo hpolicy' =>
        rw [queueKey, hpolicy'] at hkey
        exact absurd hkey.symm (fifoKey_ne_mailboxKey _ _)
      | mailbox hpolicy' => exact Dict.mem_keys.mpr ⟨_, get?_mailboxesOf.mpr hq⟩
  · intro key jobId hm
    change jobId ∈ (((fifoQueuesOf c.queues).get? key).map (·.contents)).getD [] at hm
    cases hq : (fifoQueuesOf c.queues).get? key with
    | none => simp [hq] at hm
    | some q =>
      obtain ⟨_, _, _, _, _, hitems⟩ := hfifo key q hq
      simp [hq, BoundedFIFO.contents, hitems] at hm
  · intro key stream jobId hp
    change ((mailboxesOf c.queues).get? key).bind (·.item? stream) = some jobId at hp
    cases hmb : (mailboxesOf c.queues).get? key with
    | none => simp [hmb] at hp
    | some mb =>
      obtain ⟨_, _, _, _, hempty⟩ := hmailbox key mb hmb
      simp [hmb, MailboxLatest.item?, hempty] at hp
  · intro jobId
    simp [init]
  · intro jobId
    simp [init]
  · intro jobId hmove
    simp [init] at hmove
  · intro jobId hv
    simp [RunnerCore.verdict, MetricsCollector.verdict, init] at hv

theorem mem_of_mem_fifoAfterTake {jobId key a : String} {t : RunnerCore}
    (h : a ∈ fifoAfterTake c jobId key t) : a ∈ t.fifoAt key := by
  unfold fifoAfterTake at h
  split_ifs at h
  · exact List.mem_of_mem_tail h
  · exact h

theorem mem_fifoAfterReturn {jobId key a : String} {t : RunnerCore}
    (h : a ∈ fifoAfterReturn c jobId key t) :
    (a = jobId ∧ IsFifo c jobId ∧ key = fifoKeyOf c jobId) ∨ a ∈ t.fifoAt key := by
  unfold fifoAfterReturn at h
  split_ifs at h with hcond
  · rcases List.mem_cons.mp h with rfl | h
    · exact Or.inl ⟨rfl, hcond.1, hcond.2.1⟩
    · exact Or.inr h
  · exact Or.inr h

/-- What is pending after a take was pending before, and not where the take happened. -/
theorem pendingAfterTake_eq_some {jobId key stream a : String} {t : RunnerCore} :
    pendingAfterTake c jobId key stream t = some a ↔ t.pendingAt key stream = some a ∧
      ¬(¬IsFifo c jobId ∧ key = mailboxKey (streamOf c jobId) ∧ stream = streamOf c jobId) := by
  unfold pendingAfterTake
  split_ifs with h
  · simp [h]
  · simp [h]

/-- The queue tables keep their keys and capacities. -/
private theorem Places.of_shape (hp : Places c s) (hshape : SameShape s.toRunnerCore s'.toRunnerCore)
    (queued : ∀ key jobId, jobId ∈ s'.fifoAt key →
      IsFifo c jobId ∧ key = fifoKeyOf c jobId ∧ s'.verdict jobId ≠ none)
    (pending : ∀ key stream jobId, s'.pendingAt key stream = some jobId →
      ¬IsFifo c jobId ∧ key = mailboxKey (streamOf c jobId) ∧ stream = streamOf c jobId ∧
        lastMove jobId s'.history = none ∧ s'.verdict jobId ≠ none)
    (running : ∀ jobId, jobId ∈ s'.running.keys ↔
      lastMove jobId s'.history = some (.start jobId))
    (preempted : ∀ jobId, jobId ∈ s'.preempted ↔
      lastMove jobId s'.history = some (.preempt jobId))
    (moved : ∀ jobId, lastMove jobId s'.history ≠ none → s'.verdict jobId ≠ none)
    (known : ∀ jobId, s'.verdict jobId ≠ none → Known c jobId) : Places c s' where
  capacity cls hcls hpolicy := (hshape.capacityAt _).trans (hp.capacity cls hcls hpolicy)
  fifo_class key capacity h := hp.fifo_class key capacity ((hshape.capacityAt key).symm.trans h)
  mailbox_class key := (hshape.mailboxes key).trans (hp.mailbox_class key)
  queued := queued
  pending := pending
  running := running
  preempted := preempted
  moved := moved
  known := known

private theorem Places.start {jobId : String} {ev : RunnerEvent} (hp : Places c s)
    (hstartable : Startable c jobId s) (h : Started c jobId s s' ev) : Places c s' := by
  refine hp.of_shape h.shape ?_ ?_ ?_ ?_ ?_ ?_
  · intro key a ha
    rw [h.fifoAt] at ha
    rw [h.verdict]
    exact hp.queued key a (mem_of_mem_fifoAfterTake ha)
  · intro key stream a ha
    rw [h.pendingAt, pendingAfterTake_eq_some] at ha
    obtain ⟨hF, hkey, hstream, hmove, hv⟩ := hp.pending key stream a ha.1
    have hne : a ≠ jobId := by
      rintro rfl
      exact ha.2 ⟨hF, hkey, hstream⟩
    rw [h.history, h.verdict, lastMove_start, if_neg hne]
    exact ⟨hF, hkey, hstream, hmove, hv⟩
  · intro a
    rw [h.running, h.history, Dict.mem_keys_insert, lastMove_start, hp.running]
    by_cases ha : a = jobId <;> simp [ha]
  · intro a
    rw [h.preempted, h.history, lastMove_start, List.mem_filter, hp.preempted]
    by_cases ha : a = jobId <;> simp [ha]
  · intro a ha
    rw [h.history, lastMove_start] at ha
    rw [h.verdict]
    split_ifs at ha with heq
    · rw [heq]
      exact hstartable.1
    · exact hp.moved a ha
  · intro a ha
    rw [h.verdict] at ha
    exact hp.known a ha

private theorem Places.preempt {jobId : String} {ev : RunnerEvent} (hp : Places c s)
    (hrunning : s.running.get? jobId = some ev) (h : Preempted c jobId s s' ev) :
    Places c s' := by
  have hmove := (hp.running jobId).mp (Dict.mem_keys.mpr ⟨ev, hrunning⟩)
  have hv : s.verdict jobId ≠ none := hp.moved jobId (by simp [hmove])
  refine hp.of_shape h.shape ?_ ?_ ?_ ?_ ?_ ?_
  · intro key a ha
    rw [h.fifoAt] at ha
    rw [h.verdict]
    rcases mem_fifoAfterReturn ha with ⟨rfl, hF, hkey⟩ | ha
    · exact ⟨hF, hkey, hv⟩
    · exact hp.queued key a ha
  · intro key stream a ha
    rw [h.pendingAt] at ha
    obtain ⟨hF, hkey, hstream, hnone, hva⟩ := hp.pending key stream a ha
    have hne : a ≠ jobId := by
      rintro rfl
      simp [hmove] at hnone
    rw [h.history, h.verdict, lastMove_preempt, if_neg hne]
    exact ⟨hF, hkey, hstream, hnone, hva⟩
  · intro a
    rw [h.running, h.history, Dict.mem_keys_erase, lastMove_preempt, hp.running]
    by_cases ha : a = jobId <;> simp [ha]
  · intro a
    rw [h.preempted, h.history, lastMove_preempt, List.mem_insert_iff, hp.preempted]
    by_cases ha : a = jobId <;> simp [ha]
  · intro a ha
    rw [h.history, lastMove_preempt] at ha
    rw [h.verdict]
    split_ifs at ha with heq
    · rw [heq]
      exact hv
    · exact hp.moved a ha
  · intro a ha
    rw [h.verdict] at ha
    exact hp.known a ha

private theorem Places.complete {jobId : String} (hp : Places c s)
    (hrunning : jobId ∈ s.running.keys) (h : Retired c jobId s s') : Places c s' := by
  have hmove := (hp.running jobId).mp hrunning
  have hv : ∀ a, s'.verdict a ≠ none ↔ s.verdict a ≠ none := by
    intro a
    rw [h.verdict]
    split_ifs <;> simp
  refine hp.of_shape h.shape ?_ ?_ ?_ ?_ ?_ ?_
  · intro key a ha
    rw [h.fifoAt] at ha
    rw [hv]
    exact hp.queued key a ha
  · intro key stream a ha
    rw [h.pendingAt] at ha
    obtain ⟨hF, hkey, hstream, hnone, hva⟩ := hp.pending key stream a ha
    have hne : a ≠ jobId := by
      rintro rfl
      simp [hmove] at hnone
    rw [h.history, hv, lastMove_complete, if_neg hne]
    exact ⟨hF, hkey, hstream, hnone, hva⟩
  · intro a
    rw [h.running, h.history, Dict.mem_keys_erase, lastMove_complete, hp.running]
    by_cases ha : a = jobId <;> simp [ha]
  · intro a
    rw [h.preempted, h.history, lastMove_complete, hp.preempted]
    by_cases ha : a = jobId
    · simp [ha, hmove]
    · simp [ha]
  · intro a ha
    rw [h.history, lastMove_complete] at ha
    rw [hv]
    split_ifs at ha with heq
    · rw [heq]
      exact hp.moved jobId (by simp [hmove])
    · exact hp.moved a ha
  · intro a ha
    rw [hv] at ha
    exact hp.known a ha

/-- After an arrival the fate of the arrived job is recorded, and no record is lost. -/
theorem Received.verdict_ne_none {r : JobRelease} (h : Received c r s s') (a : String) :
    s'.verdict a ≠ none ↔ a = r.jobId ∨ s.verdict a ≠ none := by
  cases h.fate with
  | rejected _ _ hv =>
    rw [hv]
    by_cases ha : a = r.jobId <;> simp [ha]
  | dropped _ _ _ hv =>
    rw [hv]
    by_cases ha : a = r.jobId <;> simp [ha]
  | queued _ _ _ _ _ _ hv =>
    rw [hv]
    by_cases ha : a = r.jobId <;> simp [ha]
  | posted _ _ _ hv =>
    rw [hv]
    by_cases ha : a = r.jobId
    · simp [ha]
    · rw [if_neg ha]
      split_ifs <;> simp [ha]

private theorem Places.arrive {r : JobRelease} (hp : Places c s) (hr : r ∈ c.releases)
    (h : Received c r s s') : Places c s' := by
  have hnone : lastMove r.jobId s.history = none := by
    by_contra hmove
    exact hp.moved r.jobId hmove h.fresh
  have hqueued : ∀ key a, a ∈ s'.fifoAt key →
      (a = r.jobId ∧ IsFifo c a ∧ key = fifoKeyOf c a) ∨ a ∈ s.fifoAt key := by
    intro key a ha
    cases h.fate with
    | rejected hf =>
      rw [hf] at ha
      exact Or.inr ha
    | dropped _ hf =>
      rw [hf] at ha
      exact Or.inr ha
    | queued hF _ _ _ hf =>
      rw [hf] at ha
      split_ifs at ha with hkey
      · rcases List.mem_append.mp ha with ha | ha
        · exact Or.inr ha
        · obtain rfl := List.mem_singleton.mp ha
          exact Or.inl ⟨rfl, hF, hkey⟩
      · exact Or.inr ha
    | posted _ hf =>
      rw [hf] at ha
      exact Or.inr ha
  have hpending : ∀ key stream a, s'.pendingAt key stream = some a →
      (a = r.jobId ∧ ¬IsFifo c a ∧ key = mailboxKey (streamOf c a) ∧ stream = streamOf c a) ∨
        s.pendingAt key stream = some a := by
    intro key stream a ha
    cases h.fate with
    | rejected _ hpd =>
      rw [hpd] at ha
      exact Or.inr ha
    | dropped _ _ hpd =>
      rw [hpd] at ha
      exact Or.inr ha
    | queued _ _ _ _ _ hpd =>
      rw [hpd] at ha
      exact Or.inr ha
    | posted hF _ hpd =>
      rw [hpd] at ha
      split_ifs at ha with hkey
      · cases ha
        exact Or.inl ⟨rfl, hF, hkey⟩
      · exact Or.inr ha
  refine hp.of_shape h.shape ?_ ?_ ?_ ?_ ?_ ?_
  · intro key a ha
    rw [h.verdict_ne_none]
    rcases hqueued key a ha with ⟨heq, hF, hkey⟩ | ha
    · exact ⟨hF, hkey, Or.inl heq⟩
    · obtain ⟨hF, hkey, hv⟩ := hp.queued key a ha
      exact ⟨hF, hkey, Or.inr hv⟩
  · intro key stream a ha
    rw [h.verdict_ne_none, h.history, lastMove_arrive]
    rcases hpending key stream a ha with ⟨rfl, hF, hkey, hstream⟩ | ha
    · exact ⟨hF, hkey, hstream, hnone, Or.inl rfl⟩
    · obtain ⟨hF, hkey, hstream, hmove, hv⟩ := hp.pending key stream a ha
      exact ⟨hF, hkey, hstream, hmove, Or.inr hv⟩
  · intro a
    rw [h.running, h.history, lastMove_arrive]
    exact hp.running a
  · intro a
    rw [h.preempted, h.history, lastMove_arrive]
    exact hp.preempted a
  · intro a ha
    rw [h.history, lastMove_arrive] at ha
    rw [h.verdict_ne_none]
    exact Or.inr (hp.moved a ha)
  · intro a ha
    rw [h.verdict_ne_none] at ha
    rcases ha with rfl | ha
    · exact List.mem_map_of_mem hr
    · exact hp.known a ha

/-- `Places` does not depend on the kernel. -/
theorem Places.setKernel (hp : Places c s) (k : Kernel RunnerPayload) :
    Places c { s with kernel := k } :=
  { hp with }

/-- Every step keeps `Places`. -/
theorem Places.step (hp : Places c s) (h : Step c s s') : Places c s' := by
  cases h with
  | dispatch _ _ => exact hp.setKernel _
  | arrive _ _ hr h => exact (hp.setKernel _).arrive hr h
  | complete _ _ hrunning h =>
    refine (hp.setKernel _).complete ?_ h
    exact hrunning
  | stale _ _ _ => exact hp.setKernel _
  | offer _ =>
    refine { hp with pending := ?_, running := ?_, preempted := ?_, moved := ?_ } <;>
      simp only [RunnerState.log, lastMove_offer]
    · exact hp.pending
    · exact hp.running
    · exact hp.preempted
    · exact hp.moved
  | start hstartable _ h => exact hp.start hstartable h
  | preempt hrunning h => exact hp.preempt hrunning h
  | check _ h =>
    have hshape : SameShape s.toRunnerCore s'.toRunnerCore :=
      ⟨fun key => by rw [RunnerCore.capacityAt, h.fifoQueues]; rfl,
        fun key => by rw [h.mailboxes]⟩
    refine hp.of_shape hshape ?_ ?_ ?_ ?_ ?_ ?_ <;>
      simp only [h.history, lastMove_check, h.verdict, RunnerCore.fifoAt, h.fifoQueues,
        RunnerCore.pendingAt, h.mailboxes, h.running, h.preempted]
    · exact hp.queued
    · exact hp.pending
    · exact hp.running
    · exact hp.preempted
    · exact hp.moved
    · exact hp.known
  | request _ => exact hp.setKernel _

/-- Every visited state satisfies `Places`. -/
theorem Visited.places (hc : c.WellFormed) (h : Visited c s) : Places c s := by
  induction h with
  | init h => exact places_init hc h
  | step _ h ih => exact ih.step h

end Runner

end NpuArc
