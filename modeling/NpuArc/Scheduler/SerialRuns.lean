import NpuArc.Scheduler.Serial
import Mathlib.Algebra.Order.BigOperators.Group.List
import Mathlib.Algebra.Order.Group.Nat
import Mathlib.Order.WellFounded
import Mathlib.Data.Fintype.EquivFin

/-!
# Runs of the serial dispatcher

A run with a serial dispatcher completes every job exactly if every dependency is
registered, the limits of the run leave room for it, and no release disturbs the dispatcher.
The livelock check takes every other release for a lack of progress.
-/

namespace NpuArc

open Kernel

namespace Serial

variable {choice : Choice} {k k' : Kernel String} {jobId : String} {job : JobHandle}
  {ev : Event (KernelPayload String)} {queue : EventQueue (KernelPayload String)}
  {maxTimePs : ℤ}

/-! ### Events without progress -/

/-- An event makes no progress that leaves time, the completed jobs, and the running jobs as
they are, unless it is a dispatch without ready jobs. -/
theorem madeProgress_eq_false (hnow : k'.nowPs = k.nowPs) (hcompleted : k'.completed = k.completed)
    (hrunning : ∀ a, (∃ job, k'.jobs.get? a = some job ∧ job.state = .running) →
      k'.jobs.get? a = k.jobs.get? a)
    (hkept : ∀ a job, k.jobs.get? a = some job → job.state = .running →
      k'.jobs.get? a = some job)
    (hready : ev.phase = .dispatch → k.hasReady = true) : k.madeProgress ev k' = false := by
  have hstarted : k'.jobs.entries.any (fun e => decide (e.2.state = .running) &&
      !(k.jobs.get? e.1).any fun j => decide (j.state = .running)) = false := by
    rw [List.any_eq_false]
    rintro ⟨a, job⟩ hmem
    have hget : k'.jobs.get? a = some job := Dict.get?_eq_some.mpr hmem
    by_cases hstate : job.state = .running
    · have hold : k.jobs.get? a = some job := hrunning a ⟨job, hget, hstate⟩ ▸ hget
      simp [hold, hstate]
    · simp [hstate]
  have hconsumed : k.jobs.entries.any (fun e => decide (e.2.state = .running) &&
      (k'.jobs.get? e.1).any fun j => decide (j.remainingPs < e.2.remainingPs)) = false := by
    rw [List.any_eq_false]
    rintro ⟨a, job⟩ hmem
    have hget : k.jobs.get? a = some job := Dict.get?_eq_some.mpr hmem
    by_cases hstate : job.state = .running
    · simp [hkept a job hget hstate]
    · simp [hstate]
  have hidle : (decide (ev.phase = .dispatch) && !k.hasReady) = false := by
    by_cases hdispatch : ev.phase = .dispatch
    · simp [hready hdispatch]
    · simp [hdispatch]
  unfold madeProgress
  simp only [hnow, hcompleted, hstarted, hconsumed, hidle]
  simp

/-- An event at the current time whose payload makes no progress raises an exception. -/
theorem processEvent_ne_ok (hpop : k.queue.pop = (some ev, queue)) (htime : ev.timePs = k.nowPs)
    (hstill : ∀ k₁, (serialClient choice).host.invoke ev.payload
        { k with queue := queue, nowPs := ev.timePs } = .ok k₁ → k.madeProgress ev k₁ = false) :
    (serialClient choice).host.processEvent k ≠ .ok k' := by
  intro hok
  obtain ⟨_, k₁, hconsume, hinvoke, hprogress⟩ :=
    (Host.processEvent_eq_ok (h := (serialClient choice).host) hpop).mp hok
  have hconsume : consumeElapsedWork { k with queue := queue, nowPs := ev.timePs } k.nowPs = .ok k₁ :=
    hconsume
  rw [consumeElapsedWork_of_le htime.le] at hconsume
  cases hconsume
  have hprogress : k.madeProgress ev k' = true := hprogress
  rw [hstill k' hinvoke] at hprogress
  cases hprogress

/-- What a release payload changes. -/
theorem releasePayload_frame (h : k.releasePayload jobId = .ok k') :
    k'.nowPs = k.nowPs ∧ k'.completed = k.completed ∧
      (k'.queue = k.queue ∨ k'.queue = k.queue.insert k.nowPs .dispatch .dispatch) ∧
      ∀ a, k'.jobs.get? a = k.jobs.get? a ∨ ∃ job, k.jobs.get? a = some job ∧
        job.state = .pending ∧ k'.jobs.get? a = some { job with state := .ready } := by
  obtain ⟨job, hget, h⟩ := bind_eq_ok.mp h
  split_ifs at h with hstate hsatisfied
  · cases h
    exact ⟨rfl, rfl, .inl rfl, fun _ => .inl rfl⟩
  · have hjobs : ∀ a, (k.makeReady jobId).jobs.get? a = k.jobs.get? a ∨
        ∃ job, k.jobs.get? a = some job ∧ job.state = .pending ∧
          (k.makeReady jobId).jobs.get? a = some { job with state := .ready } := by
      intro a
      by_cases ha : a = jobId
      · subst ha
        right
        have hpending : job.state = .pending := by simpa using hstate
        have hget := getJob_eq_ok.mp hget
        exact ⟨job, hget, hpending, by simp [makeReady, modifyJob, hget, hpending]⟩
      · left
        simp [makeReady, modifyJob, ha]
    obtain ⟨hsame, hcompleted, _⟩ := scheduleDispatch_frame h
    rw [hsame]
    unfold scheduleDispatch at h
    split_ifs at h
    · cases h
      exact ⟨rfl, rfl, .inl rfl, hjobs⟩
    · cases h
      exact ⟨rfl, rfl, .inl rfl, hjobs⟩
    · obtain ⟨⟨_, queue⟩, hpush, h⟩ := bind_eq_ok.mp h
      unfold EventQueue.push at hpush
      split_ifs at hpush
      cases hpush
      cases h
      exact ⟨rfl, rfl, .inr rfl, hjobs⟩
  · cases h
    exact ⟨rfl, rfl, .inl rfl, fun _ => .inl rfl⟩

/-- A release at the current time raises an exception. -/
theorem processEvent_release_now (hpop : k.queue.pop = (some ev, queue))
    (htime : ev.timePs = k.nowPs) (hpayload : ev.payload = .release jobId)
    (hphase : ev.phase = .release) : (serialClient choice).host.processEvent k ≠ .ok k' := by
  apply processEvent_ne_ok hpop htime
  intro k₁ hinvoke
  rw [hpayload] at hinvoke
  obtain ⟨k₂, hrelease, hinvoke⟩ := bind_eq_ok.mp hinvoke
  obtain rfl : k₂ = k₁ := Except.ok.inj hinvoke
  obtain ⟨hnow, hcompleted, _, hjobs⟩ := releasePayload_frame hrelease
  have hnow : k₂.nowPs = ev.timePs := hnow
  have hjobs : ∀ a, k₂.jobs.get? a = k.jobs.get? a ∨ ∃ job, k.jobs.get? a = some job ∧
      job.state = .pending ∧ k₂.jobs.get? a = some { job with state := .ready } := hjobs
  apply madeProgress_eq_false
  · omega
  · exact hcompleted
  · rintro a ⟨job, hget, hrunning⟩
    rcases hjobs a with hsame | ⟨_, _, _, hready⟩
    · exact hsame
    · cases hready.symm.trans hget
      cases hrunning
  · intro a job hget hrunning
    rcases hjobs a with hsame | ⟨_, hold, hpending, _⟩
    · rw [hsame, hget]
    · cases hold.symm.trans hget
      rw [hrunning] at hpending
      cases hpending
  · simp [hphase]

/-- A dispatch while a job is running and another one is ready raises an exception. -/
theorem processEvent_dispatch_busy (hpop : k.queue.pop = (some ev, queue))
    (htime : ev.timePs = k.nowPs) (hpayload : ev.payload = .dispatch)
    (hrunning : ∃ a job, k.jobs.get? a = some job ∧ job.state = .running)
    (hready : k.hasReady = true) : (serialClient choice).host.processEvent k ≠ .ok k' := by
  apply processEvent_ne_ok hpop htime
  intro k₁ hinvoke
  have hk₁ : k₁ = { k with queue := queue, nowPs := ev.timePs, nextDispatchTime := none } := by
    rw [hpayload] at hinvoke
    simp only [Host.invoke, Client.host, serialClient] at hinvoke
    split at hinvoke
    · cases hinvoke
      rfl
    · have hany : (k.jobs.values.any fun j => decide (j.state = .running)) = true := by
        obtain ⟨a, job, hget, hstate⟩ := hrunning
        rw [List.any_eq_true]
        exact ⟨job, Dict.mem_values.mpr ⟨a, hget⟩, by simp [hstate]⟩
      unfold serialDispatch at hinvoke
      rw [if_pos hany] at hinvoke
      cases hinvoke
      rfl
  apply madeProgress_eq_false
  · rw [hk₁]
    exact htime
  · rw [hk₁]
  · intro a _
    rw [hk₁]
  · intro a job hget _
    rw [hk₁]
    exact hget
  · exact fun _ => hready

/-- A completion event of a completed job at the current time raises an exception. -/
theorem processEvent_completed_now (hpop : k.queue.pop = (some ev, queue))
    (htime : ev.timePs = k.nowPs) (hpayload : ev.payload = .client jobId)
    (hphase : ev.phase = .timer) (hdone : k.Completed jobId) :
    (serialClient choice).host.processEvent k ≠ .ok k' := by
  apply processEvent_ne_ok hpop htime
  intro k₁ hinvoke
  have hk₁ : k₁ = { k with queue := queue, nowPs := ev.timePs } := by
    rw [hpayload] at hinvoke
    obtain ⟨job, hget, hcompleted⟩ := hdone
    have hinvoke : completeJob { k with queue := queue, nowPs := ev.timePs } jobId = .ok k₁ := hinvoke
    have hget : ({ k with queue := queue, nowPs := ev.timePs } : Kernel String).jobs.get? jobId =
      some job := hget
    unfold completeJob at hinvoke
    rw [getJob_eq_ok.mpr hget, bind_eq_ok_left, if_pos hcompleted] at hinvoke
    cases hinvoke
    rfl
  apply madeProgress_eq_false
  · rw [hk₁]
    exact htime
  · rw [hk₁]
  · intro a _
    rw [hk₁]
  · intro a job hget _
    rw [hk₁]
    exact hget
  · simp [hphase]

/-! ### Runs to completion -/

/-- Whether every job is completed. -/
def AllCompleted (k : Kernel String) : Prop :=
  ∀ jobId job, k.jobs.get? jobId = some job → job.state = .completed

theorem isDone_of_allCompleted (h : AllCompleted k) : Host.isDone k = true := by
  unfold Host.isDone
  rw [List.all_eq_true]
  intro job hmem
  obtain ⟨a, hget⟩ := Dict.mem_values.mp hmem
  simp [h a job hget]

/-- A run that ends with every job completed either starts so or processes its first event. -/
theorem runUntilComplete_cases {n : ℕ}
    (h : (serialClient choice).host.runUntilComplete maxTimePs n k = .ok k') (hall : AllCompleted k') :
    AllCompleted k ∨ ∃ ev m k₁, Host.isDone k = false ∧ k.queue.peek = some ev ∧
      ev.timePs ≤ maxTimePs ∧ n = m + 1 ∧
      (serialClient choice).host.processEvent k = .ok k₁ ∧
      (serialClient choice).host.runUntilComplete maxTimePs m k₁ = .ok k' := by
  cases n with
  | zero =>
    cases h
    exact .inl hall
  | succ m =>
    by_cases hdone : Host.isDone k = true
    · cases (Host.runUntilComplete_done (h := (serialClient choice).host) hdone _).symm.trans h
      exact .inl hall
    · have hdone : Host.isDone k = false := by simpa using hdone
      rcases Host.runUntilComplete_step (h := (serialClient choice).host) hdone m with
        ⟨_, heq⟩ | ⟨ev, hpeek, htime, heq⟩
      · cases heq.symm.trans h
        exact .inl hall
      · obtain ⟨k₁, hevent, hrest⟩ := bind_eq_ok.mp (heq.symm.trans h)
        exact .inr ⟨ev, m, k₁, hdone, hpeek, htime, rfl, hevent, hrest⟩

/-- A kernel from which no run ends with every job completed. -/
def Fails (choice : Choice) (maxTimePs : ℤ) (k : Kernel String) : Prop :=
  ∀ n k', (serialClient choice).host.runUntilComplete maxTimePs n k = .ok k' → ¬AllCompleted k'

theorem fails_of_next (hopen : ¬AllCompleted k)
    (hnext : ∀ k₁, (serialClient choice).host.processEvent k = .ok k₁ → Fails choice maxTimePs k₁) :
    Fails choice maxTimePs k := by
  intro n k' hrun hall
  rcases runUntilComplete_cases hrun hall with hall | ⟨_, m, k₁, _, _, _, _, hevent, hrest⟩
  · exact hopen hall
  · exact hnext k₁ hevent m k' hrest hall

/-! ### Disturbing releases -/

theorem exists_pop_of_live {q q' : EventQueue (KernelPayload String)}
    {popped : Option (Event (KernelPayload String))} {e : Event (KernelPayload String)}
    (hlive : q.Live e) (hpop : q.pop = (popped, q')) : ∃ ev, popped = some ev := by
  have hpeek : q.peek = popped := by
    rw [EventQueue.peek_eq_pop, hpop]
  cases popped with
  | some ev => exact ⟨ev, rfl⟩
  | none =>
    unfold EventQueue.peek at hpeek
    have hnone := List.find?_eq_none.mp hpeek e hlive.1
    simp only [decide_eq_true_eq, not_not] at hnone
    exact absurd hnone hlive.2

/-- A queue to which dispatches have been added. -/
inductive WithDispatches (q : EventQueue (KernelPayload String)) :
    EventQueue (KernelPayload String) → Prop
  | refl : WithDispatches q q
  | insert {q' : EventQueue (KernelPayload String)} (h : WithDispatches q q') (t : ℤ) :
      WithDispatches q (q'.insert t .dispatch .dispatch)

theorem WithDispatches.spec {q q' : EventQueue (KernelPayload String)} (h : WithDispatches q q')
    (hcancelled : q.cancelled = []) : q'.cancelled = [] ∧ (∀ e, q.Live e → q'.Live e) ∧
      ∀ e, q'.Live e → q.Live e ∨ e.payload = .dispatch ∧ e.phase = .dispatch := by
  induction h with
  | refl => exact ⟨hcancelled, fun _ he => he, fun _ he => .inl he⟩
  | insert _ t ih =>
    obtain ⟨hnone, hkept, hadded⟩ := ih
    refine ⟨hnone, fun e he => (insert_live_iff hnone).mpr (.inr (hkept e he)), fun e he => ?_⟩
    rcases (insert_live_iff hnone).mp he with rfl | he
    · exact .inr ⟨rfl, rfl⟩
    · exact hadded e he

/-- A release at the instant at which the running job finishes: the completion event finds
nothing to do. -/
theorem Invariant.fails_of_coincidence (h : Invariant k) (hpop : k.queue.pop = (some ev, queue))
    (hpayload : ev.payload = .release jobId) {runningId : String} {running : JobHandle}
    {e : Event (KernelPayload String)} (hbusy : Busy k runningId running e)
    (htime : ev.timePs = e.timePs) : Fails choice maxTimePs k := by
  have hlive := (h.pop hpop).1
  have hpositive := hbusy.positive
  have hfinish := hbusy.time
  obtain ⟨job, hget, hpending, _⟩ := h.pending_of_release hlive hpayload (by omega)
  have hne : jobId ≠ runningId := by
    rintro rfl
    cases hget.symm.trans hbusy.get
    have hrunning := hbusy.running
    rw [hpending] at hrunning
    cases hrunning
  apply fails_of_next
  · intro hall
    have hcompleted := hall jobId job hget
    rw [hpending] at hcompleted
    cases hcompleted
  intro k' hok
  obtain ⟨_, k₁, hconsume, hinvoke, _⟩ :=
    (Host.processEvent_eq_ok (h := (serialClient choice).host) hpop).mp hok
  obtain ⟨k₂, hconsume₂, hfinished⟩ := h.consume_wholly hbusy queue
  rw [← htime] at hconsume₂ hfinished
  obtain rfl : k₂ = k₁ := Except.ok.inj (hconsume₂.symm.trans hconsume)
  rw [hpayload] at hinvoke
  obtain ⟨k₃, hrelease, hinvoke⟩ := bind_eq_ok.mp hinvoke
  obtain rfl : k₃ = k' := Except.ok.inj hinvoke
  have hrelease : k₂.releasePayload jobId = .ok k₃ := hrelease
  have hact : k₃ = k.act .event := by
    change k₃ = k.beginEvent
    rw [beginEvent_eq hpop (by omega) hconsume₂, hpayload]
    unfold ownPayload
    dsimp only
    rw [hrelease]
    rfl
  have hbase := base_act h.dependable h.lifecycle .event trivial trivial
  rw [← hact] at hbase
  obtain ⟨hnow, _, hqueue, hjobs⟩ := releasePayload_frame hrelease
  have hnow₂ : k₂.nowPs = ev.timePs := hfinished.now
  have hdone : k₃.Completed runningId := by
    refine ⟨{ running with remainingPs := 0, state := .completed }, ?_, rfl⟩
    rcases hjobs runningId with hsame | ⟨old, hold, hstate, _⟩
    · rw [hsame]
      exact hfinished.get
    · cases hold.symm.trans hfinished.get
      cases hstate
  obtain ⟨_, hrest, hcancelled, _⟩ := h.pop hpop
  have hdispatches : WithDispatches queue k₃.queue := by
    have hfirst : WithDispatches queue k₂.queue := by
      rcases hfinished.queue with ⟨_, heq, _⟩ | ⟨_, heq, _⟩
      · rw [heq]
        exact .insert .refl _
      · rw [heq]
        exact .refl
    rcases hqueue with heq | heq
    · rw [heq]
      exact hfirst
    · rw [heq]
      exact .insert hfirst _
  obtain ⟨_, hkept, hadded⟩ := hdispatches.spec hcancelled
  have hstill : k₃.queue.Live e := by
    apply hkept e
    apply (hrest e).mpr
    refine ⟨hbusy.live, ?_⟩
    rintro rfl
    rw [hbusy.payload] at hpayload
    cases hpayload
  have hopen : ¬AllCompleted k₃ := by
    obtain ⟨other, hother, hstate⟩ : ∃ other, k₂.jobs.get? jobId = some other ∧
        other.state ≠ .completed := by
      rcases hfinished.others jobId hne with hsame | ⟨old, _, _, hready⟩
      · rw [hsame]
        exact ⟨job, hget, by simp [hpending]⟩
      · exact ⟨_, hready, by simp⟩
    intro hall
    rcases hjobs jobId with hsame | ⟨_, _, _, hready⟩
    · exact hstate (hall jobId other (hsame.trans hother))
    · have hcompleted := hall jobId _ hready
      cases hcompleted
  apply fails_of_next hopen
  intro k₄ hnext
  exfalso
  cases hpop₃ : k₃.queue.pop with
  | mk popped queue₃ =>
  obtain ⟨ev', rfl⟩ := exists_pop_of_live hstill hpop₃
  obtain ⟨hlive', _⟩ := EventQueue.pop_spec hpop₃
  have hkey := EventQueue.pop_least hpop₃ hstill
  have hle := timePs_le_of_eventKey_le hkey
  have hfuture := hbase.1.future ev' hlive'
  have htime' : ev'.timePs = k₃.nowPs := by omega
  have hphase : ev'.phase.toNat ≤ e.phase.toNat := phase_le_of_key hkey (by omega)
  rw [h.phased e hbusy.live, hbusy.payload] at hphase
  rcases hadded ev' hlive' with hold | ⟨_, hdispatch⟩
  · have hold := ((hrest ev').mp hold).1
    have hphased := h.phased ev' hold
    cases hpayload' : ev'.payload with
    | release a =>
      rw [hpayload'] at hphased
      exact processEvent_release_now hpop₃ htime' hpayload' hphased hnext
    | dispatch =>
      rw [hphased, hpayload'] at hphase
      simp [phaseOf, EventPhase.toNat] at hphase
    | client a =>
      rw [hpayload'] at hphased
      cases hbusy.only ev' a hold hpayload'
      exact processEvent_completed_now hpop₃ htime' hbusy.payload hphased hdone hnext
  · rw [hdispatch] at hphase
    simp [phaseOf, EventPhase.toNat] at hphase

/-- A release that makes a job ready while another one is running: the dispatch finds the unit
busy. -/
theorem Invariant.fails_of_release_busy (h : Invariant k) (hpop : k.queue.pop = (some ev, queue))
    (hpayload : ev.payload = .release jobId) (hnow : k.nowPs < ev.timePs) {runningId : String}
    {running : JobHandle} {e : Event (KernelPayload String)} (hbusy : Busy k runningId running e)
    (hlater : ev.timePs < e.timePs)
    (hdeps : ∀ job, k.jobs.get? jobId = some job → ∀ d ∈ job.dependsOn, k.Completed d) :
    Fails choice maxTimePs k := by
  have hfinish := hbusy.time
  have hall : ∀ a other, k.jobs.get? a = some other → other.state = .running →
      ev.timePs < k.nowPs + other.remainingPs := by
    intro a other hget hstate
    cases hbusy.alone a other hget hstate
    cases hget.symm.trans hbusy.get
    omega
  obtain ⟨job, k', hok, hr⟩ := h.released choice hpop hpayload hnow hall
  obtain ⟨hready, hnext, hlive⟩ : k'.jobs.get? jobId = some { job with state := .ready } ∧
      k'.nextDispatchTime ≠ none ∧
      k'.queue.Live ⟨ev.timePs, .dispatch, queue.seq, .dispatch⟩ := by
    rcases hr.outcome with ⟨_, hready, _, hnext⟩ | ⟨⟨d, hd, hmissing⟩, _⟩
    · have hnext : k'.nextDispatchTime ≠ none := by simp [hnext]
      exact ⟨hready, hnext, (hr.live h hpop).mpr (.inr ⟨hnext, rfl⟩)⟩
    · exact absurd (hdeps job hr.old d hd) hmissing
  have hpending : ¬AllCompleted k := by
    intro hcompleted
    have hstate := hcompleted jobId job hr.old
    rw [hr.pending] at hstate
    cases hstate
  apply fails_of_next hpending
  intro k₁ hok₁
  cases hok.symm.trans hok₁
  have hopen : ¬AllCompleted k' := by
    intro hcompleted
    have hstate := hcompleted jobId _ hready
    cases hstate
  apply fails_of_next hopen
  intro k₂ hok₂
  exfalso
  have hbase := base_act h.dependable h.lifecycle .event trivial trivial
  rw [← hr.act] at hbase
  cases hpop' : k'.queue.pop with
  | mk popped queue' =>
  obtain ⟨ev', rfl⟩ := exists_pop_of_live hlive hpop'
  obtain ⟨hlive', _⟩ := EventQueue.pop_spec hpop'
  have hle := timePs_le_of_eventKey_le (EventQueue.pop_least hpop' hlive)
  have hle : ev'.timePs ≤ ev.timePs := hle
  have hfuture := hbase.1.future ev' hlive'
  have hnow' := hr.now
  have htime' : ev'.timePs = k'.nowPs := by omega
  rcases (hr.live h hpop).mp hlive' with ⟨hold, _⟩ | ⟨_, rfl⟩
  · have hphased := h.phased ev' hold
    cases hpayload' : ev'.payload with
    | release a =>
      rw [hpayload'] at hphased
      exact processEvent_release_now hpop' htime' hpayload' hphased hok₂
    | dispatch => exact h.no_dispatch hbusy.next ev' hold hpayload'
    | client a =>
      cases hbusy.only ev' a hold hpayload'
      omega
  · have hne : runningId ≠ jobId := by
      rintro rfl
      cases hbusy.get.symm.trans hr.old
      have hrunning := hbusy.running
      rw [hr.pending] at hrunning
      cases hrunning
    apply processEvent_dispatch_busy hpop' htime' rfl _ _ hok₂
    · refine ⟨runningId, elapse (ev.timePs - k.nowPs) running, ?_, ?_⟩
      · rw [hr.others runningId hne, hbusy.get, Option.map_some]
      · rw [elapse_state]
        exact hbusy.running
    · unfold hasReady
      rw [List.any_eq_true]
      exact ⟨_, Dict.mem_values.mpr ⟨jobId, hready⟩, by simp⟩

/-- A release that disturbs the dispatcher keeps the run from completing every job. -/
theorem Invariant.fails_of_disturbed (choice : Choice) (h : Invariant k) (hpop : k.queue.pop = (some ev, queue))
    (hdisturbed : ¬Undisturbed k ev) : Fails choice maxTimePs k := by
  unfold Undisturbed at hdisturbed
  push Not at hdisturbed
  obtain ⟨jobId, hpayload, hdisturbed⟩ := hdisturbed
  obtain ⟨hlive, _, _, hleast⟩ := h.pop hpop
  have hfuture := h.dependable.future ev hlive
  by_cases hnow : k.nowPs < ev.timePs
  · obtain ⟨a, other, hget, hstate, hcase⟩ := hdisturbed hnow
    obtain ⟨runningId, running, e, hbusy⟩ : ∃ runningId running e, Busy k runningId running e := by
      rcases h.mode with hidle | hbusy
      · exact absurd hstate (hidle.stopped a other hget)
      · exact hbusy
    cases hbusy.alone a other hget hstate
    cases hget.symm.trans hbusy.get
    have hle := timePs_le_of_eventKey_le (hleast e hbusy.live)
    have htime := hbusy.time
    by_cases hlater : ev.timePs < e.timePs
    · exact h.fails_of_release_busy hpop hpayload hnow hbusy hlater (hcase (by omega))
    · exact h.fails_of_coincidence hpop hpayload hbusy (by omega)
  · obtain ⟨job, hget, htime⟩ := h.dependable.releases ev jobId hlive hpayload
    have hopen : ¬AllCompleted k := by
      intro hall
      rcases h.unreleased ev jobId job hlive hpayload hget with hstate | hstate
      · rw [hall jobId job hget] at hstate
        cases hstate
      · rw [hall jobId job hget] at hstate
        cases hstate
    apply fails_of_next hopen
    intro k₁ hok
    have hphase := h.phased ev hlive
    rw [hpayload] at hphase
    exact absurd hok (processEvent_release_now hpop (by omega) hpayload hphase)

/-! ### Progress -/

/-- No job depends on itself through others. -/
def Acyclic (k : Kernel String) : Prop := ∀ a, ¬Relation.TransGen k.DependsOn a a

/-- Every dependency is a registered job. -/
def Closed (k : Kernel String) : Prop :=
  ∀ a b, k.DependsOn a b → ∃ job, k.jobs.get? b = some job

theorem SameJobs.dependsOn (h : SameJobs k k') {a b : String} :
    k'.DependsOn a b ↔ k.DependsOn a b := by
  have hdeps := h a
  unfold Kernel.DependsOn
  cases hget' : k'.jobs.get? a with
  | none =>
    rw [hget', Option.map_none, eq_comm, Option.map_eq_none_iff] at hdeps
    rw [hdeps]
  | some job' =>
    rw [hget', Option.map_some, eq_comm, Option.map_eq_some_iff] at hdeps
    obtain ⟨job, hget, hdeps⟩ := hdeps
    rw [hget]
    simp [hdeps]

theorem SameJobs.exists_iff (h : SameJobs k k') {a : String} :
    (∃ job, k'.jobs.get? a = some job) ↔ ∃ job, k.jobs.get? a = some job := by
  have hsome := congrArg Option.isSome (h a)
  rw [Option.isSome_map, Option.isSome_map] at hsome
  rw [← Option.isSome_iff_exists, ← Option.isSome_iff_exists, hsome]

theorem SameJobs.acyclic (h : SameJobs k k') (hk : Acyclic k) : Acyclic k' :=
  fun a hcycle => hk a (Relation.TransGen.mono (fun _ _ => h.dependsOn.mp) _ _ hcycle)

theorem SameJobs.closed (h : SameJobs k k') : Closed k' ↔ Closed k := by
  unfold Closed
  simp only [h.dependsOn, h.exists_iff]

theorem SameJobs.refl (k : Kernel String) : SameJobs k k := fun _ => rfl

theorem SameJobs.trans {k₁ k₂ k₃ : Kernel String} (h : SameJobs k₁ k₂) (h' : SameJobs k₂ k₃) :
    SameJobs k₁ k₃ := fun a => (h' a).trans (h a)

/-- Among pending jobs without cycles, one has no pending dependency. -/
private theorem exists_first_pending (hacyclic : Acyclic k) (hget : k.jobs.get? jobId = some job)
    (hpending : job.state = .pending) :
    ∃ a other, k.jobs.get? a = some other ∧ other.state = .pending ∧
      ∀ b, k.DependsOn a b → ∀ dep, k.jobs.get? b = some dep → dep.state ≠ .pending := by
  let r : {a // a ∈ k.jobs.keys} → {a // a ∈ k.jobs.keys} → Prop := fun a b =>
    Relation.TransGen k.DependsOn b.1 a.1
  have htrans : IsTrans _ r := ⟨fun _ _ _ hab hbc => hbc.trans hab⟩
  have hirrefl : Std.Irrefl r := ⟨fun a => hacyclic a.1⟩
  have hwf : WellFounded r := Finite.wellFounded_of_trans_of_irrefl r
  let pending : Set {a // a ∈ k.jobs.keys} := fun a =>
    ∃ other, k.jobs.get? a.1 = some other ∧ other.state = .pending
  have hnonempty : pending.Nonempty :=
    ⟨⟨jobId, Dict.mem_keys.mpr ⟨job, hget⟩⟩, job, hget, hpending⟩
  obtain ⟨first, ⟨other, hother, hstate⟩, hmin⟩ := hwf.has_min pending hnonempty
  refine ⟨first.1, other, hother, hstate, ?_⟩
  intro b hdepends dep hdep hdepPending
  exact hmin ⟨b, Dict.mem_keys.mpr ⟨dep, hdep⟩⟩ ⟨dep, hdep, hdepPending⟩ (.single hdepends)

/-- While a job is not completed there is a next event. -/
theorem Invariant.exists_next (h : Invariant k) (hacyclic : Acyclic k) (hclosed : Closed k)
    (hopen : ¬AllCompleted k) : ∃ ev queue, k.queue.pop = (some ev, queue) := by
  have hsome : ∀ e, k.queue.Live e → ∃ ev queue, k.queue.pop = (some ev, queue) := by
    intro e he
    cases hpop : k.queue.pop with
    | mk popped queue =>
    obtain ⟨ev, rfl⟩ := exists_pop_of_live he hpop
    exact ⟨ev, queue, rfl⟩
  rcases h.mode with hidle | ⟨_, _, e, hbusy⟩
  · cases hnext : k.nextDispatchTime with
    | some t =>
      obtain ⟨_, e, he, _⟩ := h.dependable.dispatching t hnext (by simp)
      exact hsome e he
    | none =>
      have hstates : ∀ a other, k.jobs.get? a = some other → other.state ≠ .completed →
          other.state = .pending := by
        intro a other hget hstate
        have hready : other.state ≠ .ready := fun hready =>
          hidle.ready.mpr ⟨a, other, hget, hready⟩ hnext
        have hrunning := hidle.stopped a other hget
        have hrejected := (h.known a other hget).2.2
        cases hcase : other.state with
        | pending => rfl
        | ready => exact absurd hcase hready
        | running => exact absurd hcase hrunning
        | completed => exact absurd hcase hstate
        | rejected => exact absurd hcase hrejected
      unfold AllCompleted at hopen
      push Not at hopen
      obtain ⟨jobId, job, hget, hstate⟩ := hopen
      obtain ⟨a, other, hother, hpending, hfirst⟩ :=
        exists_first_pending hacyclic hget (hstates jobId job hget hstate)
      rcases h.dependable.waiting a other hother hpending (by simp) with ⟨e, he, _⟩ |
        ⟨_, d, hd, hmissing⟩ | hcycle
      · exact hsome e he
      · exfalso
        have hdepends : k.DependsOn a d := ⟨other, hother, hd⟩
        obtain ⟨dep, hdep⟩ := hclosed a d hdepends
        apply hfirst d hdepends dep hdep
        apply hstates d dep hdep
        exact fun hcompleted => hmissing ⟨dep, hdep, hcompleted⟩
      · exact absurd hcycle (hacyclic a)
  · exact hsome e hbusy.live

theorem Invariant.roundsLeft_eq_zero (h : Invariant k) (hall : AllCompleted k) :
    roundsLeft k = 0 := by
  have hreleases : k.queue.heap.filter isRelease = [] := by
    rw [List.filter_eq_nil_iff]
    intro e he hrelease
    unfold isRelease at hrelease
    have hlive : k.queue.Live e := ⟨he, by simp [h.dependable.uncancelled]⟩
    cases hpayload : e.payload with
    | release a =>
      obtain ⟨job, hget, _⟩ := h.dependable.releases e a hlive hpayload
      rcases h.unreleased e a job hlive hpayload hget with hstate | hstate
      · rw [hall a job hget] at hstate
        cases hstate
      · rw [hall a job hget] at hstate
        cases hstate
    | dispatch =>
      rw [hpayload] at hrelease
      cases hrelease
    | client a =>
      rw [hpayload] at hrelease
      cases hrelease
  have htotal : k.jobs.total stepsLeft = 0 := by
    unfold Dict.total
    apply List.sum_eq_zero
    intro n hn
    obtain ⟨job, hmem, rfl⟩ := List.mem_map.mp hn
    obtain ⟨a, hget⟩ := Dict.mem_values.mp hmem
    simp [stepsLeft, hall a job hget]
  unfold roundsLeft
  rw [hreleases, htotal]
  rfl

theorem Invariant.allCompleted_of_roundsLeft (h : Invariant k) (hzero : roundsLeft k = 0) :
    AllCompleted k := by
  intro a job hget
  have htotal : k.jobs.total stepsLeft = 0 := by
    unfold roundsLeft at hzero
    omega
  have hsteps : stepsLeft job = 0 := by
    have hle : stepsLeft job ≤ k.jobs.total stepsLeft :=
      List.le_sum_of_mem (List.mem_map_of_mem (Dict.mem_values.mpr ⟨a, hget⟩))
    omega
  have hrejected := (h.known a job hget).2.2
  unfold stepsLeft at hsteps
  cases hstate : job.state with
  | pending => simp [hstate] at hsteps
  | ready => simp [hstate] at hsteps
  | running => simp [hstate] at hsteps
  | completed => rfl
  | rejected => exact absurd hstate hrejected

theorem Invariant.isDone_iff (h : Invariant k) : Host.isDone k = true ↔ AllCompleted k := by
  refine ⟨fun hdone a job hget => ?_, isDone_of_allCompleted⟩
  unfold Host.isDone at hdone
  rw [List.all_eq_true] at hdone
  have hstate := hdone job (Dict.mem_values.mpr ⟨a, hget⟩)
  have hrejected := (h.known a job hget).2.2
  cases hcase : job.state with
  | completed => rfl
  | rejected => exact absurd hcase hrejected
  | _ => simp [hcase] at hstate

/-! ### Runs -/

/-- The next event of an unfinished run is in time and does not disturb the dispatcher. -/
def Safe (maxTimePs : ℤ) (k : Kernel String) : Prop :=
  ¬AllCompleted k → ∀ ev, k.queue.peek = some ev → ev.timePs ≤ maxTimePs ∧ Undisturbed k ev

theorem peek_of_pop (hpop : k.queue.pop = (some ev, queue)) : k.queue.peek = some ev := by
  rw [EventQueue.peek_eq_pop, hpop]

theorem pop_of_peek (hpeek : k.queue.peek = some ev) : ∃ queue, k.queue.pop = (some ev, queue) := by
  rw [EventQueue.peek_eq_pop] at hpeek
  exact ⟨k.queue.pop.2, Prod.ext hpeek rfl⟩

theorem Invariant.run_next (h : Invariant k) (hopen : ¬AllCompleted k)
    (hpop : k.queue.pop = (some ev, queue)) (htime : ev.timePs ≤ maxTimePs)
    (hok : (serialClient choice).host.processEvent k = .ok k') (n : ℕ) :
    (serialClient choice).host.runUntilComplete maxTimePs (n + 1) k =
      (serialClient choice).host.runUntilComplete maxTimePs n k' := by
  have hdone : Host.isDone k = false := by
    rw [← Bool.not_eq_true, h.isDone_iff]
    exact hopen
  rcases Host.runUntilComplete_step (h := (serialClient choice).host) hdone n with
    ⟨hlate, _⟩ | ⟨_, _, _, heq⟩
  · have hlater : maxTimePs < ev.timePs := hlate ev (peek_of_pop hpop)
    omega
  · rw [heq, hok]
    rfl

/-- A run whose events are all safe completes every job, one step for each event. -/
theorem Invariant.completes (h : Invariant k) (hacyclic : Acyclic k) (hclosed : Closed k) {n : ℕ}
    (hrounds : roundsLeft k ≤ n)
    (hsafe : ∀ m k', (serialClient choice).host.runUntilComplete maxTimePs m k = .ok k' →
      Safe maxTimePs k') :
    ∃ k', (serialClient choice).host.runUntilComplete maxTimePs n k = .ok k' ∧ AllCompleted k' ∧
      Invariant k' ∧ SameJobs k k' := by
  induction n generalizing k with
  | zero => exact ⟨k, rfl, h.allCompleted_of_roundsLeft (by omega), h, .refl k⟩
  | succ n ih =>
    by_cases hall : AllCompleted k
    · exact ⟨k, Host.runUntilComplete_done (h := (serialClient choice).host)
        (isDone_of_allCompleted hall) _, hall, h, .refl k⟩
    · obtain ⟨ev, queue, hpop⟩ := h.exists_next hacyclic hclosed hall
      obtain ⟨htime, hundisturbed⟩ := hsafe 0 k rfl hall ev (peek_of_pop hpop)
      obtain ⟨k₁, hok, h₁, hsame, hstep⟩ := h.step choice hpop hundisturbed
      have hrun := h.run_next hall hpop htime hok
      obtain ⟨k', hrest, hall', h', hsame'⟩ := ih h₁ (hsame.acyclic hacyclic)
        (hsame.closed.mpr hclosed) (by omega) (fun m k' hm => hsafe (m + 1) k' (by rw [hrun, hm]))
      exact ⟨k', by rw [hrun, hrest], hall', h', hsame.trans hsame'⟩

/-- A run that completes every job has only safe events and at least as many rounds as steps. -/
theorem Invariant.safe_of_completes (h : Invariant k) {n : ℕ}
    (hrun : (serialClient choice).host.runUntilComplete maxTimePs n k = .ok k')
    (hall : AllCompleted k') :
    roundsLeft k ≤ n ∧ Invariant k' ∧ SameJobs k k' ∧
      ∀ m k₁, (serialClient choice).host.runUntilComplete maxTimePs m k = .ok k₁ →
        Safe maxTimePs k₁ := by
  induction n generalizing k with
  | zero =>
    cases hrun
    refine ⟨(h.roundsLeft_eq_zero hall).le, h, .refl _, fun m k₁ hm hopen => ?_⟩
    rw [Host.runUntilComplete_done (h := (serialClient choice).host)
      (isDone_of_allCompleted hall)] at hm
    cases hm
    exact absurd hall hopen
  | succ n ih =>
    by_cases hdone : AllCompleted k
    · have hstays : ∀ m, (serialClient choice).host.runUntilComplete maxTimePs m k = .ok k :=
        Host.runUntilComplete_done (h := (serialClient choice).host) (isDone_of_allCompleted hdone)
      cases (hstays _).symm.trans hrun
      refine ⟨?_, h, .refl _, fun m k₁ hm hopen => ?_⟩
      · rw [h.roundsLeft_eq_zero hdone]
        omega
      · cases (hstays m).symm.trans hm
        exact absurd hdone hopen
    · rcases runUntilComplete_cases hrun hall with hdone' | ⟨ev, m, k₁, _, hpeek, htime, hn, hok, hrest⟩
      · exact absurd hdone' hdone
      · obtain rfl : n = m := by omega
        obtain ⟨queue, hpop⟩ := pop_of_peek hpeek
        by_cases hundisturbed : Undisturbed k ev
        · obtain ⟨k₂, hok₂, h₂, hsame, hstep⟩ := h.step choice hpop hundisturbed
          cases hok₂.symm.trans hok
          obtain ⟨hrounds, h', hsame', hsafe⟩ := ih h₂ hrest
          refine ⟨by omega, h', hsame.trans hsame', fun m k₁ hm => ?_⟩
          cases m with
          | zero =>
            cases hm
            intro _ ev' hev'
            cases hpeek.symm.trans hev'
            exact ⟨htime, hundisturbed⟩
          | succ m =>
            rw [h.run_next hdone hpop htime hok] at hm
            exact hsafe m k₁ hm
        · exact absurd hall (h.fails_of_disturbed choice hpop hundisturbed _ _ hrun)

end Serial

end NpuArc
