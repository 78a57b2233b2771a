import Mathlib.Algebra.Order.BigOperators.Group.List
import NpuArc.Runner.Runs

/-!
# The recovery time

The runner records as its recovery time the first recovery check of the recovery phase
that finds no backlog. The backlog does not count pending mailbox items, because the
mailboxes are asked for their dictionary key instead of their stream.
-/

namespace NpuArc

namespace Runner

variable {c : CompiledScenario} {s s' : RunnerState} {t : RunnerCore}

/-- A time of the recovery phase. -/
def InRecovery (c : CompiledScenario) (timePs : ℤ) : Prop :=
  (recoveryPhaseStartPs c).any (fun start => decide (start ≤ timePs)) = true

instance (timePs : ℤ) : Decidable (InRecovery c timePs) := inferInstanceAs (Decidable (_ = _))

/-- No job is queued in a FIFO, running, or preempted. -/
def Drained (c : CompiledScenario) (t : RunnerCore) : Prop :=
  (∀ cls ∈ c.scenario.classes, t.fifoAt (fifoKey cls.id) = []) ∧ t.running.keys = [] ∧
    t.preempted = []

instance : Decidable (Drained c t) := inferInstanceAs (Decidable (_ ∧ _))

/-- No job is pending in a mailbox. -/
def NonePending (c : CompiledScenario) (t : RunnerCore) : Prop :=
  ∀ cls ∈ c.scenario.classes, t.pendingAt (mailboxKey cls.stream) cls.stream = none

instance : Decidable (NonePending c t) := inferInstanceAs (Decidable (∀ cls ∈ _, _))

/-! ### The backlog -/

/-- The key of a mailbox is not the name of its stream. -/
theorem mailboxKey_ne (stream : String) : mailboxKey stream ≠ stream := by
  intro h
  have hlength := congrArg (fun key : String => key.toList.length) h
  simp only [mailboxKey, String.toList_append, List.length_append] at hlength
  have hprefix : "mailbox:".toList.length = 8 := by decide
  omega

/-- The runner sees no backlog exactly when no job is queued in a FIFO, running, or
preempted; pending items do not count. -/
theorem backlogCount_eq_zero (hp : Places c s) :
    backlogCount s = 0 ↔ Drained c s.toRunnerCore := by
  have hmailboxes : (s.mailboxes.entries.filter fun e => e.2.hasPending e.1) = [] := by
    refine List.filter_eq_nil_iff.mpr fun e he hpending => ?_
    rw [MailboxLatest.hasPending_eq_isSome] at hpending
    obtain ⟨jobId, hjob⟩ := Option.isSome_iff_exists.mp hpending
    have hat : s.pendingAt e.1 e.1 = some jobId := by
      rw [RunnerCore.pendingAt, Dict.get?_eq_some.mpr he]
      exact hjob
    obtain ⟨_, hkey, hstream, _⟩ := hp.pending _ _ _ hat
    exact mailboxKey_ne _ (hkey.symm.trans hstream)
  have hfifos : (s.fifoQueues.values.map (·.size)).sum = 0 ↔
      ∀ cls ∈ c.scenario.classes, s.fifoAt (fifoKey cls.id) = [] := by
    simp only [List.sum_eq_zero_iff, List.forall_mem_map, Dict.mem_values, forall_exists_index,
      BoundedFIFO.size_eq_length, List.length_eq_zero_iff]
    constructor
    · intro h cls _
      cases hq : s.fifoQueues.get? (fifoKey cls.id) with
      | none => simp [RunnerCore.fifoAt, hq]
      | some q => simpa [RunnerCore.fifoAt, hq] using h q _ hq
    · intro h q key hq
      obtain ⟨cls, hcls, _, hkey⟩ := hp.fifo_class key q.capacity
        (by rw [RunnerCore.capacityAt, hq]; rfl)
      have hempty := h cls hcls
      rw [← hkey, RunnerCore.fifoAt, hq] at hempty
      exact hempty
  have hrunning : s.running.size = 0 ↔ s.running.keys = [] := by
    rw [Dict.size, Dict.keys, List.map_eq_nil_iff, List.length_eq_zero_iff]
  unfold backlogCount Drained
  rw [hmailboxes, List.length_nil, add_zero, Nat.add_eq_zero_iff, Nat.add_eq_zero_iff, hfifos,
    hrunning, List.length_eq_zero_iff, and_assoc]

/-- A recovery check that records the recovery time: none is recorded yet, the recovery
phase has begun, and no job is queued in a FIFO, running, or preempted. -/
def Records (c : CompiledScenario) (t : RunnerCore) : Prop :=
  t.recoveryRecorded = false ∧ InRecovery c t.now ∧ Drained c t

instance : Decidable (Records c t) := inferInstanceAs (Decidable (_ ∧ _))

/-- A recovery check records the present time or nothing. -/
theorem maybeRecordRecovery_eq (hp : Places c s) : maybeRecordRecovery c s =
    if Records c s.toRunnerCore then
      { s.log .check with
        collector := s.collector.recordRecoveryTime s.now
        recoveryRecorded := true }
    else s.log .check := by
  have hphase : (recoveryPhaseStartPs c).all
      (fun t => decide ((s.log .check).kernel.nowPs < t)) = true ↔ ¬InRecovery c s.now := by
    unfold InRecovery RunnerCore.now
    cases recoveryPhaseStartPs c with
    | none => simp
    | some start =>
      simp only [Option.all_some, Option.any_some, decide_eq_true_iff, not_le]
      exact Iff.rfl
  have hzero : backlogCount (s.log .check) = 0 ↔ Drained c s.toRunnerCore := by
    have hs := backlogCount_eq_zero hp
    exact hs
  unfold maybeRecordRecovery
  dsimp only
  by_cases hrecords : Records c s.toRunnerCore
  · obtain ⟨hnone, hin, hdrained⟩ := hrecords
    have hnone' : ¬(s.log .check).recoveryRecorded = true := by
      rw [Bool.not_eq_true]
      exact hnone
    rw [if_pos (show Records c s.toRunnerCore from ⟨hnone, hin, hdrained⟩), if_neg hnone', if_neg fun h => hphase.mp h hin,
      if_pos (hzero.mpr hdrained)]
    rfl
  · rw [if_neg hrecords]
    split_ifs with hnone hearly hdrained
    · rfl
    · rfl
    · have hin : InRecovery c s.now := by
        by_contra h
        exact hearly (hphase.mpr h)
      exact absurd ⟨Bool.not_eq_true _ ▸ hnone, hin, hzero.mp hdrained⟩ hrecords
    · rfl

/-! ### The recorded time -/

/-- The recorded time is that of the one recovery check that recorded it. -/
structure RecoveryLogged (c : CompiledScenario) (s : RunnerState) : Prop where
  recorded : s.recoveryRecorded = s.collector.recoveryTimePs.isSome
  time_le : ∀ timePs, s.collector.recoveryTimePs = some timePs → timePs ≤ s.now
  logged : ∀ timePs, s.collector.recoveryTimePs = some timePs →
    ∃ t, (.check, t) ∈ s.history ∧ Records c t ∧ t.now = timePs
  records : ∀ t, (.check, t) ∈ s.history → Records c t →
    s.collector.recoveryTimePs = some t.now
  unique : ∀ t t', (.check, t) ∈ s.history → Records c t → (.check, t') ∈ s.history →
    Records c t' → t = t'

/-- A step that logs no recording check keeps the recorded time. -/
private theorem RecoveryLogged.of_frame (h : RecoveryLogged c s)
    (hrecovery : s'.collector.recoveryTimePs = s.collector.recoveryTimePs ∧
      s'.recoveryRecorded = s.recoveryRecorded) (hnow : s.now ≤ s'.now)
    (hsub : s.history ⊆ s'.history)
    (hnew : ∀ t, (.check, t) ∈ s'.history → Records c t → (.check, t) ∈ s.history) :
    RecoveryLogged c s' where
  recorded := by rw [hrecovery.1, hrecovery.2, h.recorded]
  time_le timePs ht := (h.time_le timePs (hrecovery.1 ▸ ht)).trans hnow
  logged timePs ht := by
    obtain ⟨t, hmem, ht⟩ := h.logged timePs (hrecovery.1 ▸ ht)
    exact ⟨t, hsub hmem, ht⟩
  records t hmem ht := by
    rw [hrecovery.1]
    exact h.records t (hnew t hmem ht) ht
  unique t t' hmem ht hmem' ht' := h.unique t t' (hnew t hmem ht) ht (hnew t' hmem' ht') ht'

/-- A step that logs some other action. -/
private theorem RecoveryLogged.of_action (h : RecoveryLogged c s) {a : Action} {t : RunnerCore}
    (ha : a ≠ .check) (hhistory : s'.history = (a, t) :: s.history)
    (hrecovery : s'.collector.recoveryTimePs = s.collector.recoveryTimePs ∧
      s'.recoveryRecorded = s.recoveryRecorded) (hnow : s.now ≤ s'.now) :
    RecoveryLogged c s' := by
  refine h.of_frame hrecovery hnow ?_ fun u hu _ => ?_
  · rw [hhistory]
    exact List.subset_cons_self _ _
  · rw [hhistory] at hu
    rcases List.mem_cons.mp hu with heq | hu
    · cases heq
      exact absurd rfl ha
    · exact hu

private theorem RecoveryLogged.check (h : RecoveryLogged c s) (hp : Places c s) :
    RecoveryLogged c (maybeRecordRecovery c s) := by
  rw [maybeRecordRecovery_eq hp]
  split_ifs with hrecords
  · -- the first check that records: no time was recorded before
    have hnone : s.collector.recoveryTimePs = none := by
      rw [← Option.not_isSome_iff_eq_none, ← h.recorded, hrecords.1]
      exact Bool.false_ne_true
    have hold : ∀ u, (Action.check, u) ∈ s.history → ¬Records c u := by
      intro u hu hru
      have hsome := h.records u hu hru
      rw [hnone] at hsome
      cases hsome
    have hmem : ∀ u, (Action.check, u) ∈ (Action.check, s.toRunnerCore) :: s.history →
        Records c u → u = s.toRunnerCore := by
      intro u hu hru
      rcases List.mem_cons.mp hu with heq | hu
      · cases heq
        rfl
      · exact absurd hru (hold u hu)
    have htime : (s.collector.recordRecoveryTime s.now).recoveryTimePs = some s.now := by
      simp [MetricsCollector.recordRecoveryTime, hnone]
    refine ⟨by simp [htime], fun timePs ht => ?_, fun timePs ht => ?_, fun u hu hru => ?_,
      fun u u' hu hru hu' hru' => (hmem u hu hru).trans (hmem u' hu' hru').symm⟩
    · simp only [htime, Option.some.injEq] at ht
      exact ht.symm.le
    · simp only [htime, Option.some.injEq] at ht
      exact ⟨s.toRunnerCore, List.mem_cons_self, hrecords, ht⟩
    · simp only [htime]
      rw [hmem u hu hru]
  · refine h.of_frame ⟨rfl, rfl⟩ le_rfl (List.subset_cons_self _ _) fun u hu hru => ?_
    rcases List.mem_cons.mp hu with heq | hu
    · cases heq
      exact absurd hru hrecords
    · exact hu

/-- Every step keeps the recorded time in order. -/
theorem RecoveryLogged.step (h : RecoveryLogged c s) (hp : Places c s)
    (hnow : s.now ≤ s'.now) (hstep : Step c s s') : RecoveryLogged c s' := by
  cases hstep with
  | dispatch _ _ => exact h.of_frame ⟨rfl, rfl⟩ hnow (List.Subset.refl _) fun _ hu _ => hu
  | stale _ _ _ => exact h.of_frame ⟨rfl, rfl⟩ hnow (List.Subset.refl _) fun _ hu _ => hu
  | request _ => exact h.of_frame ⟨rfl, rfl⟩ hnow (List.Subset.refl _) fun _ hu _ => hu
  | offer _ => exact h.of_action (by simp) rfl ⟨rfl, rfl⟩ hnow
  | arrive _ _ _ hr => exact h.of_action (by simp) hr.history hr.recovery hnow
  | complete _ _ _ hr => exact h.of_action (by simp) hr.history hr.recovery hnow
  | start _ _ hs => exact h.of_action (by simp) hs.history hs.recovery hnow
  | preempt _ hs => exact h.of_action (by simp) hs.history hs.recovery hnow
  | check heq _ =>
    rw [heq]
    exact h.check hp

theorem Visited.recoveryLogged (hc : c.WellFormed) (h : Visited c s) : RecoveryLogged c s := by
  induction h with
  | init h =>
    obtain ⟨k, rfl⟩ := scheduleArrivals_spec h
    refine ⟨rfl, ?_, ?_, ?_, ?_⟩ <;> simp [Runner.init]
  | step hs h ih => exact ih.step (hs.places hc) ((hs.timers hc).now_le hc (hs.places hc) h) h

/-! ### Idle instants -/

/-- An event takes the runner to a first state, and further events to a second one. -/
def HandledBefore (c : CompiledScenario) (w s : RunnerState) : Prop :=
  ∃ s₀ n, Reachable c s₀ ∧ (nextEvent c s₀).isSome ∧ (host c).processEvent s₀ = .ok w ∧
    Events c n w s

theorem Events.steps (hc : c.WellFormed) {n : ℕ} (hv : Visited c s) (h : Events c n s s') :
    Steps c s s' := by
  induction h with
  | zero s => exact .refl
  | succ hnext h _ ih =>
    obtain ⟨ev, hev⟩ := Option.isSome_iff_exists.mp hnext
    obtain ⟨k, hpop, hinvoke, _⟩ := processEvent_eq_ok hev h
    have hsteps := steps_invoke hc hv hpop hinvoke
    exact hsteps.trans (ih (hv.steps hsteps))

/-- The handling of an event ends with a recovery check, up to a dispatch request. -/
theorem processEvent_check (hc : c.WellFormed) (hs : Reachable c s)
    (hnext : (nextEvent c s).isSome) (h : (host c).processEvent s = .ok s') :
    ∃ t k, Steps c s t ∧ k.nowPs = (maybeRecordRecovery c t).kernel.nowPs ∧
      s' = { maybeRecordRecovery c t with kernel := k } := by
  obtain ⟨ev, hev⟩ := Option.isSome_iff_exists.mp hnext
  obtain ⟨k, hpop, hinvoke, _⟩ := processEvent_eq_ok hev h
  have hv := hs.visited hc
  have htimers := hv.timers hc
  have hlive := (htimers.advanced hpop).live
  obtain ⟨p, hpayload, hr⟩ := htimers.payload hlive
  rw [hpayload] at hinvoke
  cases p with
  | arrival r =>
    obtain ⟨v, t, hv', _, _, ht, rfl⟩ := steps_arrival hc hv hpop hpayload (hr r rfl) hinvoke
    exact ⟨t, _, hv'.trans ht.steps, rfl, rfl⟩
  | dispatch =>
    have hstep : Step c s { s with kernel := k } := .dispatch hpop hpayload
    obtain ⟨t, ht, rfl⟩ := steps_dispatch hc (hv.step hstep) hinvoke
    exact ⟨t, _, .head hstep ht.steps, rfl, rfl⟩
  | complete jobId =>
    rcases steps_complete hpop hpayload hinvoke with ⟨hidle, _⟩ | ⟨t, hstep, hrequest⟩
    · exact absurd (Dict.mem_keys.mpr ⟨_, htimers.timer_unique hlive hpayload⟩) hidle
    · obtain ⟨_, rfl⟩ := scheduleDispatch_eq_ok.mp hrequest
      refine ⟨t, _, .single hstep, ?_, rfl⟩
      rfl

/-- `Drained` does not depend on the kernel, the metrics, or the mailboxes. -/
theorem Drained.congr {t' : RunnerCore} (hfifo : t'.fifoQueues = t.fifoQueues)
    (hrunning : t'.running = t.running) (hpreempted : t'.preempted = t.preempted) :
    Drained c t' ↔ Drained c t := by
  unfold Drained RunnerCore.fifoAt
  rw [hfifo, hrunning, hpreempted]

/-- After an event of the recovery phase that leaves no job queued in a FIFO, running, or
preempted, the recovery time is recorded. -/
theorem recorded_of_drained (hc : c.WellFormed) (hs : Reachable c s)
    (hnext : (nextEvent c s).isSome) (h : (host c).processEvent s = .ok s')
    (hin : InRecovery c s'.now) (hdrained : Drained c s'.toRunnerCore) :
    s'.recoveryRecorded = true := by
  obtain ⟨t, k, hsteps, hkernel, rfl⟩ := processEvent_check hc hs hnext h
  have hchecked := maybeRecordRecovery_spec (c := c) t
  have hin' : InRecovery c t.now := by
    rw [RunnerCore.now, hkernel, hchecked.kernel] at hin
    exact hin
  have hdrained' : Drained c t.toRunnerCore :=
    (Drained.congr hchecked.fifoQueues hchecked.running hchecked.preempted).mp hdrained
  change (maybeRecordRecovery c t).recoveryRecorded = true
  rw [maybeRecordRecovery_eq (((hs.visited hc).steps hsteps).places hc)]
  split_ifs with hrecords
  · rfl
  · by_contra hfalse
    exact hrecords ⟨Bool.not_eq_true _ ▸ hfalse, hin', hdrained'⟩

/-- Once the recovery time is recorded it does not change. -/
theorem recoveryTime_steps (hc : c.WellFormed) (hv : Visited c s) (h : Steps c s s')
    {timePs : ℤ} (htime : s.collector.recoveryTimePs = some timePs) :
    s'.collector.recoveryTimePs = some timePs := by
  obtain ⟨t, hmem, hrecords, rfl⟩ := (hv.recoveryLogged hc).logged timePs htime
  exact ((hv.steps h).recoveryLogged hc).records t (h.history.subset hmem) hrecords

/-- The recovery time was recorded in the recovery phase, in a state in which no job was
queued, pending, running, or preempted, and no event of the recovery phase left the runner
in such a state at an earlier time. -/
def RecoverySound (c : CompiledScenario) (s : RunnerState) : Prop :=
  ∀ timePs, s.collector.recoveryTimePs = some timePs →
    (InRecovery c timePs ∧ ∃ t, (.check, t) ∈ s.history ∧ t.recoveryRecorded = false ∧
      t.now = timePs ∧ Drained c t ∧ NonePending c t) ∧
    ∀ w, HandledBefore c w s → InRecovery c w.now → Drained c w.toRunnerCore →
      NonePending c w.toRunnerCore → timePs ≤ w.now

/-- The recorded recovery time is sound exactly when no recovery check of the recovery
phase that finds no job queued in a FIFO, running, or preempted, and no time recorded yet,
finds a job pending in a mailbox. -/
theorem recovery_sound_iff {sc : Scenario} {plan : Option ℤ} (hv : sc.validate = .ok ())
    (hcompile : compileScenario sc plan = .ok c) (hs : Reachable c s) :
    RecoverySound c s ↔
      ∀ t, (.check, t) ∈ s.history → Records c t → NonePending c t := by
  obtain ⟨rfl, hc⟩ := compileScenario_wellFormed hv hcompile
  have hvisited := hs.visited hc
  have hlogged := hvisited.recoveryLogged hc
  constructor
  · intro h t hmem hrecords
    obtain ⟨⟨hin, u, hu, hunrecorded, htime, hdrained, hpending⟩, _⟩ :=
      h t.now (hlogged.records t hmem hrecords)
    -- only one check records, so the idle state is the one of this check
    have hrecords' : Records c u := ⟨hunrecorded, htime ▸ hin, hdrained⟩
    rw [hlogged.unique t u hmem hrecords hu hrecords']
    exact hpending
  · intro h timePs htime
    obtain ⟨t, hmem, hrecords, rfl⟩ := hlogged.logged timePs htime
    refine ⟨⟨hrecords.2.1, t, hmem, hrecords.1, rfl, hrecords.2.2, h t hmem hrecords⟩, ?_⟩
    rintro w ⟨s₀, n, hs₀, hnext, hw, hevents⟩ hin hdrained _
    obtain ⟨ev, hev⟩ := Option.isSome_iff_exists.mp hnext
    have hvw := (hs₀.step hev hw).visited hc
    have hrecorded := recorded_of_drained hc hs₀ hnext hw hin hdrained
    rw [(hvw.recoveryLogged hc).recorded] at hrecorded
    obtain ⟨timePs', htime'⟩ := Option.isSome_iff_exists.mp hrecorded
    have hsame := recoveryTime_steps hc hvw (hevents.steps hc hvw) htime'
    rw [htime, Option.some.injEq] at hsame
    rw [hsame]
    exact (hvw.recoveryLogged hc).time_le timePs' htime'

/-- A mailbox job waits while a FIFO job runs; the recovery phase begins in between. -/
def waitingMailbox : Scenario :=
  { traceScenario
      [traceClass "A" [0] 5 0 [("compute", 1)],
        { traceClass "M" [1] 5 0 [("compute", 1)] with
          queuePolicy := .mailboxLatest }] [] with
    recoveryPhaseStartMs := some 2 }

/-- The recovery time is recorded when the FIFO job completes, at which time the mailbox
job is pending in every state of the run. -/
theorem waitingMailbox_records_early : waitingMailbox.validate = .ok () ∧
    ∃ c s, compileScenario waitingMailbox none = .ok c ∧ Reachable c s ∧
      s.collector.recoveryTimePs = some (msToPs 5) ∧ ¬RecoverySound c s := by
  have htest : testAfter waitingMailbox 8 (fun c s =>
      decide (s.collector.recoveryTimePs = some (msToPs 5)) && s.history.all fun e =>
        decide ¬(e.2.now = msToPs 5 ∧ Drained c e.2 ∧ NonePending c e.2)) = true := by
    decide +kernel
  obtain ⟨hv, c, s, hcompile, hs, htest⟩ := of_testAfter htest
  simp only [Bool.and_eq_true, decide_eq_true_eq, List.all_eq_true] at htest
  refine ⟨hv, c, s, hcompile, hs, htest.1, fun h => ?_⟩
  obtain ⟨⟨_, t, hmem, _, htime, hidle⟩, _⟩ := h _ htest.1
  exact htest.2 _ hmem ⟨htime, hidle⟩

/-- Without the mailbox job the recovery time is that of the last completion. -/
theorem recovery_sound_iff_fifo : ∃ c s, Reachable c s ∧
    s.collector.recoveryTimePs = some (msToPs 5) ∧ RecoverySound c s := by
  have htest : testAfter
      { traceScenario [traceClass "A" [0] 5 0 [("compute", 1)]] [] with
        recoveryPhaseStartMs := some 2 } 4 (fun c s =>
      decide (s.collector.recoveryTimePs = some (msToPs 5)) && s.history.all fun e =>
        decide (Records c e.2 → NonePending c e.2)) = true := by decide +kernel
  obtain ⟨hv, c, s, hcompile, hs, htest⟩ := of_testAfter htest
  simp only [Bool.and_eq_true, decide_eq_true_eq, List.all_eq_true] at htest
  exact ⟨c, s, hs, htest.1, (recovery_sound_iff hv hcompile hs).mpr fun t ht => htest.2 _ ht⟩

end Runner

end NpuArc
