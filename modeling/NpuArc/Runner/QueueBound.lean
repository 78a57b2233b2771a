import NpuArc.Runner.Runs

/-!
# The bound on FIFO queues

Arrivals respect the capacity of a FIFO and never repeat a job. A preemption puts its
victim back without looking, so the bound holds exactly as long as every preempted FIFO
job finds room in its queue and is not queued already.
-/

namespace NpuArc

namespace Runner

variable {c : CompiledScenario} {s s' : RunnerState} {jobId : String}

/-- Each class FIFO is within its capacity and holds no job twice. -/
def Bounded (c : CompiledScenario) (s : RunnerState) : Prop :=
  ∀ cls ∈ c.scenario.classes, cls.queuePolicy = .fifo →
    (s.fifoAt (fifoKey cls.id)).length ≤ cls.queueCapacity ∧ (s.fifoAt (fifoKey cls.id)).Nodup

/-- The FIFO of a job's class has a free slot and does not hold the job. -/
def HasRoomFor (c : CompiledScenario) (jobId : String) (t : RunnerCore) : Prop :=
  IsFifo c jobId →
    (fifoOf c jobId t).length < (classFor c jobId).queueCapacity ∧ jobId ∉ fifoOf c jobId t

instance (t : RunnerCore) : Decidable (HasRoomFor c jobId t) :=
  inferInstanceAs (Decidable (_ → _))

/-- The bound depends on the contents of the queues. -/
theorem Bounded.congr (h : Bounded c s) (hfifo : ∀ key, s'.fifoAt key = s.fifoAt key) :
    Bounded c s' := by
  intro cls hcls hpolicy
  rw [hfifo]
  exact h cls hcls hpolicy

/-- A queued arrival found room, and was queued nowhere before. -/
theorem Bounded.arrive (hp : Places c s) (h : Bounded c s) {r : JobRelease}
    (hr : Received c r s s') : Bounded c s' := by
  cases hr.fate with
  | rejected hfifo => exact h.congr hfifo
  | dropped _ hfifo => exact h.congr hfifo
  | posted _ hfifo => exact h.congr hfifo
  | queued hF capacity hcapacity hroom hfifo =>
    intro cls hcls hpolicy
    rw [hfifo]
    split_ifs with hkey
    · rw [← hkey, hp.capacity cls hcls hpolicy, Option.some.injEq] at hcapacity
      rw [← hkey, ← hcapacity] at hroom
      rw [List.length_append, List.length_singleton]
      refine ⟨hroom, ?_⟩
      refine List.Nodup.append (h cls hcls hpolicy).2 (List.nodup_singleton _) ?_
      intro a ha hnew
      rw [List.mem_singleton.mp hnew] at ha
      exact (hp.queued _ _ ha).2.2 hr.fresh
    · exact h cls hcls hpolicy

theorem Bounded.setKernel (h : Bounded c s) (k : Kernel RunnerPayload) :
    Bounded c { s with kernel := k } := h

theorem Bounded.start (h : Bounded c s) {ev : RunnerEvent} (hs : Started c jobId s s' ev) :
    Bounded c s' := by
  intro cls hcls hpolicy
  obtain ⟨hlength, hnodup⟩ := h cls hcls hpolicy
  have hsub : (s'.fifoAt (fifoKey cls.id)).Sublist (s.fifoAt (fifoKey cls.id)) := by
    rw [hs.fifoAt, fifoAfterTake]
    split_ifs
    · exact List.tail_sublist _
    · exact List.Sublist.refl _
  exact ⟨hsub.length_le.trans hlength, hnodup.sublist hsub⟩

/-- A preemption keeps the bound if and only if its victim finds room. -/
theorem Bounded.preempt_iff (hc : c.WellFormed) (hp : Places c s) (h : Bounded c s)
    {ev : RunnerEvent} (hrunning : s.running.get? jobId = some ev)
    (hs : Preempted c jobId s s' ev) : Bounded c s' ↔ HasRoomFor c jobId s.toRunnerCore := by
  have hmove := (hp.running jobId).mp (Dict.mem_keys.mpr ⟨ev, hrunning⟩)
  have hcls := classFor_mem hc (hp.known jobId (hp.moved jobId (by simp [hmove])))
  by_cases hF : IsFifo c jobId
  · have hown : s'.fifoAt (fifoKeyOf c jobId) = jobId :: fifoOf c jobId s.toRunnerCore := by
      rw [hs.fifoAt, fifoAfterReturn, if_pos]
      · rfl
      · exact ⟨hF, rfl, by rw [fifoKeyOf, hp.capacity _ hcls hF]; rfl⟩
    constructor
    · intro h' _
      obtain ⟨hlength, hnodup⟩ := h' _ hcls hF
      change (s'.fifoAt (fifoKeyOf c jobId)).length ≤ _ at hlength
      change (s'.fifoAt (fifoKeyOf c jobId)).Nodup at hnodup
      rw [hown] at hlength hnodup
      rw [List.length_cons] at hlength
      exact ⟨hlength, (List.nodup_cons.mp hnodup).1⟩
    · intro hroom cls hcls' hpolicy
      by_cases hkey : fifoKey cls.id = fifoKeyOf c jobId
      · obtain rfl := class_eq_of_id hc hcls' hcls (fifoKey_injective hkey)
        rw [hkey, hown]
        exact ⟨(hroom hF).1, List.nodup_cons.mpr ⟨(hroom hF).2, (h _ hcls hF).2⟩⟩
      · rw [hs.fifoAt, fifoAfterReturn, if_neg fun hcond => hkey hcond.2.1]
        exact h cls hcls' hpolicy
  · refine ⟨fun _ hF' => absurd hF' hF, fun _ => h.congr fun key => ?_⟩
    rw [hs.fifoAt, fifoAfterReturn, if_neg fun hcond => hF hcond.1]

/-- Every step keeps the bound, provided preempted jobs find room. -/
theorem Bounded.step (hc : c.WellFormed) (hp : Places c s) (hstep : Step c s s')
    (h : Bounded c s)
    (hroom : ∀ jobId t, (.preempt jobId, t) ∈ s'.history → HasRoomFor c jobId t) :
    Bounded c s' := by
  cases hstep with
  | dispatch _ _ => exact h
  | arrive _ _ _ hr => exact Bounded.arrive (hp.setKernel _) (h.setKernel _) hr
  | complete _ _ _ hr => exact h.congr hr.fifoAt
  | stale _ _ _ => exact h
  | offer _ => exact h
  | start _ _ hs => exact h.start hs
  | preempt hrunning hs =>
    refine (h.preempt_iff hc hp hrunning hs).mpr (hroom _ s.toRunnerCore ?_)
    rw [hs.history]
    exact List.mem_cons_self
  | check _ hs =>
    refine h.congr fun key => ?_
    rw [RunnerCore.fifoAt, hs.fifoQueues]
    rfl
  | request _ => exact h

theorem bounded_init (hc : c.WellFormed) (h : scheduleArrivals c (init c) = .ok s) :
    Bounded c s := by
  have hp := places_init hc h
  obtain ⟨k, rfl⟩ := scheduleArrivals_spec h
  intro cls hcls hpolicy
  -- no job has a record yet, so none is queued
  have hempty : RunnerCore.fifoAt { init c with kernel := k }.toRunnerCore (fifoKey cls.id) = [] := by
    refine List.eq_nil_iff_forall_not_mem.mpr fun a ha => ?_
    exact (hp.queued _ a ha).2.2 (by simp [RunnerCore.verdict, MetricsCollector.verdict, init])
  rw [hempty]
  exact ⟨Nat.zero_le _, List.nodup_nil⟩

/-- The FIFO queues stay within their bounds exactly as long as every preempted FIFO job
finds a free slot in its queue and is not queued already. -/
theorem queue_bound_iff {sc : Scenario} {plan : Option ℤ} (hv : sc.validate = .ok ())
    (hcompile : compileScenario sc plan = .ok c) (hs : Attained c s) :
    (∀ m, Moment s m → Bounded c m) ↔
      ∀ jobId t, (.preempt jobId, t) ∈ s.history → HasRoomFor c jobId t := by
  obtain ⟨rfl, hc⟩ := compileScenario_wellFormed hv hcompile
  have hvisited := hs.visited hc
  constructor
  · intro h jobId t ht
    refine hvisited.logged_of_moments (P := Bounded c)
      (G := fun a t => ∀ jobId, a = .preempt jobId → HasRoomFor c jobId t)
      (fun _ k h => h.setKernel k) ?_ h _ t ht jobId rfl
    rintro s s' hs hstep hs₀ hs₁ _ t hhistory jobId rfl
    obtain ⟨rfl, ev, hrunning, hpre⟩ := hstep.logged hhistory
    exact (hs₀.preempt_iff hc (hs.places hc) hrunning hpre).mp hs₁
  · intro h
    refine hvisited.moments_of_logged
      (G := fun a t => ∀ jobId, a = .preempt jobId → HasRoomFor c jobId t)
      (fun s => bounded_init hc) (fun _ k h => h.setKernel k) ?_ ?_
    · intro s s' hs hstep hs₀ hall
      exact hs₀.step hc (hs.places hc) hstep fun jobId t ht => hall _ t ht jobId rfl
    · rintro _ t ht jobId rfl
      exact h jobId t ht

/-- A class with a FIFO of one slot, one of whose jobs is preempted while another waits. -/
def fullQueue : Scenario :=
  traceScenario
    [{ traceClass "A" [0, 0] 10 0 [("compute", 1)] with queueCapacity := 1 },
      traceClass "H" [1] 5 1 [("compute", 1)]] []

/-- The preempted job is put back into a full queue. -/
theorem fullQueue_overflows : fullQueue.validate = .ok () ∧
    ∃ c s, compileScenario fullQueue none = .ok c ∧ Reachable c s ∧ ¬Bounded c s := by
  have htest : testAfter fullQueue 6 (fun c s => c.scenario.classes.any fun cls =>
      decide (cls.queuePolicy = .fifo ∧
        cls.queueCapacity < (s.fifoAt (fifoKey cls.id)).length)) = true := by decide +kernel
  obtain ⟨hv, c, s, hcompile, hs, htest⟩ := of_testAfter htest
  obtain ⟨cls, hcls, hover⟩ := List.any_eq_true.mp htest
  obtain ⟨hpolicy, hover⟩ := of_decide_eq_true hover
  exact ⟨hv, c, s, hcompile, hs, fun h => absurd (h cls hcls hpolicy).1 (not_le.mpr hover)⟩

/-- With a second slot the preempted job fits. -/
theorem queue_bound_iff_room : ∃ c s, Reachable c s ∧ s.preempted = ["A-000000"] ∧
    Bounded c s := by
  have htest : testAfter (traceScenario
      [{ traceClass "A" [0, 0] 10 0 [("compute", 1)] with queueCapacity := 2 },
        traceClass "H" [1] 5 1 [("compute", 1)]] []) 6 (fun c s =>
      decide (s.preempted = ["A-000000"]) && s.history.all fun e => match e.1 with
        | .preempt jobId => decide (HasRoomFor c jobId e.2)
        | _ => true) = true := by decide +kernel
  obtain ⟨hv, c, s, hcompile, hs, htest⟩ := of_testAfter htest
  simp only [Bool.and_eq_true, decide_eq_true_eq, List.all_eq_true] at htest
  refine ⟨c, s, hs, htest.1, ?_⟩
  refine (queue_bound_iff hv hcompile (.between hs)).mpr (fun jobId t ht => ?_) s (Or.inl rfl)
  simpa using htest.2 _ ht

end Runner

end NpuArc
