import NpuArc.Runner.Model
import NpuArc.Scenarios.Compiled

/-!
# Tables and views of the runner

Lookups in the tables of a well-formed compiled scenario, and the two views through
which proofs read the queues: the contents of the FIFO of a class, and the pending
item of a stream. The lemmas say how each primitive operation changes the views.
-/

namespace NpuArc

namespace Runner

variable {c : CompiledScenario}

/-! ### Tables -/

/-- The ids of the compiled releases. -/
def Known (c : CompiledScenario) (jobId : String) : Prop := jobId ∈ c.releases.map (·.jobId)

/-- The table of releases returns each release under its job id. -/
theorem releaseOf_jobId (hc : c.WellFormed) {r : JobRelease} (hr : r ∈ c.releases) :
    releaseOf c r.jobId = r := by
  have hnodup : ((c.releases.map fun r => (r.jobId, r)).map Prod.fst).Nodup := by
    simpa [Function.comp_def] using hc.ids_nodup
  rw [releaseOf, releaseById,
    Dict.get?_ofList_of_mem hnodup (List.mem_map.mpr ⟨r, hr, rfl⟩), Option.getD_some]

theorem releaseOf_mem (hc : c.WellFormed) {jobId : String} (h : Known c jobId) :
    releaseOf c jobId ∈ c.releases ∧ (releaseOf c jobId).jobId = jobId := by
  obtain ⟨r, hr, rfl⟩ := List.mem_map.mp h
  rw [releaseOf_jobId hc hr]
  exact ⟨hr, rfl⟩

/-- The class of a release is the class with its class id. -/
theorem classOf_mem (hc : c.WellFormed) {r : JobRelease} (hr : r ∈ c.releases) :
    classOf c r ∈ c.scenario.classes ∧ (classOf c r).id = r.classId ∧
      c.scenario.getClass r.classId = .ok (classOf c r) := by
  obtain ⟨cls, hcls, _, _, _, hr'⟩ := hc.release r hr
  have hid : r.classId = cls.id := by rw [hr']; rfl
  have hget := hc.getClass cls hcls
  have hclass : classOf c r = cls := by rw [classOf, hid, hget]
  rw [hclass, hid]
  exact ⟨hcls, rfl, hget⟩

theorem classFor_mem (hc : c.WellFormed) {jobId : String} (h : Known c jobId) :
    classFor c jobId ∈ c.scenario.classes :=
  (classOf_mem hc (releaseOf_mem hc h).1).1

theorem getClass_classFor (hc : c.WellFormed) {r : JobRelease} (hr : r ∈ c.releases)
    {cls : WorkloadClass} (h : c.scenario.getClass r.classId = .ok cls) :
    classFor c r.jobId = cls := by
  rw [classFor, releaseOf_jobId hc hr]
  have hget := (classOf_mem hc hr).2.2
  rw [h, Except.ok.injEq] at hget
  exact hget.symm

/-- Classes of one scenario with the same id are the same class. -/
theorem class_eq_of_id (hc : c.WellFormed) {cls cls' : WorkloadClass}
    (h : cls ∈ c.scenario.classes) (h' : cls' ∈ c.scenario.classes) (hid : cls.id = cls'.id) :
    cls = cls' := by
  have hget := hc.getClass cls h
  rw [hid, hc.getClass cls' h', Except.ok.injEq] at hget
  exact hget.symm

/-- Different jobs have different policy keys. -/
theorem jobKey_injective : Function.Injective (jobKey c) := fun _ _ h => policyKey_injective h

/-- A known job has an id, and its arrival and its work are not negative. -/
theorem known_nonneg (hc : c.WellFormed) {jobId : String} (h : Known c jobId) :
    jobId ≠ "" ∧ 0 ≤ (releaseOf c jobId).arrivalPs ∧ 0 ≤ (releaseOf c jobId).workPs := by
  obtain ⟨hr, hid⟩ := releaseOf_mem hc h
  obtain ⟨cls, _, idx, _, _, hrel⟩ := hc.release _ hr
  refine ⟨?_, hc.arrival_nonneg _ hr, hc.work_nonneg _ hr⟩
  rw [← hid, hrel]
  exact makeJobId_ne_empty cls.id idx

/-! ### Queue tables -/

/-- The runner's FIFO queues are the compiled ones. -/
theorem get?_fifoQueuesOf {queues : Dict String CompiledQueue} {key : String}
    {q : BoundedFIFO String} :
    (fifoQueuesOf queues).get? key = some q ↔ queues.get? key = some (.fifo q) := by
  rw [fifoQueuesOf, Dict.get?_filterMapValues, Option.bind_eq_some_iff]
  constructor
  · rintro ⟨v, hv, hq⟩
    cases v with
    | fifo q' =>
      cases hq
      exact hv
    | mailbox mb => cases hq
  · exact fun h => ⟨_, h, rfl⟩

/-- The runner's mailboxes are the compiled ones. -/
theorem get?_mailboxesOf {queues : Dict String CompiledQueue} {key : String}
    {mb : MailboxLatest String} :
    (mailboxesOf queues).get? key = some mb ↔ queues.get? key = some (.mailbox mb) := by
  rw [mailboxesOf, Dict.get?_filterMapValues, Option.bind_eq_some_iff]
  constructor
  · rintro ⟨v, hv, hmb⟩
    cases v with
    | fifo q => cases hmb
    | mailbox mb' =>
      cases hmb
      exact hv
  · exact fun h => ⟨_, h, rfl⟩

end Runner

/-! ### Verdicts -/

/-- What the metrics have recorded about the fate of a job. -/
structure Verdict where
  jobId : String
  completePs : Option ℤ
  outcome : JobOutcome
  isMeasurement : Bool
  isWarmup : Bool
  deriving DecidableEq

/-- The fate of a job in its metric record. -/
def JobMetricRecord.verdict (r : JobMetricRecord) : Verdict :=
  ⟨r.jobId, r.completePs, r.outcome, r.isMeasurement, r.isWarmup⟩

/-- The recorded fate of a job that has just arrived. -/
def JobRelease.verdict (r : JobRelease) (outcome : JobOutcome) : Verdict :=
  ⟨r.jobId, none, outcome, r.isMeasurement, r.isWarmup⟩

namespace MetricsCollector

/-- The recorded fate of a job. -/
def verdict (col : MetricsCollector) (jobId : String) : Option Verdict :=
  (col.jobs.get? jobId).map (·.verdict)

/-- An update of a job record that leaves its fate alone changes no verdict. -/
theorem verdict_update_of_eq {col : MetricsCollector} {jobId : String}
    {f : JobMetricRecord → JobMetricRecord} (hf : ∀ r, (f r).verdict = r.verdict) (a : String) :
    (col.update jobId f).verdict a = col.verdict a := by
  simp only [verdict, update, Dict.get?_modify]
  by_cases h : a = jobId
  · subst h
    cases col.jobs.get? a <;> simp [hf]
  · rw [if_neg h]

/-- An update of a job record changes the verdict on that job only. -/
theorem verdict_update {col : MetricsCollector} {jobId : String}
    {f : JobMetricRecord → JobMetricRecord} {g : Verdict → Verdict}
    (hf : ∀ r, (f r).verdict = g r.verdict) (a : String) :
    (col.update jobId f).verdict a =
      if a = jobId then (col.verdict a).map g else col.verdict a := by
  simp only [verdict, update, Dict.get?_modify]
  by_cases h : a = jobId
  · subst h
    cases col.jobs.get? a <;> simp [hf]
  · rw [if_neg h, if_neg h]

/-- A fresh record is found under its job id. -/
theorem verdict_insert (col : MetricsCollector) (record : JobMetricRecord) (a : String) :
    ({ col with jobs := col.jobs.insert record.jobId record } : MetricsCollector).verdict a =
      if a = record.jobId then some record.verdict else col.verdict a := by
  simp only [verdict, Dict.get?_insert]
  by_cases h : a = record.jobId <;> simp [h]

/-- A recorded arrival stores a fresh record under a new job id. -/
theorem recordArrival_ok {col col' : MetricsCollector} {record : JobMetricRecord}
    (h : col.recordArrival record = .ok col') : col.verdict record.jobId = none ∧
      col'.recoveryTimePs = col.recoveryTimePs ∧
      ∀ a, col'.verdict a = if a = record.jobId then some record.verdict else col.verdict a := by
  unfold recordArrival at h
  split_ifs at h with hcontains
  cases h
  refine ⟨?_, rfl, verdict_insert col record⟩
  rw [verdict, Dict.contains_eq_false.mp (Bool.not_eq_true _ ▸ hcontains)]
  rfl

theorem verdict_recordResourceBusy (col : MetricsCollector) (name : String) (start stop : ℤ)
    (classId : Option String) :
    (∀ a, (col.recordResourceBusy name start stop classId).verdict a = col.verdict a) ∧
      (col.recordResourceBusy name start stop classId).recoveryTimePs = col.recoveryTimePs := by
  unfold recordResourceBusy
  split_ifs <;> exact ⟨fun _ => rfl, rfl⟩

end MetricsCollector

/-! ### Profiles -/

/-- What the record of a job keeps from its arrival. -/
structure Profile where
  classId : String
  workPs : ℤ
  resourceRequirements : Dict String ℤ

/-- What a record keeps from the arrival of its job. -/
def JobMetricRecord.profile (r : JobMetricRecord) : Profile :=
  ⟨r.classId, r.workPs, r.resourceRequirements⟩

namespace MetricsCollector

/-- What the record of a job keeps from its arrival. -/
def profile (col : MetricsCollector) (jobId : String) : Option Profile :=
  (col.jobs.get? jobId).map (·.profile)

/-- An update of a job record that keeps what it has from its arrival. -/
theorem profile_update_of_eq {col : MetricsCollector} {jobId : String}
    {f : JobMetricRecord → JobMetricRecord} (hf : ∀ r, (f r).profile = r.profile) (a : String) :
    (col.update jobId f).profile a = col.profile a := by
  simp only [profile, update, Dict.get?_modify]
  by_cases h : a = jobId
  · subst h
    cases col.jobs.get? a <;> simp [hf]
  · rw [if_neg h]

/-- A recorded arrival stores the profile of a new job and no busy interval. -/
theorem recordArrival_books {col col' : MetricsCollector} {record : JobMetricRecord}
    (h : col.recordArrival record = .ok col') :
    col'.resourceIntervals = col.resourceIntervals ∧
      col'.classResourceIntervals = col.classResourceIntervals ∧
      ∀ a, col'.profile a = if a = record.jobId then some record.profile else col.profile a := by
  unfold recordArrival at h
  split_ifs at h
  cases h
  refine ⟨rfl, rfl, fun a => ?_⟩
  simp only [profile, Dict.get?_insert]
  by_cases ha : a = record.jobId <;> simp [ha]

theorem profile_recordResourceBusy (col : MetricsCollector) (name : String) (start stop : ℤ)
    (classId : Option String) (a : String) :
    (col.recordResourceBusy name start stop classId).profile a = col.profile a := by
  unfold recordResourceBusy
  split_ifs <;> rfl

end MetricsCollector

/-! ### Views -/

namespace RunnerCore

/-- The jobs in the FIFO stored under a key, head first. -/
def fifoAt (s : RunnerCore) (key : String) : List String :=
  ((s.fifoQueues.get? key).map (·.contents)).getD []

/-- The capacity of the FIFO stored under a key. -/
def capacityAt (s : RunnerCore) (key : String) : Option ℕ :=
  (s.fifoQueues.get? key).map (·.capacity)

/-- The job that the mailbox stored under a key holds for a stream. -/
def pendingAt (s : RunnerCore) (key stream : String) : Option String :=
  (s.mailboxes.get? key).bind (·.item? stream)

/-- What the metrics have recorded about the fate of a job. -/
def verdict (s : RunnerCore) (jobId : String) : Option Verdict := s.collector.verdict jobId

/-- What the record of a job keeps from its arrival. -/
def profile (s : RunnerCore) (jobId : String) : Option Profile := s.collector.profile jobId

/-- The time of the kernel. -/
def now (s : RunnerCore) : ℤ := s.kernel.nowPs

end RunnerCore

/-- Two states with the same busy intervals and the same profiles of jobs. -/
structure SameBooks (s s' : RunnerCore) : Prop where
  resource : s'.collector.resourceIntervals = s.collector.resourceIntervals
  ofClass : s'.collector.classResourceIntervals = s.collector.classResourceIntervals
  profile : ∀ a, s'.profile a = s.profile a

/-- Two states with the same reservations of admission control. -/
structure SameAdmission (s s' : RunnerCore) : Prop where
  admission : s'.admission = s.admission
  admitted : s'.admitted = s.admitted

/-- The queues of two states are stored under the same keys with the same capacities. -/
structure SameShape (s s' : RunnerCore) : Prop where
  capacityAt : ∀ key, s'.capacityAt key = s.capacityAt key
  mailboxes : ∀ key, key ∈ s'.mailboxes.keys ↔ key ∈ s.mailboxes.keys

theorem SameShape.refl (s : RunnerCore) : SameShape s s := ⟨fun _ => rfl, fun _ => Iff.rfl⟩

theorem SameShape.trans {s s' s'' : RunnerCore} (h : SameShape s s') (h' : SameShape s' s'') :
    SameShape s s'' :=
  ⟨fun key => (h'.capacityAt key).trans (h.capacityAt key),
    fun key => (h'.mailboxes key).trans (h.mailboxes key)⟩

namespace Runner

variable {c : CompiledScenario}

/-- Whether a job belongs to a class with a FIFO. -/
def IsFifo (c : CompiledScenario) (jobId : String) : Prop :=
  (classFor c jobId).queuePolicy = .fifo

instance (jobId : String) : Decidable (IsFifo c jobId) := inferInstanceAs (Decidable (_ = _))

/-- The key of the FIFO of a job's class. -/
def fifoKeyOf (c : CompiledScenario) (jobId : String) : String := fifoKey (classFor c jobId).id

/-- The stream of a job's class. -/
def streamOf (c : CompiledScenario) (jobId : String) : String := (classFor c jobId).stream

/-- The jobs in the FIFO of a job's class, head first. -/
def fifoOf (c : CompiledScenario) (jobId : String) (s : RunnerCore) : List String :=
  s.fifoAt (fifoKeyOf c jobId)

/-- The job pending in the mailbox of a job's stream. -/
def pendingOf (c : CompiledScenario) (jobId : String) (s : RunnerCore) : Option String :=
  s.pendingAt (mailboxKey (streamOf c jobId)) (streamOf c jobId)

/-- The FIFO of a state after a job was taken from its head. -/
def fifoAfterTake (c : CompiledScenario) (jobId key : String) (s : RunnerCore) : List String :=
  if IsFifo c jobId ∧ key = fifoKeyOf c jobId ∧ (s.fifoAt key).head? = some jobId then
    (s.fifoAt key).tail
  else s.fifoAt key

/-- The pending item of a stream after the mailbox of a job's stream was emptied. -/
def pendingAfterTake (c : CompiledScenario) (jobId key stream : String) (s : RunnerCore) :
    Option String :=
  if ¬IsFifo c jobId ∧ key = mailboxKey (streamOf c jobId) ∧ stream = streamOf c jobId then none
  else s.pendingAt key stream

/-- Taking a job from the queues changes nothing, or drops the head of its FIFO, or
empties its mailbox. -/
theorem dequeueFromRunner_cases (jobId : String) (s : RunnerState) :
    (dequeueFromRunner c jobId s = s ∧
      (IsFifo c jobId → (fifoOf c jobId s.toRunnerCore).head? ≠ some jobId) ∧
      (¬IsFifo c jobId → pendingOf c jobId s.toRunnerCore = none)) ∨
    (IsFifo c jobId ∧ ∃ q, s.fifoQueues.get? (fifoKeyOf c jobId) = some q ∧
      q.contents.head? = some jobId ∧ dequeueFromRunner c jobId s =
        { s with fifoQueues := s.fifoQueues.insert (fifoKeyOf c jobId) q.dequeue.2 }) ∨
    (¬IsFifo c jobId ∧ ∃ mb agePs,
      s.mailboxes.get? (mailboxKey (streamOf c jobId)) = some mb ∧ dequeueFromRunner c jobId s =
        { s with
          mailboxes := s.mailboxes.insert (mailboxKey (streamOf c jobId))
            (mb.take (streamOf c jobId) s.kernel.nowPs).2
          collector := s.collector.recordObservationAge jobId agePs }) := by
  unfold dequeueFromRunner IsFifo fifoOf pendingOf fifoKeyOf streamOf
  cases hpolicy : (classFor c jobId).queuePolicy with
  | fifo =>
    cases hq : s.fifoQueues.get? (fifoKey (classFor c jobId).id) with
    | none => simp [hpolicy, RunnerCore.fifoAt, hq]
    | some q =>
      have hpeek := q.peek_map_snd
      by_cases hhead : q.contents.head? = some jobId
      · simp [hpolicy, hq, hpeek, hhead]
      · simp [hpolicy, RunnerCore.fifoAt, hq, hpeek, hhead]
  | mailboxLatest =>
    cases hmb : s.mailboxes.get? (mailboxKey (classFor c jobId).stream) with
    | none => simp [hpolicy, RunnerCore.pendingAt, hmb]
    | some mb =>
      cases htake : mb.take (classFor c jobId).stream s.kernel.nowPs with
      | mk taken mb' =>
        cases taken with
        | none =>
          unfold MailboxLatest.take at htake
          split at htake
          · next hp =>
            simp [hpolicy, RunnerCore.pendingAt, hmb, MailboxLatest.item?, MailboxLatest.take, hp]
          · cases htake
        | some taken =>
          right
          right
          exact ⟨by simp, mb, taken.1, rfl, by simp [hpolicy, hmb, htake]⟩

/-- Taking a job from the queues touches no state besides the queues and the metrics. -/
theorem dequeueFromRunner_frame (jobId : String) (s : RunnerState) :
    ∃ fifos mailboxes collector, dequeueFromRunner c jobId s =
      { s with fifoQueues := fifos, mailboxes := mailboxes, collector := collector } := by
  rcases dequeueFromRunner_cases (c := c) jobId s with ⟨h, _⟩ | ⟨_, q, _, _, h⟩ | ⟨_, mb, age, _, h⟩
  · exact ⟨_, _, _, h⟩
  · exact ⟨_, _, _, h⟩
  · exact ⟨_, _, _, h⟩

theorem dequeueFromRunner_fifoAt (jobId key : String) (s : RunnerState) :
    (dequeueFromRunner c jobId s).fifoAt key = fifoAfterTake c jobId key s.toRunnerCore := by
  unfold fifoAfterTake
  rcases dequeueFromRunner_cases (c := c) jobId s with
    ⟨h, hhead, _⟩ | ⟨hF, q, hq, hhead, h⟩ | ⟨hF, mb, age, _, h⟩
  · rw [h, if_neg]
    rintro ⟨hF, rfl, hh⟩
    exact hhead hF hh
  · rw [h]
    simp only [RunnerCore.fifoAt, Dict.get?_insert]
    by_cases hkey : key = fifoKeyOf c jobId
    · simp [hF, hkey, hq, hhead]
    · simp [hkey]
  · rw [h, if_neg fun h => hF h.1]
    rfl

theorem dequeueFromRunner_pendingAt (jobId key stream : String) (s : RunnerState) :
    (dequeueFromRunner c jobId s).pendingAt key stream =
      pendingAfterTake c jobId key stream s.toRunnerCore := by
  unfold pendingAfterTake
  rcases dequeueFromRunner_cases (c := c) jobId s with
    ⟨h, _, hnone⟩ | ⟨hF, q, _, _, h⟩ | ⟨hF, mb, age, hmb, h⟩
  · rw [h]
    split_ifs with hh
    · rw [hh.2.1, hh.2.2]
      exact hnone hh.1
    · rfl
  · rw [h, if_neg fun h => h.1 hF]
    rfl
  · rw [h]
    simp only [RunnerCore.pendingAt, Dict.get?_insert]
    by_cases hkey : key = mailboxKey (streamOf c jobId)
    · by_cases hs : stream = streamOf c jobId
      · simp [hF, hkey, hs]
      · simp [hkey, hs, hmb]
    · simp [hkey]

theorem dequeueFromRunner_sameShape (jobId : String) (s : RunnerState) :
    SameShape s.toRunnerCore (dequeueFromRunner c jobId s).toRunnerCore := by
  rcases dequeueFromRunner_cases (c := c) jobId s with
    ⟨h, _, _⟩ | ⟨_, q, hq, _, h⟩ | ⟨_, mb, age, hmb, h⟩
  · rw [h]
    exact SameShape.refl _
  · rw [h]
    refine ⟨fun key => ?_, fun _ => Iff.rfl⟩
    simp only [RunnerCore.capacityAt, Dict.get?_insert]
    by_cases hkey : key = fifoKeyOf c jobId
    · simp [hkey, hq]
    · simp [hkey]
  · rw [h]
    refine ⟨fun _ => rfl, fun key => ?_⟩
    rw [Dict.mem_keys_insert]
    refine ⟨?_, Or.inr⟩
    rintro (rfl | h)
    · exact Dict.mem_keys.mpr ⟨mb, hmb⟩
    · exact h

theorem dequeueFromRunner_verdict (jobId a : String) (s : RunnerState) :
    (dequeueFromRunner c jobId s).verdict a = s.verdict a ∧
      (dequeueFromRunner c jobId s).collector.recoveryTimePs = s.collector.recoveryTimePs := by
  rcases dequeueFromRunner_cases (c := c) jobId s with
    ⟨h, _, _⟩ | ⟨_, q, _, _, h⟩ | ⟨_, mb, age, _, h⟩
  · rw [h]
    exact ⟨rfl, rfl⟩
  · rw [h]
    exact ⟨rfl, rfl⟩
  · rw [h]
    exact ⟨MetricsCollector.verdict_update_of_eq (f := fun r => { r with observationAgePs := age })
      (fun _ => rfl) a, rfl⟩

theorem dequeueFromRunner_books (jobId : String) (s : RunnerState) :
    SameBooks s.toRunnerCore (dequeueFromRunner c jobId s).toRunnerCore := by
  rcases dequeueFromRunner_cases (c := c) jobId s with
    ⟨h, _, _⟩ | ⟨_, q, _, _, h⟩ | ⟨_, mb, age, _, h⟩
  · rw [h]
    exact ⟨rfl, rfl, fun _ => rfl⟩
  · rw [h]
    exact ⟨rfl, rfl, fun _ => rfl⟩
  · rw [h]
    exact ⟨rfl, rfl, MetricsCollector.profile_update_of_eq fun _ => rfl⟩

end Runner

end NpuArc
