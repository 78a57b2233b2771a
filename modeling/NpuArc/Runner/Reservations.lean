import NpuArc.Runner.Presence

/-!
# Admission reservations

A reservation is taken when an arriving job was queued and given back when the job is
replaced or completes. Between the elementary actions of a run the reservations are those of
the live jobs: the arrived jobs of checked classes whose fate is still open. The check comes
before the queueing and the commitment after it, and what happens in between only frees
memory and bandwidth.
-/

namespace NpuArc

namespace AdmissionController

variable {a : AdmissionController}

/-- A release gives back memory, bandwidth, and a place in flight, and keeps the limits. -/
theorem WithinLimits.release_le (h : WithinLimits a) (jobId : String) :
    (a.release jobId).2.memoryUsedBytes ≤ a.memoryUsedBytes ∧
      (a.release jobId).2.bandwidthFractionUsed ≤ a.bandwidthFractionUsed ∧
      (a.release jobId).2.inflightCount ≤ a.inflightCount ∧
      (a.release jobId).2.memoryAvailableBytes = a.memoryAvailableBytes ∧
      (a.release jobId).2.maxInflightJobs = a.maxInflightJobs ∧
      (a.release jobId).2.maxBandwidthFraction = a.maxBandwidthFraction := by
  cases hget : a.inflight.get? jobId with
  | none =>
    rw [release_of_none hget]
    exact ⟨le_rfl, le_rfl, le_rfl, rfl, rfl, rfl⟩
  | some info =>
    obtain ⟨hmemory, hbandwidth⟩ := h.demands jobId info hget
    rw [release_of_some _ hget]
    refine ⟨?_, ?_, Dict.size_erase_le a.inflight jobId, rfl, rfl, rfl⟩
    · dsimp only
      omega
    · dsimp only
      linarith

/-- A request that passes its check still passes it after a release. -/
theorem WithinLimits.check_release (h : WithinLimits a) (jobId : String) {r : AdmissionRequest}
    (hexclusive : r.exclusiveResources = []) (hpassed : (a.checkRequest r).admitted = true) :
    ((a.release jobId).2.checkRequest r).admitted = true := by
  obtain ⟨hmemory, hcount, hbandwidth⟩ := limits_of_admitted hpassed
  obtain ⟨hmemory', hbandwidth', hcount', havailable, hmax, hfraction⟩ := h.release_le jobId
  simp only [checkRequest, check, memoryFreeBytes, hexclusive, havailable, hmax, hfraction,
    List.all_cons, List.any_nil, Bool.not_false, List.all_nil, Bool.and_true, Bool.and_eq_true,
    decide_eq_true_eq]
  refine ⟨by omega, by omega, by linarith⟩

end AdmissionController

namespace Runner

open AdmissionController

variable {c : CompiledScenario} {s s' : RunnerState} {jobId : String}
  {a : AdmissionController} {admitted : List String} {verdict verdict' : String → Option Verdict}

/-! ### Live jobs -/

/-- The job belongs to a class whose admission is checked, and it has arrived and has not been
rejected, dropped, replaced, or completed. -/
def LiveJob (c : CompiledScenario) (verdict : String → Option Verdict) (jobId : String) : Prop :=
  (classFor c jobId).admissionExcluded = false ∧ ∃ v, verdict jobId = some v ∧ ¬v.Settled

theorem LiveJob.congr (h : verdict' jobId = verdict jobId) :
    LiveJob c verdict' jobId ↔ LiveJob c verdict jobId := by
  unfold LiveJob
  rw [h]

/-- A job without a record or with a settled fate is not live. -/
theorem not_liveJob (h : ∀ v, verdict jobId = some v → v.Settled) : ¬LiveJob c verdict jobId := by
  rintro ⟨_, v, hv, hopen⟩
  exact hopen (h v hv)

/-- The reservations are those of the live jobs, with the demands of their classes. -/
structure Tracks (c : CompiledScenario) (a : AdmissionController) (admitted : List String)
    (verdict : String → Option Verdict) : Prop where
  inflight : ∀ jobId, jobId ∈ a.inflight.keys ↔ jobId ∈ admitted
  live : ∀ jobId, jobId ∈ admitted ↔ LiveJob c verdict jobId
  demand : ∀ jobId info, a.inflight.get? jobId = some info →
    info.memoryBytes = (classFor c jobId).memoryBytes
  within : WithinLimits a
  balanced : Balanced a

theorem Tracks.congr (h : Tracks c a admitted verdict)
    (hlive : ∀ b, LiveJob c verdict' b ↔ LiveJob c verdict b) : Tracks c a admitted verdict' :=
  { h with live := fun b => (h.live b).trans (hlive b).symm }

/-- Giving back the reservation of a job whose fate is settled keeps track. -/
theorem Tracks.release (h : Tracks c a admitted verdict) {old : String}
    (hsettled : ∀ v, verdict' old = some v → v.Settled)
    (hother : ∀ b, b ≠ old → verdict' b = verdict b) :
    Tracks c (if old ∈ admitted then (a.release old).2 else a) (admitted.filter (· ≠ old))
      verdict' := by
  have hrelease : (if old ∈ admitted then (a.release old).2 else a) = (a.release old).2 := by
    split_ifs with hmem
    · rfl
    · rw [release_of_none (Dict.not_mem_keys.mp fun hk => hmem ((h.inflight old).mp hk))]
  have hget : ∀ b, (a.release old).2.inflight.get? b =
      if b = old then none else a.inflight.get? b := by
    intro b
    cases hold : a.inflight.get? old with
    | none =>
      rw [release_of_none hold]
      split_ifs with hb
      · rw [hb, hold]
      · rfl
    | some info =>
      rw [release_of_some _ hold, Dict.get?_erase]
  rw [hrelease]
  constructor
  · intro b
    have hkey := h.inflight b
    rw [Dict.mem_keys] at hkey ⊢
    rw [hget, List.mem_filter, decide_eq_true_eq]
    by_cases hb : b = old
    · simp [hb]
    · simp only [hb, if_false, ne_eq, not_false_eq_true, and_true]
      exact hkey
  · intro b
    rw [List.mem_filter, decide_eq_true_eq]
    by_cases hb : b = old
    · subst hb
      simp [not_liveJob (c := c) hsettled]
    · rw [LiveJob.congr (hother b hb), ← h.live]
      simp [hb]
  · intro b info hb
    rw [hget] at hb
    split_ifs at hb
    exact h.demand b info hb
  · have hnone : NonNegative [] (.release old) := by rintro r (hr | hr) <;> cases hr
    exact h.within.call hnone
  · refine h.balanced.call (c := .release old) ?_
    rintro r hr
    cases hr

/-- Committing the reservation of a job that passes its check keeps track. -/
theorem Tracks.commit (h : Tracks c a admitted verdict)
    (hnonneg : 0 ≤ (classFor c jobId).memoryBytes ∧ 0 ≤ (classFor c jobId).bandwidthFraction)
    (hpassed : (classFor c jobId).admissionExcluded = false →
      (a.checkRequest (admissionRequest c jobId)).admitted = true)
    (hfresh : verdict jobId = none) (hopen : ∃ v, verdict' jobId = some v ∧ ¬v.Settled)
    (hother : ∀ b, b ≠ jobId → verdict' b = verdict b) :
    Tracks c (if (classFor c jobId).admissionExcluded then a
        else (a.admitRequest (admissionRequest c jobId)).2)
      (if (classFor c jobId).admissionExcluded then admitted else admitted.insert jobId)
      verdict' := by
  have hnew : ¬LiveJob c verdict jobId := not_liveJob (by simp [hfresh])
  cases hexcluded : (classFor c jobId).admissionExcluded with
  | true =>
    simp only [if_true]
    refine h.congr fun b => ?_
    by_cases hb : b = jobId
    · subst hb
      simp [LiveJob, hexcluded]
    · exact LiveJob.congr (hother b hb)
  | false =>
    have hcheck := hpassed hexcluded
    have hcommitted := (admitRequest_of_admitted hcheck).2
    have habsent : jobId ∉ a.inflight.keys := by
      rw [h.inflight, h.live]
      exact hnew
    simp only [Bool.false_eq_true, if_false]
    constructor
    · intro b
      rw [hcommitted, Dict.mem_keys_insert, List.mem_insert_iff, h.inflight]
      rfl
    · intro b
      rw [List.mem_insert_iff, h.live]
      by_cases hb : b = jobId
      · subst hb
        simp only [true_or, true_iff]
        exact ⟨hexcluded, hopen⟩
      · rw [LiveJob.congr (hother b hb)]
        simp [hb]
    · intro b info hb
      rw [hcommitted, Dict.get?_insert] at hb
      split_ifs at hb with hsame
      · cases hb
        rw [hsame]
        rfl
      · exact h.demand b info hb
    · have hrequest : NonNegative [] (.admitJob (admissionRequest c jobId)) := by
        rintro r (hr | hr)
        · cases hr
        · cases hr
          exact hnonneg
      exact h.within.call hrequest
    · refine h.balanced.call (c := .admitJob (admissionRequest c jobId)) ?_
      rintro r hr _
      cases hr
      exact habsent

/-! ### Runs -/

/-- The classes of the scenario ask for no negative demand. -/
theorem demands_nonneg {sc : Scenario} (hv : sc.validate = .ok ()) {cls : WorkloadClass}
    (hcls : cls ∈ sc.classes) : 0 ≤ cls.memoryBytes ∧ 0 ≤ cls.bandwidthFraction := by
  have h := (Scenario.validate_ok hv).2 cls hcls
  unfold WorkloadClass.validate at h
  split_ifs at h with _ _ _ hmemory hbandwidth
  exact ⟨not_lt.mp hmemory, not_lt.mp hbandwidth⟩

/-- A compiled scenario starts without reservations. -/
theorem tracks_init {sc : Scenario} {plan : Option ℤ} (hcompile : compileScenario sc plan = .ok c)
    (h : scheduleArrivals c (init c) = .ok s) : Tracks c s.admission s.admitted s.verdict := by
  simp only [compileScenario, bind_eq_ok] at hcompile
  obtain ⟨resources, _, queues, _, admission, hadmission, heq⟩ := hcompile
  cases heq
  obtain ⟨hempty, hwithin, hbalanced⟩ := new_ok hadmission
  obtain ⟨k, rfl⟩ := scheduleArrivals_spec h
  have hnone : ∀ b, b ∉ admission.inflight.keys := by
    intro b
    rw [hempty]
    exact List.not_mem_nil
  refine ⟨fun b => iff_of_false (hnone b) List.not_mem_nil, fun b => ?_, ?_, hwithin, hbalanced⟩
  · refine iff_of_false List.not_mem_nil (not_liveJob ?_)
    intro v hv
    simp [RunnerCore.verdict, MetricsCollector.verdict, init] at hv
  · intro b info hb
    exact absurd (Dict.mem_keys.mpr ⟨info, hb⟩) (hnone b)

/-- An arrival keeps track: a job turned away leaves the reservations alone, and a granted one
takes its reservation after the replaced job gave back its own. -/
private theorem Tracks.arrive {r : JobRelease}
    (hnonneg : 0 ≤ (classFor c r.jobId).memoryBytes ∧
      0 ≤ (classFor c r.jobId).bandwidthFraction)
    (h : Tracks c s.admission s.admitted s.verdict) (hr : Received c r s s') :
    Tracks c s'.admission s'.admitted s'.verdict := by
  have hsettled : ∀ outcome, outcome ≠ .completed → (r.verdict outcome).Settled :=
    fun _ hne => Or.inr hne
  cases hr.reserved with
  | turnedAway outcome hne hverdict hsame =>
    rw [hsame.admission, hsame.admitted]
    refine h.congr fun b => ?_
    by_cases hb : b = r.jobId
    · subst hb
      refine iff_of_false (not_liveJob fun v hv => ?_) (not_liveJob (by simp [hr.fresh]))
      rw [hverdict, Option.some.injEq] at hv
      exact hv ▸ hsettled outcome hne
    · refine LiveJob.congr ?_
      cases hr.fate with
      | rejected _ _ hv => rw [hv, if_neg hb]
      | dropped _ _ _ hv => rw [hv, if_neg hb]
      | queued _ _ _ _ _ _ hv | posted _ _ _ hv =>
        rw [hv, if_pos rfl, Option.some.injEq] at hverdict
        exact absurd (congrArg Verdict.outcome hverdict).symm hne
  | granted u hverdict hpassed hkept hreplaced hcommitted =>
    -- the records after the replacement, before the new job has one
    obtain ⟨replacedVerdict, hdef⟩ : ∃ f : String → Option Verdict, ∀ b, f b =
        if replacedBy c r.jobId s.toRunnerCore = some b then
          (s.verdict b).map fun v => { v with outcome := .replaced }
        else s.verdict b := ⟨_, fun _ => rfl⟩
    have hother : ∀ b, b ≠ r.jobId → s'.verdict b = replacedVerdict b := by
      intro b hb
      rw [hdef]
      cases hr.fate with
      | rejected _ _ hv | dropped _ _ _ hv =>
        rw [hv, if_pos rfl, Option.some.injEq] at hverdict
        cases congrArg Verdict.outcome hverdict
      | queued hF _ _ _ _ _ hv =>
        rw [hv, if_neg hb, replacedBy, if_pos hF]
        simp
      | posted hF _ _ hv => rw [hv, if_neg hb, replacedBy, if_neg hF]
    have hfresh : replacedVerdict r.jobId = none := by
      rw [hdef, hr.fresh]
      simp
    have hu : Tracks c u.admission u.admitted replacedVerdict ∧
        ((classFor c r.jobId).admissionExcluded = false →
          (u.admission.checkRequest (admissionRequest c r.jobId)).admitted = true) := by
      cases hreplace : replacedBy c r.jobId s.toRunnerCore with
      | none =>
        have hsame := hkept hreplace
        rw [hsame.admission, hsame.admitted]
        refine ⟨h.congr fun b => LiveJob.congr ?_, hpassed⟩
        rw [hdef, hreplace]
        simp
      | some old =>
        have hreleased := hreplaced old hreplace
        rw [hreleased.admission, hreleased.admitted]
        constructor
        · refine h.release (fun v hv => ?_) fun b hb => ?_
          · rw [hdef, if_pos hreplace] at hv
            obtain ⟨w, _, rfl⟩ := Option.map_eq_some_iff.mp hv
            exact Or.inr (by simp)
          · rw [hdef, if_neg]
            rw [hreplace, Option.some.injEq]
            exact Ne.symm hb
        · intro hexcluded
          split_ifs
          · exact h.within.check_release old rfl (hpassed hexcluded)
          · exact hpassed hexcluded
    rw [hcommitted.admission, hcommitted.admitted]
    refine hu.1.commit hnonneg hu.2 hfresh ⟨_, hverdict, ?_⟩ hother
    simp [Verdict.Settled, JobRelease.verdict]

/-- Every step keeps track of the reservations. -/
theorem Tracks.step {sc : Scenario} (hv : sc.validate = .ok ()) (hscenario : c.scenario = sc)
    (hc : c.WellFormed) (h : Tracks c s.admission s.admitted s.verdict) (hstep : Step c s s') :
    Tracks c s'.admission s'.admitted s'.verdict := by
  have hframe : ∀ {s' : RunnerState}, SameAdmission s.toRunnerCore s'.toRunnerCore →
      (∀ b, s'.verdict b = s.verdict b) → Tracks c s'.admission s'.admitted s'.verdict := by
    intro s' hsame hverdict
    rw [hsame.admission, hsame.admitted]
    exact h.congr fun b => LiveJob.congr (hverdict b)
  cases hstep with
  | dispatch _ _ => exact h
  | stale _ _ _ => exact h
  | request _ => exact h
  | offer _ => exact h
  | @arrive _ k _ _ _ _ hr hs =>
    refine Tracks.arrive (s := { s with kernel := k }) (demands_nonneg hv ?_) h hs
    rw [← hscenario]
    exact classFor_mem hc (List.mem_map_of_mem hr)
  | complete _ _ _ hs =>
    rw [hs.released.admission, hs.released.admitted]
    refine h.release (fun v hverdict => ?_) fun b hb => (hs.verdict b).trans (if_neg hb)
    rw [hs.verdict, if_pos rfl] at hverdict
    obtain ⟨w, _, rfl⟩ := Option.map_eq_some_iff.mp hverdict
    exact Or.inl rfl
  | start _ _ hs => exact hframe hs.reserved hs.verdict
  | preempt _ hs => exact hframe hs.reserved hs.verdict
  | check _ hs => exact hframe hs.reserved hs.verdict

/-- The reservations are tracked in every visited state. -/
theorem Visited.tracks {sc : Scenario} {plan : Option ℤ} (hv : sc.validate = .ok ())
    (hcompile : compileScenario sc plan = .ok c) (h : Visited c s) :
    Tracks c s.admission s.admitted s.verdict := by
  obtain ⟨hscenario, hc⟩ := compileScenario_wellFormed hv hcompile
  induction h with
  | init h => exact tracks_init hcompile h
  | step _ h ih => exact ih.step hv hscenario hc h

/-! ### The claim of admission control -/

/-- The jobs in flight are the admitted ones and those are the live ones, and the memory in use
is what they demand, within the memory that is available. -/
structure AdmissionTracks (c : CompiledScenario) (s : RunnerCore) : Prop where
  inflight : ∀ jobId, jobId ∈ s.admission.inflight.keys ↔ jobId ∈ s.admitted
  live : ∀ jobId, jobId ∈ s.admitted ↔ LiveJob c s.verdict jobId
  memory : s.admission.memoryUsedBytes =
    (s.admission.inflight.keys.map fun jobId => (classFor c jobId).memoryBytes).sum
  limit : s.admission.memoryUsedBytes ≤ s.admission.memoryAvailableBytes

/-- When a release arrives in a state, passes its check, and is queued, the admission that
follows is granted. -/
def Granted (c : CompiledScenario) (r : JobRelease) (s : RunnerState) : Prop :=
  ∀ cls collector u, c.scenario.getClass r.classId = .ok cls →
    s.collector.recordArrival (arrivalRecord r cls) = .ok collector →
    isRejected c r cls { s.log (.arrive r.jobId) with collector := collector } = false →
    enqueueArrival c r cls { s.log (.arrive r.jobId) with collector := collector } =
      .ok (u, true) →
    cls.admissionExcluded = false →
    (u.admission.admitJob r.jobId cls.memoryBytes cls.bandwidthFraction cls.priority []
      (lowerPriorityHolders c cls.priority u)).1.admitted = true

theorem Tracks.admissionTracks (h : Tracks c s.admission s.admitted s.verdict) :
    AdmissionTracks c s.toRunnerCore := by
  refine ⟨h.inflight, h.live, ?_, h.within.memory_le⟩
  rw [h.balanced.memory]
  unfold Dict.sumValues
  change ((s.admission.inflight.entries.map Prod.snd).map _).sum =
    ((s.admission.inflight.entries.map Prod.fst).map _).sum
  rw [List.map_map, List.map_map]
  refine congrArg List.sum (List.map_congr_left fun e he => ?_)
  exact h.demand e.1 e.2 (Dict.get?_eq_some.mpr he)

theorem Tracks.granted (hc : c.WellFormed) (h : Tracks c s.admission s.admitted s.verdict)
    {r : JobRelease} (hr : r ∈ c.releases) : Granted c r s := by
  intro cls collector u hget _ hpassed henqueue hexcluded
  have hcls := getClass_classFor hc hr hget
  have hcheck : (s.admission.checkRequest (admissionRequest c r.jobId)).admitted = true := by
    simp only [isRejected, hexcluded, Bool.not_false, Bool.true_and, Bool.not_eq_false'] at hpassed
    rw [← hpassed, ← hcls]
    rfl
  have hstill : (u.admission.checkRequest (admissionRequest c r.jobId)).admitted = true := by
    rcases enqueueArrival_reserved henqueue with hsame | ⟨old, hreleased⟩
    · rw [hsame.admission]
      exact hcheck
    · rw [hreleased.admission]
      split_ifs
      · exact h.within.check_release old rfl hcheck
      · exact hcheck
  have hgranted := (admitRequest_of_admitted hstill).1
  rw [← hgranted, ← hcls]
  rfl

/-- Between the actions of every run the jobs in flight are the admitted ones and those are the
live ones, their memory adds up to the memory in use and is available, and the admission of a
queued job that passed its check is never refused. -/
theorem admission_tracks {sc : Scenario} {plan : Option ℤ} (hv : sc.validate = .ok ())
    (hcompile : compileScenario sc plan = .ok c) (hs : Attained c s) :
    ∀ m, Moment s m → AdmissionTracks c m.toRunnerCore ∧ ∀ r ∈ c.releases, Granted c r m := by
  obtain ⟨_, hc⟩ := compileScenario_wellFormed hv hcompile
  intro m hm
  have htracks : Tracks c m.admission m.admitted m.verdict :=
    (hs.visited hc).moments (P := fun m => Tracks c m.admission m.admitted m.verdict)
      (fun _ hs => hs.tracks hv hcompile) (fun _ _ h => h) m hm
  exact ⟨htracks.admissionTracks, fun r hr => htracks.granted hc hr⟩

/-- Two mailbox jobs of which the second does not fit beside the first while that one runs. -/
def reservedMailbox : Scenario :=
  { traceScenario [{ traceClass "M" [0, 1, 2] 10 0 [("compute", 1)] with
      queuePolicy := .mailboxLatest
      memoryBytes := 40
      admissionExcluded := false }] [] with memoryAvailableBytes := 100 }

/-- The running job and the pending one hold their reservations, and the third is rejected. -/
theorem admission_tracks_pending : ∃ c s, Reachable c s ∧
    s.admitted = ["M-000001", "M-000000"] ∧ s.admission.memoryUsedBytes = 80 ∧
    AdmissionTracks c s.toRunnerCore := by
  have htest : testAfter reservedMailbox 7 (fun _ s =>
      decide (s.admitted = ["M-000001", "M-000000"]) &&
        decide (s.admission.memoryUsedBytes = 80)) = true := by decide +kernel
  obtain ⟨hv, c, s, hcompile, hs, htest⟩ := of_testAfter htest
  simp only [Bool.and_eq_true, decide_eq_true_eq] at htest
  refine ⟨c, s, hs, htest.1, htest.2, ?_⟩
  exact (admission_tracks hv hcompile (.between hs) s (Or.inl rfl)).1

end Runner

end NpuArc
