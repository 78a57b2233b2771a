import NpuArc.Runner.Instants
import NpuArc.Runner.Accounting

/-!
# Busy time of resources

Whatever a job requires, the end of one of its segments books the segment on the resource
`compute`, and a segment that is still open at the end of the run is not booked at all. The
busy time of a resource is therefore the number of instants of the window at which a running
job requires it only when these two kinds of errors cancel out.
-/

namespace NpuArc

open MetricsCollector

namespace Runner

variable {c : CompiledScenario} {s : RunnerState} {t : ℤ}

/-! ### Instants of the window -/

open Classical in
/-- The instants of the measurement window at which something holds. -/
noncomputable def instants (c : CompiledScenario) (holds : ℤ → Prop) : Finset ℤ :=
  (Finset.Ico c.windowStartPs c.windowEndPs).filter holds

theorem mem_instants {holds : ℤ → Prop} :
    t ∈ instants c holds ↔ (c.windowStartPs ≤ t ∧ t < c.windowEndPs) ∧ holds t := by
  simp [instants]

theorem instants_congr {holds holds' : ℤ → Prop} (h : ∀ t, holds t ↔ holds' t) :
    instants c holds = instants c holds' := by
  ext t
  rw [mem_instants, mem_instants, h]

/-- Two properties hold equally often when each holds alone equally often. -/
theorem card_instants_eq_iff {holds holds' : ℤ → Prop} :
    (instants c holds).card = (instants c holds').card ↔
      (instants c fun t => holds t ∧ ¬holds' t).card =
        (instants c fun t => holds' t ∧ ¬holds t).card := by
  have hsdiff : ∀ a b : ℤ → Prop,
      (instants c fun t => a t ∧ ¬b t) = instants c a \ instants c b := by
    intro a b
    ext t
    simp only [Finset.mem_sdiff, mem_instants]
    tauto
  rw [hsdiff, hsdiff, Finset.card_sdiff_eq_card_sdiff_iff]

/-- The clipped length of a union of intervals counts the instants that they cover. -/
theorem unionIntervalsLength_clip (hwindow : c.windowStartPs ≤ c.windowEndPs)
    {intervals : List (ℤ × ℤ)} (hle : ∀ e ∈ intervals, e.1 ≤ e.2) :
    unionIntervalsLength (clip c.windowStartPs c.windowEndPs intervals) =
      (instants c fun t => ∃ e ∈ intervals, e.1 ≤ t ∧ t < e.2).card := by
  rw [unionIntervalsLength_eq fun e he => le_of_mem_clip hwindow hle he]
  congr 2
  ext t
  rw [mem_cover_clip, Intervals.mem_cover, mem_instants]
  exact and_comm

/-! ### Booked and required instants -/

/-- The busy time that the metrics report for a resource. -/
def busyTimePs (m : ScenarioMetrics) (name : String) : ℤ :=
  ((m.resourceUtilization.find? fun u => decide (u.resourceName = name)).map (·.busyTimePs)).getD 0

/-- A job that requires a positive amount of a resource is running at an instant. -/
def RequiredAt (c : CompiledScenario) (name : String) (t : ℤ) : Prop :=
  ∃ jobId, RunningAt c jobId t ∧ 0 < ((requirements c jobId).get? name).getD 0

/-- The time inside the window at which a running job requires a resource. -/
noncomputable def requiredTimePs (c : CompiledScenario) (name : String) : ℤ :=
  (instants c (RequiredAt c name)).card

/-- An instant lies in a segment that has ended. -/
def EndedAt (s : RunnerState) (t : ℤ) : Prop :=
  ∃ jobId, ∃ e ∈ segments jobId s.history, e.1 ≤ t ∧ t < e.2

/-- Draining the queues keeps the busy intervals. -/
theorem drain_books (s : RunnerState) :
    (drain s).resourceIntervals = s.collector.resourceIntervals ∧
      (drain s).classResourceIntervals = s.collector.classResourceIntervals := by
  unfold drain
  generalize s.fifoQueues.values.flatMap (·.contents) = jobIds
  generalize s.collector = m
  induction jobIds generalizing m with
  | nil => exact ⟨rfl, rfl⟩
  | cons jobId jobIds ih => exact ih _

/-- The metrics report the clipped busy intervals of each resource. -/
theorem busyTimePs_finish (name : String) : busyTimePs (finish c s) name =
    unionIntervalsLength (clip c.windowStartPs c.windowEndPs
      ((s.collector.resourceIntervals.get? name).getD [])) := by
  have hmem : name ∈ (drain s).resourceIntervals.keys.insertionSort (· ≤ ·) ↔
      name ∈ s.collector.resourceIntervals.keys := by
    rw [(List.perm_insertionSort (· ≤ ·) _).mem_iff, (drain_books s).1]
  have hfind : ((finish c s).resourceUtilization.find? fun u => decide (u.resourceName = name)) =
      (((drain s).resourceIntervals.keys.insertionSort (· ≤ ·)).find? fun k => decide (k = name)).map
        ((drain s).computeUtilization c.windowStartPs c.windowEndPs
          (max 0 (c.windowEndPs - c.windowStartPs))) := List.find?_map
  unfold busyTimePs
  rw [hfind]
  cases hkey : ((drain s).resourceIntervals.keys.insertionSort (· ≤ ·)).find?
      fun k => decide (k = name) with
  | none =>
    have hnot : name ∉ s.collector.resourceIntervals.keys := fun hname => by
      simpa using List.find?_eq_none.mp hkey name (hmem.mpr hname)
    have hget : s.collector.resourceIntervals.get? name = none := by
      cases hget : s.collector.resourceIntervals.get? name with
      | none => rfl
      | some l => exact absurd (Dict.mem_keys.mpr ⟨l, hget⟩) hnot
    rw [hget]
    rfl
  | some key =>
    obtain rfl : key = name := by simpa using List.find?_some hkey
    rw [← (drain_books s).1]
    rfl

/-- A resource is busy for the time that is booked on it: nothing for a resource other than
`compute`, and the segments that have ended for that one. -/
theorem busyTimePs_eq (hc : c.WellFormed) (hwindow : c.windowStartPs ≤ c.windowEndPs)
    (hs : Reachable c s) (name : String) : busyTimePs (finish c s) name =
      (instants c fun t => name = "compute" ∧ EndedAt s t).card := by
  have htimed := (hs.visited hc).timed hc
  rw [busyTimePs_finish,
    unionIntervalsLength_clip hwindow fun e he => ((htimed.resource name e).mp he).2.1.le]
  congr 2
  apply instants_congr
  intro t
  constructor
  · rintro ⟨e, he, hle, hlt⟩
    obtain ⟨hname, _, jobId, hsegment⟩ := (htimed.resource name e).mp he
    exact ⟨hname, jobId, e, hsegment, hle, hlt⟩
  · rintro ⟨hname, jobId, e, hsegment, hle, hlt⟩
    exact ⟨e, (htimed.resource name e).mpr ⟨hname, by omega, jobId, hsegment⟩, hle, hlt⟩

/-- The run has booked its resources as its jobs required them: no job that runs inside the
window requires a resource other than `compute`, and the instants at which only jobs without
need of `compute` are booked are as many as those at which only jobs that never reach the end
of their segment need it. -/
structure BookedAsRequired (c : CompiledScenario) (s : RunnerState) : Prop where
  other : ∀ name ≠ "compute", ∀ t, c.windowStartPs ≤ t → t < c.windowEndPs → ¬RequiredAt c name t
  compute : (instants c fun t => EndedAt s t ∧ ¬RequiredAt c "compute" t).card =
    (instants c fun t => RequiredAt c "compute" t ∧ ¬EndedAt s t).card

/-- The reported busy times are the required ones exactly when the run has booked its resources
as its jobs required them. -/
theorem utilization_iff {sc : Scenario} {plan : Option ℤ} (hv : sc.validate = .ok ())
    (hcompile : compileScenario sc plan = .ok c) {rounds : ℕ}
    (hend : endState c rounds = .ok (some s)) :
    run c rounds = .ok (some (finish c s)) ∧
      ((∀ name, busyTimePs (finish c s) name = requiredTimePs c name) ↔ BookedAsRequired c s) := by
  obtain ⟨rfl, hc⟩ := compileScenario_wellFormed hv hcompile
  have hwindow := compileScenario_window hcompile
  obtain ⟨hreach, _, hrun⟩ := endState_eq_some hend
  have hbusy := busyTimePs_eq hc hwindow hreach
  have hcompute : busyTimePs (finish c s) "compute" = requiredTimePs c "compute" ↔
      (instants c fun t => EndedAt s t ∧ ¬RequiredAt c "compute" t).card =
        (instants c fun t => RequiredAt c "compute" t ∧ ¬EndedAt s t).card := by
    rw [hbusy, requiredTimePs, Int.natCast_inj, card_instants_eq_iff]
    simp only [true_and]
  have hother : ∀ name ≠ "compute", (busyTimePs (finish c s) name = requiredTimePs c name ↔
      ∀ t, c.windowStartPs ≤ t → t < c.windowEndPs → ¬RequiredAt c name t) := by
    intro name hname
    have hzero : busyTimePs (finish c s) name = 0 := by
      rw [hbusy, Int.natCast_eq_zero, Finset.card_eq_zero, Finset.eq_empty_iff_forall_notMem]
      intro t ht
      exact hname (mem_instants.mp ht).2.1
    rw [hzero, requiredTimePs, eq_comm, Int.natCast_eq_zero, Finset.card_eq_zero,
      Finset.eq_empty_iff_forall_notMem]
    simp only [mem_instants, not_and, and_imp]
  refine ⟨hrun, fun h => ⟨?_, hcompute.mp (h "compute")⟩, fun h name => ?_⟩
  · intro name hname
    exact (hother name hname).mp (h name)
  · by_cases hname : name = "compute"
    · subst hname
      exact hcompute.mpr h.compute
    · exact (hother name hname).mpr (h.other name hname)

/-! ### Runs that book what they require -/

/-- A segment lies before the simulation limit. -/
theorem Reachable.ended_before (hc : c.WellFormed) (hs : Reachable c s) {jobId : String}
    {e : ℤ × ℤ} (he : e ∈ segments jobId s.history) : e.2 ≤ maxTimePs c := by
  have hended := (((hs.visited hc).timed hc).ended jobId e he).2
  cases hs with
  | init h =>
    obtain ⟨k, rfl⟩ := scheduleArrivals_spec h
    cases he
  | step hs hev h =>
    have hnow := (now_of_processEvent hc hs hev h).2
    have hlimit := (nextEvent_eq_some hev).2
    omega

/-- A segment that has ended covers instants at which its job ran. -/
theorem RunningAt.of_ended (hc : c.WellFormed) (hs : Reachable c s) (hend : nextEvent c s = none)
    {jobId : String} {e : ℤ × ℤ} (he : e ∈ segments jobId s.history) (hle : e.1 ≤ t)
    (hlt : t < e.2) : RunningAt c jobId t := by
  have hlimit := hs.ended_before hc he
  apply (hs.covers_end hc hend (by omega)).mp
  exact .inl ⟨e, he, hle, hlt⟩

/-- A job that runs at an instant is one of the compiled jobs. -/
theorem RunningAt.known (hc : c.WellFormed) {jobId : String} (h : RunningAt c jobId t) :
    Known c jobId := by
  obtain ⟨u, hu, hrunning⟩ := h
  have hp := (hu.reachable.visited hc).places hc
  apply hp.known
  apply hp.moved
  rw [(hp.running jobId).mp hrunning]
  exact Option.some_ne_none _

/-- A run books what its jobs require if every class requires `compute` and nothing else, and
no job is running at the end. -/
theorem BookedAsRequired.of_compute_only (hc : c.WellFormed) (hs : Reachable c s)
    (hend : nextEvent c s = none) (hidle : s.running.keys = [])
    (honly : ∀ cls ∈ c.scenario.classes, ∀ name,
      0 < (cls.resourceRequirements.get? name).getD 0 ↔ name = "compute") :
    BookedAsRequired c s := by
  have hended : ∀ t, EndedAt s t ↔ RequiredAt c "compute" t := by
    intro t
    constructor
    · rintro ⟨jobId, e, he, hle, hlt⟩
      have hrunning := RunningAt.of_ended hc hs hend he hle hlt
      exact ⟨jobId, hrunning, (honly _ (classFor_mem hc (hrunning.known hc)) _).mpr rfl⟩
    · rintro ⟨jobId, hrunning, _⟩
      obtain ⟨u, hu, _⟩ := id hrunning
      rcases (hs.covers_end hc hend hu.limit).mpr hrunning with ⟨e, he, hle, hlt⟩ | ⟨hopen, _⟩
      · exact ⟨jobId, e, he, hle, hlt⟩
      · rw [hidle] at hopen
        cases hopen
  constructor
  · rintro name hname t _ _ ⟨jobId, hrunning, hpos⟩
    exact hname ((honly _ (classFor_mem hc (hrunning.known hc)) name).mp hpos)
  · congr 1
    apply instants_congr
    intro t
    rw [hended]

/-- Two jobs that require only the resource `dma`. -/
def dmaOnly : Scenario := traceScenario [traceClass "D" [0, 20] 5 0 [("dma", 1)]] [("dma", 1)]

/-- The resource `compute` is reported busy while no job requires it. -/
theorem dmaOnly_books_compute : dmaOnly.validate = .ok () ∧
    ∃ c s, compileScenario dmaOnly none = .ok c ∧ endState c 2 = .ok (some s) ∧
      busyTimePs (finish c s) "compute" = 5000000000 ∧ requiredTimePs c "compute" = 0 ∧
      ¬∀ name, busyTimePs (finish c s) name = requiredTimePs c name := by
  have htest : testEnd dmaOnly 2 (fun c s =>
      decide (busyTimePs (finish c s) "compute" = 5000000000) &&
        c.scenario.classes.all fun cls =>
          decide ((cls.resourceRequirements.get? "compute").getD 0 = 0)) = true := by
    decide +kernel
  obtain ⟨hv, c, s, hcompile, hend, htest⟩ := of_testEnd htest
  have hc := (compileScenario_wellFormed hv hcompile).2
  simp only [Bool.and_eq_true, decide_eq_true_eq, List.all_eq_true] at htest
  obtain ⟨hbusy, hnone⟩ := htest
  have hrequired : requiredTimePs c "compute" = 0 := by
    rw [requiredTimePs, Int.natCast_eq_zero, Finset.card_eq_zero,
      Finset.eq_empty_iff_forall_notMem]
    intro t ht
    obtain ⟨jobId, hrunning, hpos⟩ := (mem_instants.mp ht).2
    have hzero := hnone _ (classFor_mem hc (hrunning.known hc))
    unfold requirements at hpos
    omega
  refine ⟨hv, c, s, hcompile, hend, hbusy, hrequired, fun h => ?_⟩
  have hcompute := h "compute"
  rw [hbusy, hrequired] at hcompute
  omega

/-- A run of jobs that require `compute` alone reports the busy time that they require. -/
theorem utilization_iff_compute : ∃ c s, endState c 2 = .ok (some s) ∧
    ∀ name, busyTimePs (finish c s) name = requiredTimePs c name := by
  have htest : testEnd (traceScenario [traceClass "A" [0, 3] 5 0 [("compute", 1)]] []) 2
      (fun _ s => decide (s.running.keys = [])) = true := by decide +kernel
  obtain ⟨hv, c, s, hcompile, hend, htest⟩ := of_testEnd htest
  obtain ⟨hsc, hc⟩ := compileScenario_wellFormed hv hcompile
  have honly : ∀ cls ∈ c.scenario.classes, ∀ name,
      0 < (cls.resourceRequirements.get? name).getD 0 ↔ name = "compute" := by
    rw [hsc]
    intro cls hcls name
    cases List.mem_singleton.mp hcls
    by_cases hname : name = "compute"
    · simp [hname, traceClass, Dict.ofList]
    · simp [hname, traceClass, Dict.ofList, Dict.get?_insert]
  obtain ⟨hreach, hnext, _⟩ := endState_eq_some hend
  have hbooked := BookedAsRequired.of_compute_only hc hreach hnext (of_decide_eq_true htest) honly
  exact ⟨c, s, hend, (utilization_iff hv hcompile hend).2.mpr hbooked⟩

end Runner

end NpuArc
