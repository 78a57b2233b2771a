import NpuArc.Runner.Utilization
import Mathlib.Algebra.Order.BigOperators.Group.List

/-!
# Offered load and achieved utilization

The offered load of a class adds up the work of its measured jobs, and its achieved
utilization is the length of the union of the segments of its jobs, both over the length of
the window times the compute capacity. An instant at which several jobs of the class run
counts once in the union, so that the two ratios agree only when what is lost in this way is
made up for by jobs of the class outside the measurement and by work executed again.
-/

namespace NpuArc

open MetricsCollector

namespace Runner

variable {c : CompiledScenario} {s s' : RunnerState} {jobId : String} {t : ℤ}

/-! ### Work done -/

/-- What a job has executed, together with what is left to it, covers the work of its
release. -/
structure Worked (c : CompiledScenario) (jobId : String) (s : RunnerState) : Prop where
  stored : (releaseOf c jobId).workPs ≤
    (ledger jobId s.history).executedPs + remainingOf c jobId s.toRunnerCore
  running : ∀ e, s.running.get? jobId = some e → (releaseOf c jobId).workPs ≤
    (ledger jobId s.history).executedPs + (e.timePs - (ledger jobId s.history).lastStartPs)
  completed : ∀ v, s.verdict jobId = some v → v.completePs.isSome →
    (releaseOf c jobId).workPs ≤ (ledger jobId s.history).executedPs

theorem Worked.setKernel (h : Worked c jobId s) (k : Kernel RunnerPayload) :
    Worked c jobId { s with kernel := k } :=
  ⟨h.stored, h.running, h.completed⟩

/-- A step that neither moves a job nor completes it keeps what it has executed. -/
theorem Worked.of_not_move (h : Worked c jobId s) {a : Action} {r : RunnerCore}
    (ha : ¬IsMove jobId a) (hhistory : s'.history = (a, r) :: s.history)
    (hrunning : s'.running.get? jobId = s.running.get? jobId)
    (hremaining : s'.preemptedRemaining.get? jobId = s.preemptedRemaining.get? jobId)
    (hverdict : ∀ v, s'.verdict jobId = some v → v.completePs.isSome →
      ∃ w, s.verdict jobId = some w ∧ w.completePs.isSome) : Worked c jobId s' := by
  have hledger : ledger jobId s'.history = ledger jobId s.history := by
    rw [hhistory, ledger_of_not_move ha]
  constructor
  · unfold remainingOf
    rw [hledger, hremaining]
    exact h.stored
  · rw [hledger, hrunning]
    exact h.running
  · intro v hv hsome
    obtain ⟨w, hw, hsome⟩ := hverdict v hv hsome
    rw [hledger]
    exact h.completed w hw hsome

/-- The executed time of a job is not negative. -/
theorem Timed.executed_nonneg (h : Timed c s) (jobId : String) :
    0 ≤ (ledger jobId s.history).executedPs := by
  rw [← sum_segments]
  apply List.sum_nonneg
  intro d hd
  obtain ⟨e, he, rfl⟩ := List.mem_map.mp hd
  have hle := (h.ended jobId e he).1
  omega

theorem Worked.start (hc : c.WellFormed) (ht : Timers c s.toRunnerCore) (htimed : Timed c s)
    (h : Worked c jobId s) (hknown : Known c jobId) {ev : RunnerEvent}
    (hs : Started c jobId s s' ev) : Worked c jobId s' := by
  obtain ⟨_, _, _, _, _, hev, _⟩ := hs.kernel_eq hc ht hknown
  have hnonneg := htimed.executed_nonneg jobId
  have hledger : ledger jobId s'.history =
      { ledger jobId s.history with lastStartPs := s.now } := by
    rw [hs.history]
    simp [ledger]
  constructor
  · unfold remainingOf
    rw [hledger, hs.preemptedRemaining, Dict.get?_erase, if_pos rfl, Option.getD_none]
    dsimp only
    omega
  · intro e he
    rw [hs.running, Dict.get?_insert, if_pos rfl, Option.some.injEq] at he
    subst he
    have hstored := h.stored
    rw [hledger, hev]
    simp only [RunnerCore.now]
    omega
  · intro v hv hsome
    rw [hs.verdict] at hv
    rw [hledger]
    exact h.completed v hv hsome

theorem Worked.preempt (ht : Timers c s.toRunnerCore) (htimed : Timed c s) (h : Worked c jobId s)
    {ev : RunnerEvent} (hrunning : s.running.get? jobId = some ev)
    (hs : Preempted c jobId s s' ev) : Worked c jobId s' := by
  obtain ⟨_, _, job, hjob, hrem, _⟩ := ht.timer jobId ev hrunning
  have hwork := h.running ev hrunning
  have hstarted := htimed.started jobId (Dict.mem_keys.mpr ⟨ev, hrunning⟩)
  have hledger : ledger jobId s'.history = (ledger jobId s.history).close s.now := by
    rw [hs.history]
    simp [ledger]
  constructor
  · unfold remainingOf
    rw [hledger, hs.preemptedRemaining, hjob, Dict.get?_insert, if_pos rfl, Option.getD_some,
      Ledger.close]
    dsimp only
    rw [hrem]
    simp only [RunnerCore.now]
    omega
  · intro e he
    rw [hs.running, Dict.get?_erase, if_pos rfl] at he
    cases he
  · intro v hv hsome
    rw [hs.verdict] at hv
    have hdone := h.completed v hv hsome
    rw [hledger, Ledger.close]
    dsimp only
    omega

theorem Worked.complete (htimed : Timed c s) (h : Worked c jobId s) {ev : RunnerEvent}
    (hrunning : s.running.get? jobId = some ev) (hnow : s.now = ev.timePs)
    (hs : Retired c jobId s s') : Worked c jobId s' := by
  have hwork := h.running ev hrunning
  have hstored := h.stored
  have hstarted := htimed.started jobId (Dict.mem_keys.mpr ⟨ev, hrunning⟩)
  have hledger : (ledger jobId s'.history).executedPs =
      (ledger jobId s.history).executedPs + (s.now - (ledger jobId s.history).lastStartPs) := by
    rw [hs.history]
    simp [ledger, Ledger.close]
  constructor
  · unfold remainingOf at hstored ⊢
    rw [hledger, hs.preemptedRemaining]
    omega
  · intro e he
    rw [hs.running, Dict.get?_erase, if_pos rfl] at he
    cases he
  · intro v hv hsome
    omega

/-- Receiving a job completes none. -/
theorem Received.completed {r : JobRelease} (h : Received c r s s') {a : String} {v : Verdict}
    (hv : s'.verdict a = some v) (hsome : v.completePs.isSome) :
    ∃ w, s.verdict a = some w ∧ w.completePs.isSome := by
  have hnew : ∀ outcome, some (r.verdict outcome) = some v → False := by
    intro outcome heq
    cases heq
    cases hsome
  cases h.fate with
  | rejected _ _ hverdict =>
    rw [hverdict] at hv
    split_ifs at hv
    · exact (hnew _ hv).elim
    · exact ⟨v, hv, hsome⟩
  | dropped _ _ _ hverdict =>
    rw [hverdict] at hv
    split_ifs at hv
    · exact (hnew _ hv).elim
    · exact ⟨v, hv, hsome⟩
  | queued _ _ _ _ _ _ hverdict =>
    rw [hverdict] at hv
    split_ifs at hv
    · exact (hnew _ hv).elim
    · exact ⟨v, hv, hsome⟩
  | posted _ _ _ hverdict =>
    rw [hverdict] at hv
    split_ifs at hv
    · exact (hnew _ hv).elim
    · obtain ⟨w, hw, rfl⟩ := Option.map_eq_some_iff.mp hv
      exact ⟨w, hw, hsome⟩
    · exact ⟨v, hv, hsome⟩

/-- Every step keeps the work done. -/
theorem Worked.step (hc : c.WellFormed) (hv : Visited c s) (h : Worked c jobId s)
    (hstep : Step c s s') : Worked c jobId s' := by
  have hp := hv.places hc
  have ht := hv.timers hc
  have htimed := hv.timed hc
  cases hstep with
  | dispatch _ _ => exact h.setKernel _
  | stale _ _ _ => exact h.setKernel _
  | request _ => exact h.setKernel _
  | arrive hpop hpayload _ hr =>
    apply (h.setKernel _).of_not_move (by simp [IsMove]) hr.history
    · rw [hr.running]
    · rw [hr.preemptedRemaining]
    · exact fun v hv hsome => hr.completed hv hsome
  | @complete ev k other _ hpop hpayload hrunning hr =>
    have hadv := ht.advanced hpop
    have hget := ht.timer_unique hadv.live hpayload
    by_cases ha : jobId = other
    · subst ha
      exact Worked.complete (htimed.setKernel (hpop.now_le ht)) (h.setKernel k) hget hadv.now hr
    · apply (h.setKernel k).of_not_move (by simp [IsMove, Ne.symm ha]) hr.history
      · rw [hr.running, Dict.get?_erase, if_neg ha]
      · rw [hr.preemptedRemaining]
      · intro v hv hsome
        rw [hr.verdict, if_neg ha] at hv
        exact ⟨v, hv, hsome⟩
  | offer _ =>
    exact h.of_not_move (by simp [IsMove]) rfl rfl rfl fun v hv hsome =>
      ⟨v, hv, hsome⟩
  | @start other ev _ hstartable _ hs =>
    by_cases ha : jobId = other
    · subst ha
      exact h.start hc ht htimed (hp.known jobId hstartable.1) hs
    · apply h.of_not_move (by simp [IsMove, Ne.symm ha]) hs.history
      · rw [hs.running, Dict.get?_insert, if_neg ha]
      · rw [hs.preemptedRemaining, Dict.get?_erase, if_neg ha]
      · exact fun v hv hsome => ⟨v, (hs.verdict jobId).symm.trans hv, hsome⟩
  | @preempt other ev _ hrunning hs =>
    by_cases ha : jobId = other
    · subst ha
      exact h.preempt ht htimed hrunning hs
    · apply h.of_not_move (by simp [IsMove, Ne.symm ha]) hs.history
      · rw [hs.running, Dict.get?_erase, if_neg ha]
      · rw [hs.preemptedRemaining, Dict.get?_insert, if_neg ha]
      · exact fun v hv hsome => ⟨v, (hs.verdict jobId).symm.trans hv, hsome⟩
  | check _ hs =>
    apply h.of_not_move (by simp [IsMove]) hs.history
    · rw [hs.running]
    · rw [hs.preemptedRemaining]
    · exact fun v hv hsome => ⟨v, (hs.verdict jobId).symm.trans hv, hsome⟩

/-- A completed job has executed its work. -/
theorem Visited.worked (hc : c.WellFormed) (h : Visited c s) : Worked c jobId s := by
  induction h with
  | init h =>
    obtain ⟨k, rfl⟩ := scheduleArrivals_spec h
    constructor
    · simp [remainingOf, Runner.init, ledger]
    · intro e he
      cases he
    · intro v hv
      cases hv
  | step hs h ih => exact ih.step hc hs h

/-! ### Records of the jobs -/

/-- The record of a job has the class, the work, and the requirements of its release. -/
def Profiled (c : CompiledScenario) (s : RunnerState) : Prop :=
  ∀ jobId p, s.profile jobId = some p →
    p = ⟨(releaseOf c jobId).classId, (releaseOf c jobId).workPs, requirements c jobId⟩

theorem Profiled.of_profile (h : Profiled c s) (hprofile : ∀ a, s'.profile a = s.profile a) :
    Profiled c s' :=
  fun a p hp => h a p ((hprofile a).symm.trans hp)

/-- Every step keeps the profiles. -/
theorem Profiled.step (hc : c.WellFormed) (h : Profiled c s) (hstep : Step c s s') :
    Profiled c s' := by
  cases hstep with
  | dispatch _ _ => exact h.of_profile fun _ => rfl
  | stale _ _ _ => exact h.of_profile fun _ => rfl
  | request _ => exact h.of_profile fun _ => rfl
  | offer _ => exact h.of_profile fun _ => rfl
  | @arrive _ _ r _ _ _ hr hs =>
    intro a p hp
    rw [hs.filed.profile] at hp
    split_ifs at hp with ha
    · cases hp
      rw [ha, releaseOf_jobId hc hr]
      rfl
    · exact h a p hp
  | complete _ _ _ hs => exact h.of_profile hs.booked.profile
  | start _ _ hs => exact h.of_profile hs.books.profile
  | preempt _ hs => exact h.of_profile hs.booked.profile
  | check _ hs => exact h.of_profile hs.books.profile

theorem Visited.profiled (hc : c.WellFormed) (h : Visited c s) : Profiled c s := by
  induction h with
  | init h =>
    obtain ⟨k, rfl⟩ := scheduleArrivals_spec h
    intro a p hp
    cases hp
  | step hs h ih => exact ih.step hc h

/-! ### Jobs of a class -/

/-- The records of a class among the measured ones. -/
def classJobs (s : RunnerState) (cid : String) : List JobMetricRecord :=
  (drain s).measurementJobs.filter fun j => decide (j.classId = cid)

/-- The measured records of a class belong to different jobs, and keep the class, the work,
and the requirements of the release of their job. -/
structure ClassRecord (c : CompiledScenario) (s : RunnerState) (cid : String)
    (r : JobMetricRecord) : Prop where
  known : Known c r.jobId
  class_eq : (classFor c r.jobId).id = cid
  work : r.workPs = (releaseOf c r.jobId).workPs
  work_nonneg : 0 ≤ r.workPs
  requirements : r.resourceRequirements = requirements c r.jobId
  executed : r.completePs.isSome → r.workPs ≤ (ledger r.jobId s.history).executedPs

theorem classRecord_of_mem (hc : c.WellFormed) (hs : Reachable c s) {cid : String}
    {r : JobMetricRecord} (hr : r ∈ classJobs s cid) : ClassRecord c s cid r := by
  have hv := hs.visited hc
  have htruth := hv.truthful hc
  unfold classJobs at hr
  rw [List.mem_filter, drain_measurementJobs htruth] at hr
  obtain ⟨hmem, hcid⟩ := hr
  obtain ⟨r, hr, rfl⟩ := List.mem_map.mp hmem
  have hvalue := mem_values_of_mem_measurementJobs hr
  have hverdict := htruth.verdict_of_mem hvalue
  have hknown := (hv.places hc).known r.jobId (by simp [hverdict])
  obtain ⟨key, hkey⟩ := Dict.mem_values.mp hvalue
  have hid : r.jobId = key := by
    refine (htruth key r.verdict ?_).1
    rw [RunnerCore.verdict, MetricsCollector.verdict, hkey]
    rfl
  subst hid
  have hprofile := hv.profiled hc r.jobId r.profile (by
    rw [RunnerCore.profile, MetricsCollector.profile, hkey]
    rfl)
  have hsame : (afterDrain s.toRunnerCore r).profile = r.profile := by
    unfold afterDrain
    split_ifs
    · rfl
    · rfl
  obtain ⟨hcomplete, hjob, _⟩ := afterDrain_completePs s.toRunnerCore r
  simp only [JobMetricRecord.profile, Profile.mk.injEq] at hsame hprofile
  obtain ⟨hclass, hwork, hreq⟩ := hsame
  obtain ⟨hclass', hwork', hreq'⟩ := hprofile
  rw [decide_eq_true_iff, hclass, hclass'] at hcid
  constructor
  · rw [hjob]
    exact hknown
  · rw [hjob, classFor, (classOf_mem hc (releaseOf_mem hc hknown).1).2.1]
    exact hcid
  · rw [hwork, hwork', hjob]
  · rw [hwork, hwork']
    exact (known_nonneg hc hknown).2.2
  · rw [hreq, hreq', hjob]
  · intro hsome
    rw [hcomplete] at hsome
    rw [hwork, hwork', hjob]
    exact (hv.worked hc).completed r.verdict hverdict hsome

/-! ### Loss and gain of the union -/

/-- The number of measured jobs of a class that run at an instant. -/
noncomputable def unitsAt (s : RunnerState) (cid : String) (t : ℤ) : ℕ :=
  (classJobs s cid).countP fun r => decide (t ∈ Intervals.cover (segments r.jobId s.history))

/-- The time for which measured jobs of a class run next to another one. -/
noncomputable def overlapPs (c : CompiledScenario) (s : RunnerState) (cid : String) : ℕ :=
  ∑ t ∈ Finset.Ico c.windowStartPs c.windowEndPs, (unitsAt s cid t - 1)

/-- A job of a class is booked at an instant. -/
def ClassEndedAt (c : CompiledScenario) (s : RunnerState) (cid : String) (t : ℤ) : Prop :=
  ∃ jobId, (classFor c jobId).id = cid ∧ t ∈ Intervals.cover (segments jobId s.history)

/-- The time inside the window at which only jobs outside the measurement run for a class. -/
noncomputable def unmeasuredPs (c : CompiledScenario) (s : RunnerState) (cid : String) : ℕ :=
  (instants c fun t => ClassEndedAt c s cid t ∧ unitsAt s cid t = 0).card

/-- What the measured jobs of a class have executed beyond their work. -/
def repeatedPs (s : RunnerState) (cid : String) : ℤ :=
  ((classJobs s cid).map fun r => (ledger r.jobId s.history).executedPs - r.workPs).sum

/-- The segments of a job cover as many instants as it has executed. -/
theorem Timed.card_cover (h : Timed c s) (jobId : String) :
    ((Intervals.cover (segments jobId s.history)).card : ℤ) =
      (ledger jobId s.history).executedPs := by
  have hreverse := List.reverse_perm (segments jobId s.history)
  have hordered : Intervals.Ordered (segments jobId s.history).reverse := by
    unfold Intervals.Ordered
    rw [List.pairwise_reverse]
    exact h.ordered jobId
  rw [← Intervals.cover_perm hreverse, Intervals.card_cover_of_ordered hordered, List.map_reverse,
    List.sum_reverse, sum_segments]
  intro e he
  exact (h.ended jobId e (List.mem_reverse.mp he)).1

/-- The busy time of a class counts the instants of the window at which one of its jobs is
booked. -/
theorem classBusy_eq (hwindow : c.windowStartPs ≤ c.windowEndPs) (h : Timed c s) (cid : String) :
    unionIntervalsLength (clip c.windowStartPs c.windowEndPs
        (((drain s).classResourceIntervals.get? (cid ++ ":compute")).getD [])) =
      (instants c (ClassEndedAt c s cid)).card := by
  rw [(drain_books s).2,
    unionIntervalsLength_clip hwindow fun e he => ((h.ofClass _ e).mp he).1.le]
  congr 2
  apply instants_congr
  intro t
  unfold ClassEndedAt
  simp only [Intervals.mem_cover]
  constructor
  · rintro ⟨e, he, hle, hlt⟩
    obtain ⟨_, jobId, hkey, hsegment⟩ := (h.ofClass _ e).mp he
    exact ⟨jobId, (String.append_left_inj _).mp hkey.symm, e, hsegment, hle, hlt⟩
  · rintro ⟨jobId, rfl, e, hsegment, hle, hlt⟩
    exact ⟨e, (h.ofClass _ e).mpr ⟨by omega, jobId, rfl, hsegment⟩, hle, hlt⟩

/-- The instants of a class are those of its measured jobs and those at which only others
run. -/
theorem card_classEndedAt {cid : String} (hclass : ∀ r ∈ classJobs s cid,
      (classFor c r.jobId).id = cid) :
    (instants c (ClassEndedAt c s cid)).card =
      (instants c fun t => 0 < unitsAt s cid t).card + unmeasuredPs c s cid := by
  unfold unmeasuredPs
  rw [← Finset.card_union_of_disjoint]
  · congr 1
    ext t
    simp only [Finset.mem_union, mem_instants]
    have hunits : 0 < unitsAt s cid t → ClassEndedAt c s cid t := by
      unfold unitsAt
      rw [List.countP_pos_iff]
      rintro ⟨r, hr, hcover⟩
      exact ⟨r.jobId, hclass r hr, of_decide_eq_true hcover⟩
    have hzero := Nat.eq_zero_or_pos (unitsAt s cid t)
    tauto
  · rw [Finset.disjoint_left]
    intro t ht ht'
    have hpos := (mem_instants.mp ht).2
    have hzero := (mem_instants.mp ht').2.2
    omega

/-- The measured jobs of a class that run inside the window execute, at each instant, as much
as jobs run. -/
theorem sum_unitsAt (h : Timed c s) {cid : String} (hinside : ∀ r ∈ classJobs s cid,
      Intervals.cover (segments r.jobId s.history) ⊆
        Finset.Ico c.windowStartPs c.windowEndPs) :
    ((classJobs s cid).map fun r => (ledger r.jobId s.history).executedPs).sum =
      overlapPs c s cid + (instants c fun t => 0 < unitsAt s cid t).card := by
  have hsum : ∑ t ∈ Finset.Ico c.windowStartPs c.windowEndPs, unitsAt s cid t =
      ((classJobs s cid).map fun r => (Intervals.cover (segments r.jobId s.history)).card).sum := by
    unfold unitsAt
    rw [Intervals.sum_countP]
    congr 1
    apply List.map_congr_left
    intro r hr
    congr 1
    ext t
    simp only [Finset.mem_filter, decide_eq_true_eq, and_iff_right_iff_imp]
    exact fun ht => hinside r hr ht
  have hcard : (instants c fun t => 0 < unitsAt s cid t).card =
      ((Finset.Ico c.windowStartPs c.windowEndPs).filter fun t => 0 < unitsAt s cid t).card := by
    congr 1
    ext t
    simp [mem_instants]
  rw [Intervals.sum_eq_beyond_add_card, ← hcard] at hsum
  rw [overlapPs, ← Nat.cast_add, hsum, Nat.cast_list_sum, List.map_map]
  congr 1
  apply List.map_congr_left
  intro r _
  exact (h.card_cover r.jobId).symm

/-- The busy time of a class is the work of its measured jobs exactly when the overlap of
these is made up for. -/
theorem classBusy_eq_work_iff (h : Timed c s) {cid : String}
    (hclass : ∀ r ∈ classJobs s cid, (classFor c r.jobId).id = cid)
    (hinside : ∀ r ∈ classJobs s cid, Intervals.cover (segments r.jobId s.history) ⊆
      Finset.Ico c.windowStartPs c.windowEndPs) :
    ((instants c (ClassEndedAt c s cid)).card : ℤ) = ((classJobs s cid).map (·.workPs)).sum ↔
      (overlapPs c s cid : ℤ) = unmeasuredPs c s cid + repeatedPs s cid := by
  have hunits := sum_unitsAt h hinside
  have hrepeated : repeatedPs s cid + ((classJobs s cid).map (·.workPs)).sum =
      ((classJobs s cid).map fun r => (ledger r.jobId s.history).executedPs).sum := by
    unfold repeatedPs
    rw [← List.sum_map_add]
    simp only [sub_add_cancel]
  rw [card_classEndedAt hclass]
  push_cast
  omega

/-! ### Ratios of a class -/

theorem maxOf_eq {l : List ℤ} {a : ℤ} (hne : l ≠ []) (h : ∀ x ∈ l, x = a) : maxOf l = a := by
  cases l with
  | nil => exact absurd rfl hne
  | cons x l =>
    rw [List.forall_mem_cons] at h
    obtain ⟨rfl, h⟩ := h
    change l.foldl max x = x
    clear hne
    induction l with
    | nil => rfl
    | cons y l ih =>
      rw [List.forall_mem_cons] at h
      rw [List.foldl_cons, h.1, max_self]
      exact ih h.2

/-- Over a window that has a length, the two ratios of a class whose jobs require one unit are
equal exactly when its busy time is the work of its jobs. -/
theorem computeClass_ratios_iff {m : MetricsCollector} {released : List JobMetricRecord}
    {windowStartPs windowEndPs windowTimePs computeCapacity : ℤ} (hcapacity : 0 < computeCapacity)
    {cid : String} (hunit : ∀ r ∈ released.filter fun j => decide (j.classId = cid),
      r.resourceRequirements.get? "compute" = some 1) :
    (m.computeClass released windowStartPs windowEndPs windowTimePs computeCapacity
          cid).achievedUtilization =
        (m.computeClass released windowStartPs windowEndPs windowTimePs computeCapacity
          cid).offeredLoadRatio ↔
      (0 < windowTimePs → unionIntervalsLength (clip windowStartPs windowEndPs
          ((m.classResourceIntervals.get? (cid ++ ":compute")).getD [])) =
        ((released.filter fun j => decide (j.classId = cid)).map (·.workPs)).sum) := by
  unfold computeClass
  dsimp only
  generalize released.filter (fun j => decide (j.classId = cid)) = jobs at hunit ⊢
  generalize unionIntervalsLength _ = busy
  by_cases hwindow : 0 < windowTimePs
  · have hne : ((windowTimePs * computeCapacity : ℤ) : ℚ) ≠ 0 :=
      Int.cast_ne_zero.mpr (mul_pos hwindow hcapacity).ne'
    have hoffered : (if 0 < windowTimePs ∧ jobs ≠ [] then
        (((jobs.map (·.workPs)).sum * maxOf (jobs.map fun j =>
          (j.resourceRequirements.get? "compute").getD 1) : ℤ) : ℚ) /
          (windowTimePs * computeCapacity : ℤ) else 0) =
        ((jobs.map (·.workPs)).sum : ℤ) / (windowTimePs * computeCapacity : ℤ) := by
      by_cases hjobs : jobs = []
      · simp [hjobs]
      · have hmax : maxOf (jobs.map fun j => (j.resourceRequirements.get? "compute").getD 1) = 1 := by
          apply maxOf_eq (by simpa using hjobs)
          intro x hx
          obtain ⟨r, hr, rfl⟩ := List.mem_map.mp hx
          rw [hunit r hr, Option.getD_some]
        rw [if_pos ⟨hwindow, hjobs⟩, hmax, mul_one]
    rw [hoffered, if_pos hwindow, div_left_inj' hne, Int.cast_inj]
    simp only [hwindow, forall_const]
  · simp [hwindow]

/-- The metrics of a class in the result of a run are computed from its records. -/
theorem classMetrics_eq {cid : String} {cm : ClassMetrics}
    (hcm : cm ∈ (finish c s).classMetrics) (hid : cm.classId = cid) :
    cm = (drain s).computeClass (drain s).measurementJobs c.windowStartPs c.windowEndPs
      (max 0 (c.windowEndPs - c.windowStartPs)) c.scenario.computeCapacity cid := by
  obtain ⟨_, _, rfl⟩ := List.mem_map.mp hcm
  cases hid
  rfl

/-- Jobs whose segments lie in the window, and that do not run at the end, run at no instant
outside it. -/
theorem inside_of_segments (hc : c.WellFormed) (hs : Reachable c s) (hend : nextEvent c s = none)
    (hrunning : jobId ∉ s.running.keys)
    (hsegments : ∀ e ∈ segments jobId s.history, c.windowStartPs ≤ e.1 ∧ e.2 ≤ c.windowEndPs)
    (ht : RunningAt c jobId t) : c.windowStartPs ≤ t ∧ t < c.windowEndPs := by
  obtain ⟨u, hu, _⟩ := id ht
  rcases (hs.covers_end hc hend hu.limit).mpr ht with ⟨e, he, hle, hlt⟩ | ⟨hopen, _⟩
  · obtain ⟨hstart, hstop⟩ := hsegments e he
    omega
  · exact absurd hopen hrunning

/-! ### Offered load and achieved utilization -/

/-- The achieved utilization of a class whose measured jobs are completed inside the window
is its offered load exactly when the time for which its measured jobs run next to each other
is the time at which only other jobs of the class run, and the time that its measured jobs
execute beyond their work. -/
theorem utilization_eq_load_iff {sc : Scenario} {plan : Option ℤ} (hv : sc.validate = .ok ())
    (hcompile : compileScenario sc plan = .ok c) {rounds : ℕ}
    (hend : endState c rounds = .ok (some s)) {cls : WorkloadClass} (hcls : cls ∈ sc.classes)
    (hunit : cls.resourceRequirements.get? "compute" = some 1)
    (hdone : ∀ r ∈ classJobs s cls.id, r.completePs.isSome)
    (hinside : ∀ r ∈ classJobs s cls.id, ∀ t, RunningAt c r.jobId t →
      c.windowStartPs ≤ t ∧ t < c.windowEndPs) {cm : ClassMetrics}
    (hcm : cm ∈ (finish c s).classMetrics) (hid : cm.classId = cls.id) :
    run c rounds = .ok (some (finish c s)) ∧
      (cm.achievedUtilization = cm.offeredLoadRatio ↔
        (overlapPs c s cls.id : ℤ) = unmeasuredPs c s cls.id + repeatedPs s cls.id) := by
  obtain ⟨rfl, hc⟩ := compileScenario_wellFormed hv hcompile
  have hwindow := compileScenario_window hcompile
  obtain ⟨hreach, hnext, hrun⟩ := endState_eq_some hend
  have htimed := (hreach.visited hc).timed hc
  have hrecord : ∀ r ∈ classJobs s cls.id, ClassRecord c s cls.id r :=
    fun r hr => classRecord_of_mem hc hreach hr
  have hrequired : ∀ r ∈ classJobs s cls.id,
      r.resourceRequirements.get? "compute" = some 1 := by
    intro r hr
    have hcls' := classFor_mem hc (hrecord r hr).known
    rw [(hrecord r hr).requirements, requirements,
      class_eq_of_id hc hcls' hcls (hrecord r hr).class_eq]
    exact hunit
  have hcover : ∀ r ∈ classJobs s cls.id, Intervals.cover (segments r.jobId s.history) ⊆
      Finset.Ico c.windowStartPs c.windowEndPs := by
    intro r hr t ht
    obtain ⟨e, he, hle, hlt⟩ := Intervals.mem_cover.mp ht
    exact Finset.mem_Ico.mpr (hinside r hr t (RunningAt.of_ended hc hreach hnext he hle hlt))
  have hbusy := classBusy_eq hwindow htimed cls.id
  have hiff := classBusy_eq_work_iff htimed (fun r hr => (hrecord r hr).class_eq) hcover
  refine ⟨hrun, ?_⟩
  rw [classMetrics_eq hcm hid,
    computeClass_ratios_iff (compileScenario_capacity hcompile) hrequired, hbusy, ← hiff]
  refine ⟨fun h => ?_, fun h _ => h⟩
  by_cases hlength : c.windowStartPs < c.windowEndPs
  · exact h (by omega)
  · have hempty : ∀ holds, (instants c holds).card = 0 := by
      intro holds
      unfold instants
      rw [Finset.Ico_eq_empty hlength, Finset.filter_empty, Finset.card_empty]
    have hexecuted := sum_unitsAt htimed hcover
    rw [overlapPs, Finset.Ico_eq_empty hlength, Finset.sum_empty, hempty] at hexecuted
    have hle : ((classJobs s cls.id).map (·.workPs)).sum ≤
        ((classJobs s cls.id).map fun r => (ledger r.jobId s.history).executedPs).sum :=
      List.sum_le_sum fun r hr => (hrecord r hr).executed (hdone r hr)
    have hnonneg : 0 ≤ ((classJobs s cls.id).map (·.workPs)).sum := by
      apply List.sum_nonneg
      intro w hw
      obtain ⟨r, hr, rfl⟩ := List.mem_map.mp hw
      exact (hrecord r hr).work_nonneg
    rw [hempty]
    push_cast at hexecuted ⊢
    omega

/-- A test of the records and the segments of class `A` at the end of a run. -/
def insideWindow (c : CompiledScenario) (s : RunnerState) : Bool :=
  (classJobs s "A").all fun r => r.completePs.isSome && decide (r.jobId ∉ s.running.keys) &&
    (segments r.jobId s.history).all fun e =>
      decide (c.windowStartPs ≤ e.1) && decide (e.2 ≤ c.windowEndPs)

theorem of_insideWindow (hc : c.WellFormed) (hs : Reachable c s) (hend : nextEvent c s = none)
    (h : insideWindow c s = true) : ∀ r ∈ classJobs s "A", r.completePs.isSome ∧
      ∀ t, RunningAt c r.jobId t → c.windowStartPs ≤ t ∧ t < c.windowEndPs := by
  intro r hr
  simp only [insideWindow, List.all_eq_true, Bool.and_eq_true, decide_eq_true_eq] at h
  obtain ⟨⟨hdone, hrunning⟩, hsegments⟩ := h r hr
  exact ⟨hdone, fun t ht => inside_of_segments hc hs hend hrunning hsegments ht⟩

/-- Two jobs of one class that run on two units at once. -/
def twoUnits : Scenario :=
  { traceScenario [traceClass "A" [0, 1] 10 0 [("compute", 1)],
      traceClass "B" [50] 1 0 [("compute", 1)]] [] with computeCapacity := 2 }

/-- The time at which both jobs run counts once for the utilization and twice for the load. -/
theorem twoUnits_count_once : twoUnits.validate = .ok () ∧
    ∃ c s, compileScenario twoUnits none = .ok c ∧ endState c 2 = .ok (some s) ∧
      (∀ r ∈ classJobs s "A", r.completePs.isSome ∧
        ∀ t, RunningAt c r.jobId t → c.windowStartPs ≤ t ∧ t < c.windowEndPs) ∧
      ∃ cm ∈ (finish c s).classMetrics, cm.classId = "A" ∧
        cm.achievedUtilization = 11 / 100 ∧ cm.offeredLoadRatio = 1 / 5 ∧
        cm.achievedUtilization ≠ cm.offeredLoadRatio := by
  have htest : testEnd twoUnits 2 (fun c s => insideWindow c s &&
      (finish c s).classMetrics.any fun cm =>
        decide (cm.classId = "A") && decide (cm.achievedUtilization = 11 / 100) &&
          decide (cm.offeredLoadRatio = 1 / 5)) = true := by decide +kernel
  obtain ⟨hv, c, s, hcompile, hend, htest⟩ := of_testEnd htest
  have hc := (compileScenario_wellFormed hv hcompile).2
  simp only [Bool.and_eq_true, decide_eq_true_eq, List.any_eq_true] at htest
  obtain ⟨hinside, cm, hcm, ⟨hid, hachieved⟩, hoffered⟩ := htest
  obtain ⟨hreach, hnext, _⟩ := endState_eq_some hend
  refine ⟨hv, c, s, hcompile, hend, of_insideWindow hc hreach hnext hinside, cm, hcm, hid,
    hachieved, hoffered, ?_⟩
  rw [hachieved, hoffered]
  norm_num

/-- The jobs of a class that run one after the other give equal ratios. -/
theorem utilization_eq_load_iff_serial : ∃ c s cm, endState c 2 = .ok (some s) ∧
    cm ∈ (finish c s).classMetrics ∧ cm.achievedUtilization = 2 / 5 ∧
    (overlapPs c s "A" : ℤ) = unmeasuredPs c s "A" + repeatedPs s "A" := by
  have htest : testEnd (traceScenario [traceClass "A" [0, 20] 10 0 [("compute", 1)],
      traceClass "B" [50] 1 0 [("compute", 1)]] []) 2 (fun c s => insideWindow c s &&
      (finish c s).classMetrics.any fun cm =>
        decide (cm.classId = "A") && decide (cm.achievedUtilization = 2 / 5) &&
          decide (cm.offeredLoadRatio = 2 / 5)) = true := by decide +kernel
  obtain ⟨hv, c, s, hcompile, hend, htest⟩ := of_testEnd htest
  have hc := (compileScenario_wellFormed hv hcompile).2
  simp only [Bool.and_eq_true, decide_eq_true_eq, List.any_eq_true] at htest
  obtain ⟨hinside, cm, hcm, ⟨hid, hachieved⟩, hoffered⟩ := htest
  obtain ⟨hreach, hnext, _⟩ := endState_eq_some hend
  have hjobs := of_insideWindow hc hreach hnext hinside
  have hiff := (utilization_eq_load_iff hv hcompile hend List.mem_cons_self rfl
    (fun r hr => (hjobs r hr).1) (fun r hr => (hjobs r hr).2) hcm hid).2
  exact ⟨c, s, cm, hend, hcm, hachieved, hiff.mp (hachieved.trans hoffered.symm)⟩

end Runner

end NpuArc
