import NpuArc.Runner.Execution
import NpuArc.Scheduler.BusyTime

/-!
# Execution segments

A segment of a job lasts from a start to the preemption or completion that ends it. The busy
intervals of the collector are exactly the segments that have ended and took time, whatever
resources their jobs require.
-/

namespace NpuArc

namespace Runner

variable {c : CompiledScenario} {s s' : RunnerState} {jobId : String}

/-- The ended segments of a job, most recent first. -/
def segments (jobId : String) : List (Action × RunnerCore) → List (ℤ × ℤ)
  | [] => []
  | (a, t) :: older =>
    if a = .preempt jobId ∨ a = .complete jobId then
      ((ledger jobId older).lastStartPs, t.now) :: segments jobId older
    else segments jobId older

/-- Only moves of a job change its segments. -/
theorem segments_of_not_move {a : Action} (ha : ¬IsMove jobId a) (t : RunnerCore)
    (h : List (Action × RunnerCore)) : segments jobId ((a, t) :: h) = segments jobId h := by
  simp only [IsMove, not_or] at ha
  simp [segments, ha.2.1, ha.2.2]

@[simp] theorem segments_start (jobId other : String) (t : RunnerCore)
    (h : List (Action × RunnerCore)) : segments jobId ((.start other, t) :: h) = segments jobId h := by
  simp [segments]

/-- A start opens a segment at the present instant. -/
theorem lastStart_start (a jobId : String) (t : RunnerCore) (h : List (Action × RunnerCore)) :
    (ledger a ((.start jobId, t) :: h)).lastStartPs =
      if a = jobId then t.now else (ledger a h).lastStartPs := by
  by_cases ha : a = jobId
  · subst ha
    simp [ledger]
  · have hmove : ¬IsMove a (.start jobId) := by
      simp [IsMove, Ne.symm ha]
    rw [ledger_of_not_move hmove, if_neg ha]

/-- The end of a segment leaves the last start of every job. -/
theorem lastStart_of_end {a : Action} (ha : a = .preempt jobId ∨ a = .complete jobId)
    (t : RunnerCore) (h : List (Action × RunnerCore)) (b : String) :
    (ledger b ((a, t) :: h)).lastStartPs = (ledger b h).lastStartPs := by
  rcases ha with rfl | rfl
  · simp only [ledger, reduceCtorEq, if_false, Action.preempt.injEq]
    split_ifs <;> rfl
  · simp only [ledger, reduceCtorEq, if_false, Action.complete.injEq]
    split_ifs <;> rfl

/-- The end of a segment adds it to the segments of its job. -/
theorem segments_of_end {a : Action} (ha : a = .preempt jobId ∨ a = .complete jobId)
    (t : RunnerCore) (h : List (Action × RunnerCore)) (b : String) :
    segments b ((a, t) :: h) = if b = jobId then
      ((ledger jobId h).lastStartPs, t.now) :: segments jobId h
    else segments b h := by
  by_cases hb : b = jobId
  · subst hb
    rcases ha with rfl | rfl
    · simp [segments]
    · simp [segments]
  · rcases ha with rfl | rfl
    · simp [segments, hb, Ne.symm hb]
    · simp [segments, hb, Ne.symm hb]

/-- The total length of the segments of a job is what its ledger shows. -/
theorem sum_segments (jobId : String) (h : List (Action × RunnerCore)) :
    ((segments jobId h).map fun e => e.2 - e.1).sum = (ledger jobId h).executedPs := by
  induction h with
  | nil => rfl
  | cons e older ih =>
    obtain ⟨a, t⟩ := e
    by_cases hmove : IsMove jobId a
    · rcases hmove with rfl | rfl | rfl
      · rw [segments_start, ih]
        simp [ledger]
      · simp only [segments, true_or, if_true, List.map_cons, List.sum_cons, ih]
        simp [ledger, Ledger.close]
        omega
      · simp only [segments, or_true, if_true, List.map_cons, List.sum_cons, ih]
        simp [ledger, Ledger.close]
        omega
    · rw [segments_of_not_move hmove, ledger_of_not_move hmove, ih]

/-- The running segments and the ended ones, and the busy intervals that they leave. -/
structure Timed (c : CompiledScenario) (s : RunnerState) : Prop where
  startTimes : ∀ jobId ∈ s.running.keys,
    s.startTimes.get? jobId = some (ledger jobId s.history).lastStartPs
  started : ∀ jobId ∈ s.running.keys, (ledger jobId s.history).lastStartPs ≤ s.now
  ended : ∀ jobId, ∀ e ∈ segments jobId s.history, e.1 ≤ e.2 ∧ e.2 ≤ s.now
  before : ∀ jobId ∈ s.running.keys, ∀ e ∈ segments jobId s.history,
    e.2 ≤ (ledger jobId s.history).lastStartPs
  ordered : ∀ jobId, (segments jobId s.history).Pairwise fun later earlier => earlier.2 ≤ later.1
  resource : ∀ name e, e ∈ (s.collector.resourceIntervals.get? name).getD [] ↔
    name = "compute" ∧ e.1 < e.2 ∧ ∃ jobId, e ∈ segments jobId s.history
  ofClass : ∀ key e, e ∈ (s.collector.classResourceIntervals.get? key).getD [] ↔
    e.1 < e.2 ∧ ∃ jobId, key = (classFor c jobId).id ++ ":compute" ∧ e ∈ segments jobId s.history

/-- What moves no job, and takes no time back, keeps the segments. -/
theorem Timed.of_same (h : Timed c s) (hrunning : s'.running = s.running)
    (hstart : s'.startTimes = s.startTimes)
    (hledger : ∀ jobId, ledger jobId s'.history = ledger jobId s.history)
    (hsegments : ∀ jobId, segments jobId s'.history = segments jobId s.history)
    (hnow : s.now ≤ s'.now)
    (hresource : s'.collector.resourceIntervals = s.collector.resourceIntervals)
    (hclass : s'.collector.classResourceIntervals = s.collector.classResourceIntervals) :
    Timed c s' := by
  refine ⟨?_, ?_, ?_, ?_, ?_, ?_, ?_⟩
  all_goals simp only [hrunning, hstart, hledger, hsegments, hresource, hclass]
  · exact h.startTimes
  · exact fun a ha => (h.started a ha).trans hnow
  · exact fun a e he => ⟨(h.ended a e he).1, (h.ended a e he).2.trans hnow⟩
  · exact h.before
  · exact h.ordered
  · exact h.resource
  · exact h.ofClass

theorem Timed.setKernel (h : Timed c s) {k : Kernel RunnerPayload} (hnow : s.now ≤ k.nowPs) :
    Timed c { s with kernel := k } :=
  h.of_same rfl rfl (fun _ => rfl) (fun _ => rfl) hnow rfl rfl

/-- An action that moves no job keeps the segments. -/
theorem Timed.of_log (h : Timed c s) {a : Action} {t : RunnerCore} (ha : ∀ jobId, ¬IsMove jobId a)
    (hhistory : s'.history = (a, t) :: s.history) (hrunning : s'.running = s.running)
    (hstart : s'.startTimes = s.startTimes) (hnow : s'.now = s.now)
    (hresource : s'.collector.resourceIntervals = s.collector.resourceIntervals)
    (hclass : s'.collector.classResourceIntervals = s.collector.classResourceIntervals) :
    Timed c s' := by
  apply h.of_same hrunning hstart ?_ ?_ hnow.ge hresource hclass
  · intro jobId
    rw [hhistory, ledger_of_not_move (ha jobId)]
  · intro jobId
    rw [hhistory, segments_of_not_move (ha jobId)]

/-- A start opens a segment. -/
theorem Timed.start (h : Timed c s) {ev : RunnerEvent}
    (hs : Started c jobId s s' ev) (hnow : s'.now = s.now) : Timed c s' := by
  have hledger : ∀ a, (ledger a s'.history).lastStartPs =
      if a = jobId then s.now else (ledger a s.history).lastStartPs := by
    intro a
    rw [hs.history, lastStart_start]
  have hsegments : ∀ a, segments a s'.history = segments a s.history := by
    intro a
    rw [hs.history, segments_start]
  have hkeys : ∀ a ∈ s'.running.keys, a ≠ jobId → a ∈ s.running.keys := by
    intro a ha hne
    rw [hs.running, Dict.mem_keys_insert] at ha
    exact ha.resolve_left hne
  refine ⟨?_, ?_, ?_, ?_, ?_, ?_, ?_⟩
  · intro a ha
    rw [hs.startTimes, Dict.get?_insert, hledger]
    split_ifs with heq
    · rfl
    · exact h.startTimes a (hkeys a ha heq)
  · intro a ha
    rw [hledger, hnow]
    split_ifs with heq
    · exact le_rfl
    · exact h.started a (hkeys a ha heq)
  · intro a e he
    rw [hsegments] at he
    rw [hnow]
    exact h.ended a e he
  · intro a ha e he
    rw [hsegments] at he
    rw [hledger]
    split_ifs with heq
    · exact (h.ended a e he).2
    · exact h.before a (hkeys a ha heq) e he
  · intro a
    rw [hsegments]
    exact h.ordered a
  · simp only [hs.books.resource, hsegments]
    exact h.resource
  · simp only [hs.books.ofClass, hsegments]
    exact h.ofClass

/-- Recording a busy interval adds it to the list of its resource if it took time. -/
theorem mem_recordResourceBusy {m : MetricsCollector} (name key : String) {cid : String}
    {start stop : ℤ} {e : ℤ × ℤ} :
    (e ∈ ((m.recordResourceBusy "compute" start stop (some cid)).resourceIntervals.get? name).getD []
      ↔ e ∈ (m.resourceIntervals.get? name).getD [] ∨
        name = "compute" ∧ start < stop ∧ e = (start, stop)) ∧
    (e ∈ ((m.recordResourceBusy "compute" start stop (some cid)).classResourceIntervals.get?
        key).getD [] ↔ e ∈ (m.classResourceIntervals.get? key).getD [] ∨
        key = cid ++ ":compute" ∧ start < stop ∧ e = (start, stop)) := by
  unfold MetricsCollector.recordResourceBusy
  split_ifs with hempty
  · have hnot : ¬start < stop := not_lt.mpr hempty
    simp [hnot]
  · have hlt : start < stop := not_le.mp hempty
    have happend : ∀ (d : Dict String (List (ℤ × ℤ))) (k a : String),
        e ∈ ((MetricsCollector.appendTo d k (start, stop)).get? a).getD [] ↔
          e ∈ (d.get? a).getD [] ∨ a = k ∧ e = (start, stop) := by
      intro d k a
      unfold MetricsCollector.appendTo
      rw [Dict.get?_insert]
      by_cases ha : a = k
      · simp [ha]
      · simp [ha]
    constructor
    · rw [happend]
      simp [hlt]
    · have hkey : cid ++ ":" ++ "compute" = cid ++ ":compute" := by
        rw [String.append_assoc]
        rfl
      dsimp only
      rw [happend, hkey]
      simp [hlt]

/-- The end of a segment books it. -/
theorem Timed.close (h : Timed c s) (hrunning : jobId ∈ s.running.keys) {a : Action}
    (ha : a = .preempt jobId ∨ a = .complete jobId)
    (hhistory : s'.history = (a, s.toRunnerCore) :: s.history)
    (herase : s'.running = s.running.erase jobId) (hnow : s'.now = s.now)
    (hb : Booked c jobId s.toRunnerCore s'.toRunnerCore) : Timed c s' := by
  have hstart : (s.startTimes.get? jobId).getD s.now = (ledger jobId s.history).lastStartPs := by
    rw [h.startTimes jobId hrunning]
    rfl
  have hlast : ∀ b, (ledger b s'.history).lastStartPs = (ledger b s.history).lastStartPs := by
    intro b
    rw [hhistory, lastStart_of_end ha]
  have hsegments : ∀ b, segments b s'.history = if b = jobId then
      ((ledger jobId s.history).lastStartPs, s.now) :: segments jobId s.history
    else segments b s.history := by
    intro b
    rw [hhistory, segments_of_end ha]
  have hkeys : ∀ b ∈ s'.running.keys, b ≠ jobId ∧ b ∈ s.running.keys := by
    intro b hb
    rw [herase, Dict.mem_keys_erase] at hb
    exact hb
  have hmem : ∀ b e, e ∈ segments b s'.history ↔ e ∈ segments b s.history ∨
      b = jobId ∧ e = ((ledger jobId s.history).lastStartPs, s.now) := by
    intro b e
    rw [hsegments]
    split_ifs with hb
    · subst hb
      rw [List.mem_cons, or_comm]
      simp
    · simp [hb]
  have hstarted := h.started jobId hrunning
  refine ⟨?_, ?_, ?_, ?_, ?_, ?_, ?_⟩
  · intro b hb'
    obtain ⟨hne, hb'⟩ := hkeys b hb'
    rw [hb.startTimes, Dict.get?_erase, if_neg hne, hlast]
    exact h.startTimes b hb'
  · intro b hb'
    rw [hlast, hnow]
    exact h.started b (hkeys b hb').2
  · intro b e he
    rw [hnow]
    rcases (hmem b e).mp he with he | ⟨_, rfl⟩
    · exact h.ended b e he
    · exact ⟨hstarted, le_rfl⟩
  · intro b hb' e he
    obtain ⟨hne, hb'⟩ := hkeys b hb'
    rw [hsegments, if_neg hne] at he
    rw [hlast]
    exact h.before b hb' e he
  · intro b
    rw [hsegments]
    split_ifs with hb'
    · subst hb'
      exact List.pairwise_cons.mpr ⟨fun e he => h.before b hrunning e he, h.ordered b⟩
    · exact h.ordered b
  · intro name e
    rw [hb.resource, (mem_recordResourceBusy name "").1, h.resource, hstart]
    simp only [hmem]
    constructor
    · rintro (⟨hname, hlt, b, he⟩ | ⟨hname, hlt, rfl⟩)
      · exact ⟨hname, hlt, b, .inl he⟩
      · exact ⟨hname, hlt, jobId, .inr ⟨rfl, rfl⟩⟩
    · rintro ⟨hname, hlt, b, he | ⟨_, rfl⟩⟩
      · exact .inl ⟨hname, hlt, b, he⟩
      · exact .inr ⟨hname, hlt, rfl⟩
  · intro key e
    rw [hb.ofClass, (mem_recordResourceBusy "" key).2, h.ofClass, hstart]
    simp only [hmem]
    constructor
    · rintro (⟨hlt, b, hkey, he⟩ | ⟨hkey, hlt, rfl⟩)
      · exact ⟨hlt, b, hkey, .inl he⟩
      · exact ⟨hlt, jobId, hkey, .inr ⟨rfl, rfl⟩⟩
    · rintro ⟨hlt, b, hkey, he | ⟨rfl, rfl⟩⟩
      · exact .inl ⟨hlt, b, hkey, he⟩
      · exact .inr ⟨hkey, hlt, rfl⟩

theorem timed_init (h : scheduleArrivals c (init c) = .ok s) : Timed c s := by
  obtain ⟨k, rfl⟩ := scheduleArrivals_spec h
  refine ⟨nofun, nofun, nofun, nofun, fun _ => .nil, ?_, ?_⟩
  · intro name e
    exact iff_of_false nofun nofun
  · intro key e
    exact iff_of_false nofun nofun

/-- Retiring the job of a popped timer takes no time. -/
theorem Retired.now_eq (hc : c.WellFormed) (hv : Visited c s) {ev : RunnerEvent}
    {k : Kernel RunnerPayload} (hpop : Popped c s.toRunnerCore ev k)
    (hpayload : ev.payload = .client (.complete jobId))
    (h : Retired c jobId { s with kernel := k } s') : s'.now = k.nowPs := by
  have ht := hv.timers hc
  have hadv := ht.advanced hpop
  obtain ⟨_, _, job, hjob, hhandle⟩ := ht.timer jobId ev (ht.timer_unique hadv.live hpayload)
  have hjob' := hadv.jobs jobId
  rw [hjob, Option.map_some] at hjob'
  have hstate := (handleOf_advance hhandle hadv.future le_rfl).2.imp id And.left
  unfold RunnerCore.now
  rw [h.kernel]
  unfold suppressComplete
  rw [Kernel.completeJob_of_quiet hadv.quiet hjob' hstate]
  split_ifs
  · rfl
  · rfl

/-- Every step keeps the segments. -/
theorem Timed.step (hc : c.WellFormed) (hv : Visited c s) (ht : Timed c s) (h : Step c s s') :
    Timed c s' := by
  have hfuture : ∀ {ev : RunnerEvent} {k : Kernel RunnerPayload}, Popped c s.toRunnerCore ev k →
      s.now ≤ k.nowPs := by
    intro ev k hpop
    have hadv := (hv.timers hc).advanced hpop
    rw [hadv.now]
    exact hadv.future
  cases h with
  | dispatch hpop _ => exact ht.setKernel (hfuture hpop)
  | arrive hpop _ _ h =>
    exact (ht.setKernel (hfuture hpop)).of_log (fun _ => by simp [IsMove]) h.history h.running
      h.startTimes (congrArg Kernel.nowPs h.kernel) h.filed.resource h.filed.ofClass
  | complete hpop hpayload hrunning h =>
    exact (ht.setKernel (hfuture hpop)).close hrunning (.inr rfl) h.history h.running
      (h.now_eq hc hv hpop hpayload) h.booked
  | stale hpop _ _ => exact ht.setKernel (hfuture hpop)
  | offer _ =>
    exact ht.of_log (fun _ => by simp [IsMove]) rfl rfl rfl rfl rfl rfl
  | start hstartable hfits h =>
    exact ht.start h
      (PassSteps.kernel hc hv (.single (.start hstartable hfits h))).1
  | preempt hrunning h =>
    exact ht.close (Dict.mem_keys.mpr ⟨_, hrunning⟩) (.inl rfl) h.history h.running
      (PassSteps.kernel hc hv (.single (.preempt hrunning h))).1 h.booked
  | check _ h =>
    exact ht.of_log (fun _ => by simp [IsMove]) h.history h.running h.startTimes
      (congrArg Kernel.nowPs h.kernel) h.books.resource h.books.ofClass
  | request _ => exact ht.setKernel le_rfl

theorem Visited.timed (hc : c.WellFormed) (h : Visited c s) : Timed c s := by
  induction h with
  | init h => exact timed_init h
  | step hs h ih => exact ih.step hc hs h

end Runner

end NpuArc
