import NpuArc.Runner.Preemption

/-!
# Executed work

The ledger of a job adds up its execution segments, from each start to the preemption or
completion that ends it. Together with the work that the kernel or the runner remembers
as remaining, it always accounts for the work of the release, unless a job is started
while it waits behind the head of its FIFO: it then stays queued and is executed again.
-/

namespace NpuArc

namespace Runner

variable {c : CompiledScenario} {s s' : RunnerState} {jobId : String}

/-! ### Ledgers -/

/-- The execution segments of a job. -/
structure Ledger where
  /-- The total length of the segments that have ended. -/
  executedPs : ℤ := 0
  /-- The start of the most recent segment. -/
  lastStartPs : ℤ := 0
  /-- The number of completions. -/
  completions : ℕ := 0

/-- End the segment that started last. -/
def Ledger.close (l : Ledger) (nowPs : ℤ) : Ledger :=
  { l with executedPs := l.executedPs + (nowPs - l.lastStartPs) }

/-- The ledger of a job after some history. -/
def ledger (jobId : String) : List (Action × RunnerCore) → Ledger
  | [] => {}
  | (a, t) :: older =>
    let l := ledger jobId older
    if a = .start jobId then { l with lastStartPs := t.now }
    else if a = .preempt jobId then l.close t.now
    else if a = .complete jobId then { l.close t.now with completions := l.completions + 1 }
    else l

/-- Only the moves of a job change its ledger. -/
theorem ledger_of_not_move {a : Action} (ha : ¬IsMove jobId a) (t : RunnerCore)
    (h : List (Action × RunnerCore)) : ledger jobId ((a, t) :: h) = ledger jobId h := by
  simp only [IsMove, not_or] at ha
  simp [ledger, ha.1, ha.2.1, ha.2.2]

/-- The last move of a job is one of its moves. -/
theorem isMove_of_lastMove {h : List (Action × RunnerCore)} {a : Action}
    (hmove : lastMove jobId h = some a) : IsMove jobId a := by
  induction h with
  | nil => cases hmove
  | cons e h ih =>
    obtain ⟨b, t⟩ := e
    unfold lastMove at hmove
    split_ifs at hmove with hb
    · cases hmove
      exact hb
    · exact ih hmove

/-- Only the moves of a job change its last move. -/
theorem lastMove_of_not_move {a : Action} (ha : ¬IsMove jobId a) (t : RunnerCore)
    (h : List (Action × RunnerCore)) : lastMove jobId ((a, t) :: h) = lastMove jobId h :=
  if_neg ha

/-! ### Tallies -/

/-- The ledger of a job and its remaining work add up to the work of its release. -/
structure Tally (c : CompiledScenario) (jobId : String) (s : RunnerState) : Prop where
  fresh : lastMove jobId s.history = none → (ledger jobId s.history).executedPs = 0 ∧
    (ledger jobId s.history).completions = 0 ∧ s.preemptedRemaining.get? jobId = none
  running : ∀ e, s.running.get? jobId = some e →
    (ledger jobId s.history).executedPs + (e.timePs - (ledger jobId s.history).lastStartPs) =
        (releaseOf c jobId).workPs ∧
      (ledger jobId s.history).lastStartPs ≤ e.timePs ∧ (ledger jobId s.history).completions = 0
  preempted : lastMove jobId s.history = some (.preempt jobId) →
    ∃ v, s.preemptedRemaining.get? jobId = some v ∧ 0 ≤ v ∧
      (ledger jobId s.history).executedPs + v = (releaseOf c jobId).workPs ∧
      (ledger jobId s.history).completions = 0
  completed : lastMove jobId s.history = some (.complete jobId) →
    (ledger jobId s.history).executedPs = (releaseOf c jobId).workPs ∧
      (ledger jobId s.history).completions = 1

/-- A step that does not move a job keeps its tally. -/
theorem Tally.of_not_move (h : Tally c jobId s) {a : Action} {t : RunnerCore}
    (ha : ¬IsMove jobId a) (hhistory : s'.history = (a, t) :: s.history)
    (hrunning : s'.running.get? jobId = s.running.get? jobId)
    (hremaining : s'.preemptedRemaining.get? jobId = s.preemptedRemaining.get? jobId) :
    Tally c jobId s' := by
  refine ⟨?_, ?_, ?_, ?_⟩ <;>
    simp only [hhistory, lastMove_of_not_move ha, ledger_of_not_move ha, hrunning, hremaining]
  · exact h.fresh
  · exact h.running
  · exact h.preempted
  · exact h.completed

/-- A started job announces exactly the work that its ledger does not show yet. -/
theorem Tally.start (hc : c.WellFormed) (ht : Timers c s.toRunnerCore) (h : Tally c jobId s)
    (hknown : Known c jobId) {ev : RunnerEvent} (hs : Started c jobId s s' ev)
    (hmove : lastMove jobId s.history = none ∨ lastMove jobId s.history = some (.preempt jobId)) :
    Tally c jobId s' := by
  obtain ⟨_, _, _, _, _, hev, _⟩ := hs.kernel_eq hc ht hknown
  have hnonneg := remainingOf_nonneg hc ht hknown
  have hremaining : (ledger jobId s.history).executedPs + remainingOf c jobId s.toRunnerCore =
      (releaseOf c jobId).workPs ∧ (ledger jobId s.history).completions = 0 := by
    unfold remainingOf
    rcases hmove with hnone | hpre
    · obtain ⟨hexec, hcomp, hrem⟩ := h.fresh hnone
      rw [hrem, hexec]
      exact ⟨by simp, hcomp⟩
    · obtain ⟨v, hv, _, hsum, hcomp⟩ := h.preempted hpre
      rw [hv]
      exact ⟨hsum, hcomp⟩
  have hledger : ledger jobId s'.history =
      { ledger jobId s.history with lastStartPs := s.now } := by
    rw [hs.history]
    simp [ledger]
  have hlast : lastMove jobId s'.history = some (.start jobId) := by
    rw [hs.history, lastMove_start, if_pos rfl]
  refine ⟨by simp [hlast], fun e he => ?_, by simp [hlast], by simp [hlast]⟩
  rw [hs.running, Dict.get?_insert, if_pos rfl, Option.some.injEq] at he
  subst he
  rw [hledger, hev]
  simp only [RunnerCore.now]
  omega

/-- A preempted job keeps the work that its timer still announced. -/
theorem Tally.preempt (ht : Timers c s.toRunnerCore) (h : Tally c jobId s) {ev : RunnerEvent}
    (hrunning : s.running.get? jobId = some ev) (hs : Preempted c jobId s s' ev) :
    Tally c jobId s' := by
  obtain ⟨hlive, _, job, hjob, hrem, _⟩ := ht.timer jobId ev hrunning
  obtain ⟨hsum, _, hcomp⟩ := h.running ev hrunning
  have hfuture := ht.future ev hlive
  have hledger : ledger jobId s'.history = (ledger jobId s.history).close s.now := by
    rw [hs.history]
    simp [ledger]
  have hlast : lastMove jobId s'.history = some (.preempt jobId) := by
    rw [hs.history, lastMove_preempt, if_pos rfl]
  have hgone : s'.running.get? jobId = none := by
    rw [hs.running, Dict.get?_erase, if_pos rfl]
  refine ⟨by simp [hlast], by simp [hgone], fun _ => ?_, by simp [hlast]⟩
  refine ⟨ev.timePs - s.now, ?_, ?_, ?_, ?_⟩
  · rw [hs.preemptedRemaining, hjob, Dict.get?_insert, if_pos rfl]
    exact congrArg some hrem
  · change 0 ≤ ev.timePs - s.kernel.nowPs
    omega
  · rw [hledger, Ledger.close]
    dsimp only
    omega
  · rw [hledger]
    exact hcomp

/-- A job completes when its timer comes, so its ledger then shows all of its work. -/
theorem Tally.complete (h : Tally c jobId s) {ev : RunnerEvent}
    (hrunning : s.running.get? jobId = some ev) (hnow : s.now = ev.timePs)
    (hs : Retired c jobId s s') : Tally c jobId s' := by
  obtain ⟨hsum, _, hcomp⟩ := h.running ev hrunning
  have hledger : ledger jobId s'.history = { (ledger jobId s.history).close s.now with
      completions := (ledger jobId s.history).completions + 1 } := by
    rw [hs.history]
    simp [ledger]
  have hlast : lastMove jobId s'.history = some (.complete jobId) := by
    rw [hs.history, lastMove_complete, if_pos rfl]
  have hgone : s'.running.get? jobId = none := by
    rw [hs.running, Dict.get?_erase, if_pos rfl]
  refine ⟨by simp [hlast], by simp [hgone], by simp [hlast], fun _ => ?_⟩
  rw [hledger, Ledger.close, hcomp]
  dsimp only
  omega

/-- The kernel does not enter the tally. -/
theorem Tally.setKernel (h : Tally c jobId s) (k : Kernel RunnerPayload) :
    Tally c jobId { s with kernel := k } :=
  ⟨h.fresh, h.running, h.preempted, h.completed⟩

/-! ### Exclusive places -/

/-- A FIFO job is at the head of its queue or not queued. -/
def HeadOrAbsent (c : CompiledScenario) (jobId : String) (t : RunnerCore) : Prop :=
  jobId ∈ fifoOf c jobId t → (fifoOf c jobId t).head? = some jobId

instance (t : RunnerCore) : Decidable (HeadOrAbsent c jobId t) :=
  inferInstanceAs (Decidable (_ → _))

/-- Running and completed jobs are not queued, and no job is queued twice. -/
structure Unqueued (c : CompiledScenario) (s : RunnerState) : Prop where
  running : ∀ jobId, lastMove jobId s.history = some (.start jobId) →
    jobId ∉ fifoOf c jobId s.toRunnerCore
  completed : ∀ jobId, lastMove jobId s.history = some (.complete jobId) →
    jobId ∉ fifoOf c jobId s.toRunnerCore
  nodup : ∀ key, (s.fifoAt key).Nodup

/-- Moves of other jobs and changes inside the queues' old contents are harmless. -/
private theorem Unqueued.of_sublist (h : Unqueued c s)
    (hsub : ∀ key, (s'.fifoAt key).Sublist (s.fifoAt key))
    (hmove : ∀ a, a ∈ fifoOf c a s'.toRunnerCore → lastMove a s'.history = lastMove a s.history) :
    Unqueued c s' where
  running a ha hm := h.running a ((hmove a hm).symm.trans ha) ((hsub _).subset hm)
  completed a ha hm := h.completed a ((hmove a hm).symm.trans ha) ((hsub _).subset hm)
  nodup key := (h.nodup key).sublist (hsub key)

theorem Unqueued.start (h : Unqueued c s) (hhead : HeadOrAbsent c jobId s.toRunnerCore)
    (hp : Places c s) {ev : RunnerEvent} (hs : Started c jobId s s' ev) : Unqueued c s' := by
  have hsub : ∀ key, (s'.fifoAt key).Sublist (s.fifoAt key) := by
    intro key
    rw [hs.fifoAt, fifoAfterTake]
    split_ifs
    · exact List.tail_sublist _
    · exact List.Sublist.refl _
  -- the started job has left its queue
  have hgone : jobId ∉ fifoOf c jobId s'.toRunnerCore := by
    intro hm
    have hold : jobId ∈ fifoOf c jobId s.toRunnerCore := (hsub _).subset hm
    have hfirst := hhead hold
    rw [fifoOf, hs.fifoAt, fifoAfterTake, if_pos ⟨(hp.queued _ _ hold).1, rfl, hfirst⟩] at hm
    obtain ⟨rest, hrest⟩ := List.head?_eq_some_iff.mp hfirst
    have hnodup := h.nodup (fifoKeyOf c jobId)
    rw [fifoOf] at hrest
    rw [hrest] at hm hnodup
    exact (List.nodup_cons.mp hnodup).1 hm
  refine h.of_sublist hsub fun a ha => ?_
  rw [hs.history, lastMove_start, if_neg]
  rintro rfl
  exact hgone ha

theorem Unqueued.preempt (h : Unqueued c s) (hp : Places c s) {ev : RunnerEvent}
    (hrunning : s.running.get? jobId = some ev) (hs : Preempted c jobId s s' ev) :
    Unqueued c s' := by
  have hmove := (hp.running jobId).mp (Dict.mem_keys.mpr ⟨ev, hrunning⟩)
  have hother : ∀ a, a ≠ jobId → a ∈ fifoOf c a s'.toRunnerCore →
      a ∈ fifoOf c a s.toRunnerCore := by
    intro a ha hm
    rw [fifoOf, hs.fifoAt] at hm
    exact (mem_fifoAfterReturn hm).resolve_left fun hj => ha hj.1
  have hne : ∀ a b, lastMove a s'.history = some b → b ≠ .preempt a →
      a ≠ jobId ∧ lastMove a s.history = some b := by
    intro a b hb hba
    rw [hs.history, lastMove_preempt] at hb
    split_ifs at hb with ha
    · rw [Option.some.injEq, ← ha] at hb
      exact absurd hb.symm hba
    · exact ⟨ha, hb⟩
  refine ⟨fun a ha hm => ?_, fun a ha hm => ?_, fun key => ?_⟩
  · obtain ⟨hja, hold⟩ := hne a _ ha (by simp)
    exact h.running a hold (hother a hja hm)
  · obtain ⟨hja, hold⟩ := hne a _ ha (by simp)
    exact h.completed a hold (hother a hja hm)
  · rw [hs.fifoAt, fifoAfterReturn]
    split_ifs with hcond
    · refine List.nodup_cons.mpr ⟨?_, h.nodup key⟩
      rw [hcond.2.1]
      exact h.running jobId hmove
    · exact h.nodup key

theorem Unqueued.complete (h : Unqueued c s) (hp : Places c s)
    (hrunning : jobId ∈ s.running.keys) (hs : Retired c jobId s s') : Unqueued c s' := by
  refine h.of_sublist (fun key => by rw [hs.fifoAt]) fun a ha => ?_
  rw [hs.history, lastMove_complete, if_neg]
  rintro rfl
  rw [fifoOf, hs.fifoAt] at ha
  exact h.running a ((hp.running a).mp hrunning) ha

theorem Unqueued.arrive (h : Unqueued c s) (hp : Places c s) {r : JobRelease}
    (hr : Received c r s s') : Unqueued c s' := by
  have hkeep : (∀ key, s'.fifoAt key = s.fifoAt key) → Unqueued c s' := fun hfifo =>
    h.of_sublist (fun key => by rw [hfifo]) fun a _ => by rw [hr.history, lastMove_arrive]
  cases hr.fate with
  | rejected hfifo => exact hkeep hfifo
  | dropped _ hfifo => exact hkeep hfifo
  | posted _ hfifo => exact hkeep hfifo
  | queued hF capacity hcapacity hroom hfifo =>
    have hfresh : lastMove r.jobId s.history = none := by
      by_contra hmove
      exact hp.moved r.jobId hmove hr.fresh
    have hmem : ∀ a key, a ∈ s'.fifoAt key → a = r.jobId ∨ a ∈ s.fifoAt key := by
      intro a key ha
      rw [hfifo] at ha
      split_ifs at ha
      · rcases List.mem_append.mp ha with ha | ha
        · exact Or.inr ha
        · exact Or.inl (List.mem_singleton.mp ha)
      · exact Or.inr ha
    refine ⟨fun a ha hm => ?_, fun a ha hm => ?_, fun key => ?_⟩
    · rw [hr.history, lastMove_arrive] at ha
      rcases hmem a _ hm with rfl | hold
      · simp [hfresh] at ha
      · exact h.running a ha hold
    · rw [hr.history, lastMove_arrive] at ha
      rcases hmem a _ hm with rfl | hold
      · simp [hfresh] at ha
      · exact h.completed a ha hold
    · rw [hfifo]
      split_ifs
      · refine List.Nodup.append (h.nodup key) (List.nodup_singleton _) fun a ha hnew => ?_
        rw [List.mem_singleton.mp hnew] at ha
        exact (hp.queued _ _ ha).2.2 hr.fresh
      · exact h.nodup key

theorem Unqueued.setKernel (h : Unqueued c s) (k : Kernel RunnerPayload) :
    Unqueued c { s with kernel := k } :=
  ⟨h.running, h.completed, h.nodup⟩

/-! ### Runs -/

/-- The tallies of all jobs are consistent. -/
structure Accounted (c : CompiledScenario) (s : RunnerState) : Prop where
  tally : ∀ jobId, Tally c jobId s
  unqueued : Unqueued c s

theorem Accounted.setKernel (h : Accounted c s) (k : Kernel RunnerPayload) :
    Accounted c { s with kernel := k } :=
  ⟨fun jobId => (h.tally jobId).setKernel k, h.unqueued.setKernel k⟩

/-- Every step keeps the tallies, provided no job is started behind the head of its FIFO. -/
theorem Accounted.step (hc : c.WellFormed) (hv : Visited c s) (hstep : Step c s s')
    (h : Accounted c s)
    (hhead : ∀ jobId t, (.start jobId, t) ∈ s'.history → HeadOrAbsent c jobId t) :
    Accounted c s' := by
  have hp := hv.places hc
  have ht := hv.timers hc
  cases hstep with
  | dispatch _ _ => exact h.setKernel _
  | stale _ _ _ => exact h.setKernel _
  | request _ => exact h.setKernel _
  | arrive hpop hpayload _ hr =>
    refine ⟨fun a => ?_, Unqueued.arrive (h.unqueued.setKernel _) (hp.setKernel _) hr⟩
    refine ((h.tally a).setKernel _).of_not_move (by simp [IsMove]) hr.history ?_ ?_
    · rw [hr.running]
    · rw [hr.preemptedRemaining]
  | @complete ev k jobId _ hpop hpayload hrunning hr =>
    have hadv := ht.advanced hpop
    have hget := ht.timer_unique hadv.live hpayload
    refine ⟨fun a => ?_, Unqueued.complete (h.unqueued.setKernel _) (hp.setKernel _) ?_ hr⟩
    · by_cases ha : a = jobId
      · subst ha
        exact ((h.tally a).setKernel k).complete hget hadv.now hr
      · refine ((h.tally a).setKernel k).of_not_move ?_ hr.history ?_ ?_
        · simp [IsMove, Ne.symm ha]
        · rw [hr.running, Dict.get?_erase, if_neg ha]
        · rw [hr.preemptedRemaining]
    · exact hrunning
  | offer _ =>
    exact ⟨fun b => (h.tally b).of_not_move (by simp [IsMove]) rfl rfl rfl,
      h.unqueued.of_sublist (fun _ => List.Sublist.refl _) fun b _ => lastMove_offer b _ _ _⟩
  | @start jobId ev _ hstartable _ hs =>
    have hmove : lastMove jobId s.history = none ∨
        lastMove jobId s.history = some (.preempt jobId) := by
      rcases hstartable.2.2 with hpre | hm | hnone
      · exact Or.inr ((hp.preempted jobId).mp hpre)
      · cases hlast : lastMove jobId s.history with
        | none => exact Or.inl rfl
        | some b =>
          rcases isMove_of_lastMove hlast with rfl | rfl | rfl
          · exact absurd hm (h.unqueued.running jobId hlast)
          · exact Or.inr rfl
          · exact absurd hm (h.unqueued.completed jobId hlast)
      · exact Or.inl hnone
    refine ⟨fun a => ?_, h.unqueued.start (hhead jobId s.toRunnerCore ?_) hp hs⟩
    · by_cases ha : a = jobId
      · subst ha
        exact (h.tally a).start hc ht (hp.known a hstartable.1) hs hmove
      · refine (h.tally a).of_not_move ?_ hs.history ?_ ?_
        · simp [IsMove, Ne.symm ha]
        · rw [hs.running, Dict.get?_insert, if_neg ha]
        · rw [hs.preemptedRemaining, Dict.get?_erase, if_neg ha]
    · rw [hs.history]
      exact List.mem_cons_self
  | @preempt jobId ev _ hrunning hs =>
    refine ⟨fun a => ?_, h.unqueued.preempt hp hrunning hs⟩
    by_cases ha : a = jobId
    · subst ha
      exact (h.tally a).preempt ht hrunning hs
    · refine (h.tally a).of_not_move ?_ hs.history ?_ ?_
      · simp [IsMove, Ne.symm ha]
      · rw [hs.running, Dict.get?_erase, if_neg ha]
      · rw [hs.preemptedRemaining, Dict.get?_insert, if_neg ha]
  | check _ hs =>
    refine ⟨fun a => ?_, h.unqueued.of_sublist (fun key => ?_) fun a _ => ?_⟩
    · refine (h.tally a).of_not_move (by simp [IsMove]) hs.history ?_ ?_
      · rw [hs.running]
      · rw [hs.preemptedRemaining]
    · rw [RunnerCore.fifoAt, hs.fifoQueues]
      exact List.Sublist.refl _
    · rw [hs.history, lastMove_check]

theorem accounted_init (hc : c.WellFormed) (h : scheduleArrivals c (init c) = .ok s) :
    Accounted c s := by
  have hp := places_init hc h
  obtain ⟨k, rfl⟩ := scheduleArrivals_spec h
  have hempty : ∀ key, RunnerCore.fifoAt { init c with kernel := k }.toRunnerCore key = [] := by
    intro key
    refine List.eq_nil_iff_forall_not_mem.mpr fun a ha => ?_
    exact (hp.queued _ a ha).2.2 (by simp [RunnerCore.verdict, MetricsCollector.verdict, init])
  refine ⟨fun a => ⟨?_, ?_, ?_, ?_⟩, ⟨?_, ?_, ?_⟩⟩
  · exact fun _ => ⟨rfl, rfl, by simp [init]⟩
  · intro e he
    simp [init] at he
  · intro hm
    simp [init] at hm
  · intro hm
    simp [init] at hm
  · intro a _
    rw [fifoOf, hempty]
    exact List.not_mem_nil
  · intro a _
    rw [fifoOf, hempty]
    exact List.not_mem_nil
  · intro key
    rw [hempty]
    exact List.nodup_nil

/-! ### Exact work -/

/-- Every job executes exactly its own work: never more than the work of its release, all
of it when it completes, at most once, and never while it is also stored. -/
structure ExactWork (c : CompiledScenario) (s : RunnerState) : Prop where
  bounded : ∀ jobId, Known c jobId →
    (ledger jobId s.history).executedPs ≤ (releaseOf c jobId).workPs
  finished : ∀ jobId, 0 < (ledger jobId s.history).completions →
    (ledger jobId s.history).executedPs = (releaseOf c jobId).workPs
  once : ∀ jobId, (ledger jobId s.history).completions ≤ 1
  exclusive : ∀ jobId ∈ s.running.keys, jobId ∉ fifoOf c jobId s.toRunnerCore ∧
    pendingOf c jobId s.toRunnerCore ≠ some jobId

theorem Accounted.exactWork (hc : c.WellFormed) (hp : Places c s) (h : Accounted c s) :
    ExactWork c s := by
  -- the four phases of a job
  have hphase : ∀ jobId, lastMove jobId s.history = none ∨ (∃ e, s.running.get? jobId = some e) ∨
      lastMove jobId s.history = some (.preempt jobId) ∨
      lastMove jobId s.history = some (.complete jobId) := by
    intro jobId
    cases hlast : lastMove jobId s.history with
    | none => exact Or.inl rfl
    | some b =>
      rcases isMove_of_lastMove hlast with rfl | rfl | rfl
      · exact Or.inr (Or.inl (Dict.mem_keys.mp ((hp.running jobId).mpr hlast)))
      · exact Or.inr (Or.inr (Or.inl rfl))
      · exact Or.inr (Or.inr (Or.inr rfl))
  refine ⟨fun jobId hknown => ?_, fun jobId hcomp => ?_, fun jobId => ?_, fun jobId hm => ?_⟩
  · rcases hphase jobId with hnone | ⟨e, he⟩ | hpre | hdone
    · rw [((h.tally jobId).fresh hnone).1]
      exact (known_nonneg hc hknown).2.2
    · obtain ⟨hsum, hle, _⟩ := (h.tally jobId).running e he
      omega
    · obtain ⟨v, _, hv, hsum, _⟩ := (h.tally jobId).preempted hpre
      omega
    · exact ((h.tally jobId).completed hdone).1.le
  · rcases hphase jobId with hnone | ⟨e, he⟩ | hpre | hdone
    · have hzero := ((h.tally jobId).fresh hnone).2.1
      omega
    · have hzero := ((h.tally jobId).running e he).2.2
      omega
    · obtain ⟨v, _, _, _, hzero⟩ := (h.tally jobId).preempted hpre
      omega
    · exact ((h.tally jobId).completed hdone).1
  · rcases hphase jobId with hnone | ⟨e, he⟩ | hpre | hdone
    · have hzero := ((h.tally jobId).fresh hnone).2.1
      omega
    · have hzero := ((h.tally jobId).running e he).2.2
      omega
    · obtain ⟨v, _, _, _, hzero⟩ := (h.tally jobId).preempted hpre
      omega
    · exact ((h.tally jobId).completed hdone).2.le
  · have hlast := (hp.running jobId).mp hm
    refine ⟨h.unqueued.running jobId hlast, fun hpending => ?_⟩
    have hnone := (hp.pending _ _ _ hpending).2.2.2.1
    rw [hlast] at hnone
    cases hnone

/-- A job that is not queued after its start was at the head of its queue or not queued. -/
theorem HeadOrAbsent.of_start {ev : RunnerEvent} (hs : Started c jobId s s' ev)
    (h : jobId ∉ fifoOf c jobId s'.toRunnerCore) : HeadOrAbsent c jobId s.toRunnerCore := by
  intro hm
  by_contra hhead
  refine h ?_
  rw [fifoOf, hs.fifoAt, fifoAfterTake, if_neg fun hcond => hhead hcond.2.2]
  exact hm

/-- Jobs execute exactly their own work, and none is stored while it runs, exactly as long
as every started FIFO job is at the head of its queue or not queued. -/
theorem exact_work_iff {sc : Scenario} {plan : Option ℤ} (hv : sc.validate = .ok ())
    (hcompile : compileScenario sc plan = .ok c) (hs : Attained c s) :
    (∀ m, Moment s m → ExactWork c m) ↔
      ∀ jobId t, (.start jobId, t) ∈ s.history → HeadOrAbsent c jobId t := by
  obtain ⟨rfl, hc⟩ := compileScenario_wellFormed hv hcompile
  have hvisited := hs.visited hc
  constructor
  · intro h jobId t ht
    refine hvisited.logged_of_moments (P := ExactWork c)
      (G := fun a t => ∀ jobId, a = .start jobId → HeadOrAbsent c jobId t)
      (fun _ _ h => ⟨h.bounded, h.finished, h.once, h.exclusive⟩) ?_ h _ t ht jobId rfl
    rintro s s' _ hstep _ hs₁ _ t hhistory jobId rfl
    obtain ⟨rfl, _, _, ev, hst⟩ := hstep.logged hhistory
    refine HeadOrAbsent.of_start hst (hs₁.exclusive jobId ?_).1
    rw [hst.running, Dict.mem_keys_insert]
    exact Or.inl rfl
  · intro h m hm
    have haccounted := hvisited.moments_of_logged (P := Accounted c)
      (G := fun a t => ∀ jobId, a = .start jobId → HeadOrAbsent c jobId t)
      (fun s => accounted_init hc) (fun _ k h => h.setKernel k)
      (fun s s' hs hstep hs₀ hall => hs₀.step hc hs hstep fun jobId t ht => hall _ t ht jobId rfl)
      (by
        rintro _ t ht jobId rfl
        exact h jobId t ht) m hm
    exact haccounted.exactWork hc
      (hvisited.moments (P := Places c) (fun s hs => hs.places hc) (fun _ k h => h.setKernel k) m hm)

/-- The victim of the vain preemption is put back in front of a job of its class that is
started in the same pass, stays queued, and is executed again. -/
theorem vainPreemption_repeats : vainPreemption.validate = .ok () ∧
    ∃ c s, compileScenario vainPreemption none = .ok c ∧ Reachable c s ∧ ¬ExactWork c s := by
  have htest : testAfter vainPreemption 17 (fun _ s =>
      decide ((ledger "B-000001" s.history).completions = 2)) = true := by decide +kernel
  obtain ⟨hv, c, s, hcompile, hs, htest⟩ := of_testAfter htest
  refine ⟨hv, c, s, hcompile, hs, fun h => ?_⟩
  have honce := h.once "B-000001"
  rw [of_decide_eq_true htest] at honce
  omega

/-- After a preemption that succeeds the victim's work is still accounted for. -/
theorem exact_work_iff_preempted : ∃ c s, Reachable c s ∧ s.preempted = ["B-000000"] ∧
    ExactWork c s := by
  have htest : testAfter (traceScenario [traceClass "H" [1] 5 1 [("compute", 1)],
      traceClass "B" [0, 0] 10 0 [("compute", 1)]] []) 6 (fun c s =>
      decide (s.preempted = ["B-000000"]) && s.history.all fun e => match e.1 with
        | .start jobId => decide (HeadOrAbsent c jobId e.2)
        | _ => true) = true := by decide +kernel
  obtain ⟨hv, c, s, hcompile, hs, htest⟩ := of_testAfter htest
  simp only [Bool.and_eq_true, decide_eq_true_eq, List.all_eq_true] at htest
  refine ⟨c, s, hs, htest.1, ?_⟩
  refine (exact_work_iff hv hcompile (.between hs)).mpr (fun jobId t ht => ?_) s (Or.inl rfl)
  simpa using htest.2 _ ht

end Runner

end NpuArc
