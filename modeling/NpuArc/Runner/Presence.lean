import NpuArc.Runner.Runs

/-!
# Presence of jobs

A job that has arrived stays in a queue, among the running jobs, or among the preempted
ones until its fate is recorded. The one step that can lose a job is the start of a
mailbox job, which takes whatever its stream holds.
-/

namespace NpuArc

/-- The recorded fate is final: the job completed, or it was rejected, dropped, or
replaced. -/
def Verdict.Settled (v : Verdict) : Prop := v.completePs.isSome ∨ v.outcome ≠ .completed

namespace Runner

variable {c : CompiledScenario} {s s' : RunnerState} {jobId : String}

/-- A job is in the FIFO of its class or pending in the mailbox of its stream. -/
def Stored (c : CompiledScenario) (jobId : String) (t : RunnerCore) : Prop :=
  jobId ∈ fifoOf c jobId t ∨ pendingOf c jobId t = some jobId

/-- A job is in at least one of the four places in which the runner keeps jobs. -/
def Present (c : CompiledScenario) (jobId : String) (t : RunnerCore) : Prop :=
  Stored c jobId t ∨ jobId ∈ t.running.keys ∨ jobId ∈ t.preempted

/-- Every job whose arrival was handled has a settled fate or is present. -/
def NoneLost (c : CompiledScenario) (s : RunnerState) : Prop :=
  ∀ jobId t, (.arrive jobId, t) ∈ s.history →
    ∃ v, s.verdict jobId = some v ∧ (v.Settled ∨ Present c jobId s.toRunnerCore)

/-- What a job would take from its mailbox is nothing or the job itself. -/
def TakesOwn (c : CompiledScenario) (jobId : String) (t : RunnerCore) : Prop :=
  ¬IsFifo c jobId → ∀ other, pendingOf c jobId t = some other → other = jobId

/-! ### Records -/

/-- The jobs with a record are those whose arrival was handled, and the fate of a pending
job is open. -/
structure Recorded (c : CompiledScenario) (s : RunnerState) : Prop where
  arrived : ∀ jobId, s.verdict jobId ≠ none ↔ ∃ t, (.arrive jobId, t) ∈ s.history
  pending_open : ∀ jobId v, pendingOf c jobId s.toRunnerCore = some jobId →
    s.verdict jobId = some v → ¬v.Settled

/-- A step that logs no arrival and changes no fate keeps the records. -/
private theorem Recorded.of_frame (h : Recorded c s) {a : Action} {t : RunnerCore}
    (ha : ∀ jobId, a ≠ .arrive jobId) (hhistory : s'.history = (a, t) :: s.history)
    (hverdict : ∀ b, s'.verdict b = s.verdict b)
    (hpending : ∀ b, pendingOf c b s'.toRunnerCore = some b →
      pendingOf c b s.toRunnerCore = some b) : Recorded c s' where
  arrived b := by
    rw [hverdict, h.arrived, hhistory]
    refine exists_congr fun u => ⟨List.mem_cons_of_mem _, fun hm => ?_⟩
    rcases List.mem_cons.mp hm with heq | hm
    · cases heq
      exact absurd rfl (ha b)
    · exact hm
  pending_open b v hb hv := h.pending_open b v (hpending b hb) (hverdict b ▸ hv)

private theorem Recorded.complete (h : Recorded c s) (hp : Places c s)
    (hrunning : jobId ∈ s.running.keys) (hr : Retired c jobId s s') : Recorded c s' where
  arrived b := by
    have hsome : s'.verdict b ≠ none ↔ s.verdict b ≠ none := by
      rw [hr.verdict]
      split_ifs <;> simp
    rw [hsome, h.arrived, hr.history]
    simp
  pending_open b v hb hv := by
    have hb' : pendingOf c b s.toRunnerCore = some b := (hr.pendingAt _ _).symm.trans hb
    have hne : b ≠ jobId := by
      rintro rfl
      exact (hp.pending_idle hb').1 hrunning
    rw [hr.verdict, if_neg hne] at hv
    exact h.pending_open b v hb' hv

private theorem Recorded.arrive (h : Recorded c s) (hp : Places c s) {r : JobRelease}
    (hr : Received c r s s') : Recorded c s' where
  arrived b := by
    rw [hr.verdict_ne_none, h.arrived, hr.history]
    simp only [List.mem_cons, Prod.mk.injEq, Action.arrive.injEq, exists_or]
    exact or_congr ⟨fun hb => ⟨_, hb, rfl⟩, fun ⟨_, hb, _⟩ => hb⟩ Iff.rfl
  pending_open b v hb hv := by
    have hold : pendingOf c b s.toRunnerCore = some b → b ≠ r.jobId := by
      rintro hb rfl
      exact (hp.pending _ _ _ hb).2.2.2.2 hr.fresh
    cases hr.fate with
    | rejected _ hpend hverdict =>
      have hb' := (hpend _ _).symm.trans hb
      rw [hverdict, if_neg (hold hb')] at hv
      exact h.pending_open b v hb' hv
    | dropped _ _ hpend hverdict =>
      have hb' := (hpend _ _).symm.trans hb
      rw [hverdict, if_neg (hold hb')] at hv
      exact h.pending_open b v hb' hv
    | queued _ _ _ _ _ hpend hverdict =>
      have hb' := (hpend _ _).symm.trans hb
      rw [hverdict, if_neg (hold hb')] at hv
      exact h.pending_open b v hb' hv
    | posted hF _ hpend hverdict =>
      have hb' := (hpend _ _).symm.trans hb
      rw [hverdict] at hv
      by_cases hnew : b = r.jobId
      · rw [if_pos hnew] at hv
        cases hv
        simp [Verdict.Settled, JobRelease.verdict]
      · have hstream : ¬(mailboxKey (streamOf c b) = mailboxKey (streamOf c r.jobId) ∧
            streamOf c b = streamOf c r.jobId) := by
          intro hs
          rw [if_pos hs, Option.some.injEq] at hb'
          exact hnew hb'.symm
        rw [if_neg hstream] at hb'
        rw [if_neg hnew, if_neg] at hv
        · exact h.pending_open b v hb' hv
        · intro hreplaced
          exact hstream ⟨(hp.pending _ _ _ hreplaced).2.1.symm,
            (hp.pending _ _ _ hreplaced).2.2.1.symm⟩

theorem Recorded.setKernel (h : Recorded c s) (k : Kernel RunnerPayload) :
    Recorded c { s with kernel := k } :=
  ⟨h.arrived, h.pending_open⟩

/-- Every step keeps the records. -/
theorem Recorded.step (h : Recorded c s) (hp : Places c s) (hstep : Step c s s') :
    Recorded c s' := by
  cases hstep with
  | dispatch _ _ => exact h.setKernel _
  | arrive _ _ _ hr => exact (h.setKernel _).arrive (hp.setKernel _) hr
  | complete _ _ hrunning hr =>
    refine Recorded.complete (h.setKernel _) (hp.setKernel _) ?_ hr
    exact hrunning
  | stale _ _ _ => exact h.setKernel _
  | offer _ => exact h.of_frame (by simp) rfl (fun _ => rfl) fun _ hb => hb
  | start _ _ hs =>
    refine h.of_frame (by simp) hs.history hs.verdict fun b hb => ?_
    rw [pendingOf, hs.pendingAt, pendingAfterTake_eq_some] at hb
    exact hb.1
  | preempt _ hs =>
    exact h.of_frame (by simp) hs.history hs.verdict fun b hb => (hs.pendingAt _ _).symm.trans hb
  | check _ hs =>
    refine h.of_frame (by simp) hs.history hs.verdict fun b hb => ?_
    rwa [pendingOf, RunnerCore.pendingAt, hs.mailboxes] at hb
  | request _ => exact h.setKernel _

theorem recorded_init (h : scheduleArrivals c (init c) = .ok s) (hp : Places c s) :
    Recorded c s := by
  obtain ⟨k, rfl⟩ := scheduleArrivals_spec h
  have hnone : ∀ a, ({ init c with kernel := k } : RunnerState).verdict a = none := fun a => by
    simp [RunnerCore.verdict, MetricsCollector.verdict, init]
  refine ⟨fun a => ?_, fun a v _ hv => ?_⟩
  · rw [hnone]
    simp [init]
  · rw [hnone] at hv
    cases hv

theorem Visited.recorded (hc : c.WellFormed) (h : Visited c s) : Recorded c s := by
  induction h with
  | init h => exact recorded_init h (places_init hc h)
  | step hs h ih => exact ih.step (hs.places hc) h

/-! ### Starting a job -/

/-- What a start takes from the other jobs is the item that its mailbox holds. -/
theorem Started.stored_iff {ev : RunnerEvent} (h : Started c jobId s s' ev) {a : String}
    (ha : a ≠ jobId) (hp : Places c s) :
    Stored c a s'.toRunnerCore ↔ Stored c a s.toRunnerCore ∧
      ¬(¬IsFifo c jobId ∧ pendingOf c jobId s.toRunnerCore = some a) := by
  have hfifo : a ∈ fifoOf c a s'.toRunnerCore ↔ a ∈ fifoOf c a s.toRunnerCore := by
    rw [fifoOf, h.fifoAt]
    refine ⟨mem_of_mem_fifoAfterTake, fun hm => ?_⟩
    unfold fifoAfterTake
    split_ifs with hcond
    · obtain ⟨rest, hrest⟩ := List.head?_eq_some_iff.mp hcond.2.2
      rw [fifoOf, hrest] at hm
      rw [hrest]
      exact (List.mem_cons.mp hm).resolve_left ha
    · exact hm
  have hpending : pendingOf c a s'.toRunnerCore = some a ↔ pendingOf c a s.toRunnerCore = some a ∧
      ¬(¬IsFifo c jobId ∧ streamOf c a = streamOf c jobId) := by
    rw [pendingOf, h.pendingAt, pendingAfterTake_eq_some]
    refine and_congr_right fun _ => not_congr (and_congr_right fun _ => ?_)
    exact ⟨fun hs => hs.2, fun hs => ⟨by rw [hs], hs⟩⟩
  -- a pending job is in no FIFO, and its stream determines where it is pending
  have hexclusive : pendingOf c jobId s.toRunnerCore = some a → a ∉ fifoOf c a s.toRunnerCore :=
    fun hpa => hp.fifoOf_eq_nil (hp.pending _ _ _ hpa).1
  have hsame : pendingOf c jobId s.toRunnerCore = some a → streamOf c a = streamOf c jobId :=
    fun hpa => (hp.pending _ _ _ hpa).2.2.1.symm
  unfold Stored
  rw [hfifo, hpending]
  constructor
  · rintro (hm | ⟨hpa, hnot⟩)
    · exact ⟨Or.inl hm, fun hj => hexclusive hj.2 hm⟩
    · exact ⟨Or.inr hpa, fun hj => hnot ⟨hj.1, hsame hj.2⟩⟩
  · rintro ⟨hm | hpa, hnot⟩
    · exact Or.inl hm
    · refine Or.inr ⟨hpa, fun hj => hnot ⟨hj.1, ?_⟩⟩
      rw [pendingOf, ← hj.2]
      exact hpa

/-- A start removes no other job if and only if it takes its own item. -/
theorem Started.removes_only_iff {ev : RunnerEvent} (h : Started c jobId s s' ev)
    (hp : Places c s) :
    (∀ a, a ≠ jobId → Stored c a s.toRunnerCore → Stored c a s'.toRunnerCore) ↔
      TakesOwn c jobId s.toRunnerCore := by
  constructor
  · intro hkeep hF a ha
    by_contra hne
    have hstored : Stored c a s.toRunnerCore := by
      right
      rw [pendingOf, ← (hp.pending _ _ _ ha).2.2.1]
      exact ha
    exact ((h.stored_iff hne hp).mp (hkeep a hne hstored)).2 ⟨hF, ha⟩
  · intro hown a hne hstored
    exact (h.stored_iff hne hp).mpr ⟨hstored, fun hj => hne (hown hj.1 a hj.2)⟩

/-! ### Keeping every job -/

/-- A job that is present after a step was recorded before it. -/
private theorem NoneLost.of_verdict (h : NoneLost c s) (hrec : Recorded c s) {v : Verdict}
    (hv : s.verdict jobId = some v) : v.Settled ∨ Present c jobId s.toRunnerCore := by
  obtain ⟨t, ht⟩ := (hrec.arrived jobId).mp (by simp [hv])
  obtain ⟨w, hw, hpresent⟩ := h jobId t ht
  rw [hv, Option.some.injEq] at hw
  exact hw ▸ hpresent

/-- To lose no job in a recorded state is to account for every recorded fate. -/
theorem noneLost_iff (hrec : Recorded c s) : NoneLost c s ↔
    ∀ jobId v, s.verdict jobId = some v → v.Settled ∨ Present c jobId s.toRunnerCore := by
  refine ⟨fun h jobId v hv => h.of_verdict hrec hv, fun h jobId t ht => ?_⟩
  obtain ⟨v, hv⟩ := Option.ne_none_iff_exists'.mp ((hrec.arrived jobId).mpr ⟨t, ht⟩)
  exact ⟨v, hv, h jobId v hv⟩

private theorem NoneLost.arrive (hrec : Recorded c s) (hrec' : Recorded c s')
    (h : NoneLost c s) {r : JobRelease} (hr : Received c r s s') : NoneLost c s' := by
  rw [noneLost_iff hrec']
  intro a v hv
  have hmoved : ∀ w, s.verdict a = some w → Stored c a s.toRunnerCore ∨
      w.Settled ∨ a ∈ s'.running.keys ∨ a ∈ s'.preempted := by
    intro w hw
    rw [hr.running, hr.preempted]
    rcases h.of_verdict hrec hw with hs | hs | hs
    · exact Or.inr (Or.inl hs)
    · exact Or.inl hs
    · exact Or.inr (Or.inr hs)
  cases hr.fate with
  | rejected hfifo hpend hverdict =>
    rw [hverdict] at hv
    split_ifs at hv with ha
    · cases hv
      exact Or.inl (Or.inr (by simp [JobRelease.verdict]))
    · rcases hmoved v hv with hs | hs | hs
      · refine Or.inr (Or.inl ?_)
        rwa [Stored, fifoOf, hfifo, pendingOf, hpend]
      · exact Or.inl hs
      · exact Or.inr (Or.inr hs)
  | dropped _ hfifo hpend hverdict =>
    rw [hverdict] at hv
    split_ifs at hv with ha
    · cases hv
      exact Or.inl (Or.inr (by simp [JobRelease.verdict]))
    · rcases hmoved v hv with hs | hs | hs
      · refine Or.inr (Or.inl ?_)
        rwa [Stored, fifoOf, hfifo, pendingOf, hpend]
      · exact Or.inl hs
      · exact Or.inr (Or.inr hs)
  | queued _ _ _ _ hfifo hpend hverdict =>
    rw [hverdict] at hv
    have hmem : ∀ b, b ∈ fifoOf c b s.toRunnerCore → b ∈ fifoOf c b s'.toRunnerCore := by
      intro b hb
      rw [fifoOf, hfifo]
      split_ifs
      · exact List.mem_append_left _ hb
      · exact hb
    split_ifs at hv with ha
    · refine Or.inr (Or.inl (Or.inl ?_))
      rw [fifoOf, hfifo, ha, if_pos rfl]
      exact List.mem_append_right _ (List.mem_singleton_self _)
    · rcases hmoved v hv with hs | hs | hs
      · refine Or.inr (Or.inl (hs.imp (hmem a) fun hpa => ?_))
        rwa [pendingOf, hpend]
      · exact Or.inl hs
      · exact Or.inr (Or.inr hs)
  | posted _ hfifo hpend hverdict =>
    rw [hverdict] at hv
    split_ifs at hv with ha hold
    · refine Or.inr (Or.inl (Or.inr ?_))
      rw [pendingOf, hpend, ha, if_pos ⟨rfl, rfl⟩]
    · obtain ⟨w, _, rfl⟩ := Option.map_eq_some_iff.mp hv
      exact Or.inl (Or.inr (by simp))
    · rcases hmoved v hv with hs | hs | hs
      · refine Or.inr (Or.inl (hs.imp (fun hm => ?_) fun hpa => ?_))
        · rwa [fifoOf, hfifo]
        · -- the posted job displaced another one only in its own stream
          rw [pendingOf, hpend, if_neg]
          · exact hpa
          · rintro ⟨_, hstream⟩
            rw [pendingOf, hstream] at hpa
            exact hold hpa
      · exact Or.inl hs
      · exact Or.inr (Or.inr hs)

private theorem NoneLost.start (hrec : Recorded c s) (hrec' : Recorded c s') (hp : Places c s)
    (h : NoneLost c s) {ev : RunnerEvent} (hown : TakesOwn c jobId s.toRunnerCore)
    (hs : Started c jobId s s' ev) : NoneLost c s' := by
  rw [noneLost_iff hrec']
  intro a v hv
  rw [hs.verdict] at hv
  unfold Present
  rw [hs.running, hs.preempted, Dict.mem_keys_insert, List.mem_filter]
  by_cases ha : a = jobId
  · exact Or.inr (Or.inr (Or.inl (Or.inl ha)))
  · rcases h.of_verdict hrec hv with hset | hstored | hrun | hpre
    · exact Or.inl hset
    · exact Or.inr (Or.inl ((hs.removes_only_iff hp).mpr hown a ha hstored))
    · exact Or.inr (Or.inr (Or.inl (Or.inr hrun)))
    · exact Or.inr (Or.inr (Or.inr ⟨hpre, by simpa using ha⟩))

private theorem NoneLost.preempt (hrec : Recorded c s) (hrec' : Recorded c s')
    (h : NoneLost c s) {ev : RunnerEvent} (hs : Preempted c jobId s s' ev) : NoneLost c s' := by
  rw [noneLost_iff hrec']
  intro a v hv
  rw [hs.verdict] at hv
  have hfifo : a ∈ fifoOf c a s.toRunnerCore → a ∈ fifoOf c a s'.toRunnerCore := by
    intro hm
    rw [fifoOf, hs.fifoAt, fifoAfterReturn]
    split_ifs
    · exact List.mem_cons_of_mem _ hm
    · exact hm
  unfold Present
  rw [hs.running, hs.preempted, Dict.mem_keys_erase, List.mem_insert_iff]
  by_cases ha : a = jobId
  · exact Or.inr (Or.inr (Or.inr (Or.inl ha)))
  · rcases h.of_verdict hrec hv with hset | hstored | hrun | hpre
    · exact Or.inl hset
    · exact Or.inr (Or.inl (hstored.imp hfifo fun hpa => (hs.pendingAt _ _).trans hpa))
    · exact Or.inr (Or.inr (Or.inl ⟨ha, hrun⟩))
    · exact Or.inr (Or.inr (Or.inr (Or.inr hpre)))

private theorem NoneLost.complete (hrec : Recorded c s) (hrec' : Recorded c s')
    (h : NoneLost c s) (hs : Retired c jobId s s') : NoneLost c s' := by
  rw [noneLost_iff hrec']
  intro a v hv
  rw [hs.verdict] at hv
  unfold Present Stored fifoOf pendingOf
  rw [hs.running, hs.preempted, hs.fifoAt, hs.pendingAt, Dict.mem_keys_erase]
  split_ifs at hv with ha
  · obtain ⟨w, _, rfl⟩ := Option.map_eq_some_iff.mp hv
    exact Or.inl (Or.inl rfl)
  · rcases h.of_verdict hrec hv with hset | hstored | hrun | hpre
    · exact Or.inl hset
    · exact Or.inr (Or.inl hstored)
    · exact Or.inr (Or.inr (Or.inl ⟨ha, hrun⟩))
    · exact Or.inr (Or.inr (Or.inr hpre))

theorem NoneLost.setKernel (h : NoneLost c s) (k : Kernel RunnerPayload) :
    NoneLost c { s with kernel := k } := h

/-- Every step keeps every job, provided a start takes its own item. -/
theorem NoneLost.step (hc : c.WellFormed) (hs : Visited c s) (hstep : Step c s s')
    (h : NoneLost c s) (hown : ∀ jobId t, (.start jobId, t) ∈ s'.history → TakesOwn c jobId t) :
    NoneLost c s' := by
  have hrec := hs.recorded hc
  have hrec' := (hs.step hstep).recorded hc
  cases hstep with
  | dispatch _ _ => exact h
  | arrive _ _ _ hr => exact NoneLost.arrive (hrec.setKernel _) hrec' (h.setKernel _) hr
  | complete _ _ _ hr => exact NoneLost.complete (hrec.setKernel _) hrec' (h.setKernel _) hr
  | stale _ _ _ => exact h
  | offer _ =>
    rw [noneLost_iff hrec']
    exact (noneLost_iff hrec).mp h
  | start _ _ hst =>
    refine h.start hrec hrec' (hs.places hc) (hown _ s.toRunnerCore ?_) hst
    rw [hst.history]
    exact List.mem_cons_self
  | preempt _ hpre => exact h.preempt hrec hrec' hpre
  | check _ hch =>
    rw [noneLost_iff hrec']
    intro a v hv
    rw [hch.verdict] at hv
    unfold Present Stored fifoOf pendingOf RunnerCore.fifoAt RunnerCore.pendingAt
    rw [hch.running, hch.preempted, hch.fifoQueues, hch.mailboxes]
    exact h.of_verdict hrec hv
  | request _ => exact h

/-- A start that takes the item of another job loses that job. -/
theorem TakesOwn.of_noneLost (hc : c.WellFormed) (hs : Visited c s) {ev : RunnerEvent}
    (hst : Started c jobId s s' ev) (hrec' : Recorded c s') (h : NoneLost c s') :
    TakesOwn c jobId s.toRunnerCore := by
  have hp := hs.places hc
  intro hF a ha
  by_contra hne
  obtain ⟨hFa, hkey, hstream, _, hv⟩ := hp.pending _ _ _ ha
  have hpa : pendingOf c a s.toRunnerCore = some a := by
    rw [pendingOf, ← hkey, ← hstream]
    exact ha
  obtain ⟨v, hv⟩ := Option.ne_none_iff_exists'.mp hv
  obtain ⟨hrun, hpre⟩ := hp.pending_idle ha
  rcases (noneLost_iff hrec').mp h a v ((hst.verdict a).trans hv) with hset | hstored | hr | hpr
  · exact (hs.recorded hc).pending_open a v hpa hv hset
  · exact ((hst.stored_iff hne hp).mp hstored).2 ⟨hF, ha⟩
  · rw [hst.running, Dict.mem_keys_insert] at hr
    exact hr.elim hne hrun
  · rw [hst.preempted, List.mem_filter] at hpr
    exact hpre hpr.1

theorem noneLost_init (h : scheduleArrivals c (init c) = .ok s) : NoneLost c s := by
  obtain ⟨k, rfl⟩ := scheduleArrivals_spec h
  intro a t ht
  exact absurd ht List.not_mem_nil

/-- No job is lost, and a start removes no other job from the queues, exactly as long as
every started job takes nothing but itself from its mailbox. -/
theorem none_lost_iff {sc : Scenario} {plan : Option ℤ} (hv : sc.validate = .ok ())
    (hcompile : compileScenario sc plan = .ok c) (hs : Attained c s) :
    ((∀ m, Moment s m → NoneLost c m) ↔
      ∀ jobId t, (.start jobId, t) ∈ s.history → TakesOwn c jobId t) ∧
    ∀ m m' jobId, Moment s m → startJob c jobId m = .ok m' →
      ((∀ a, a ≠ jobId → Stored c a m.toRunnerCore → Stored c a m'.toRunnerCore) ↔
        TakesOwn c jobId m.toRunnerCore) := by
  obtain ⟨rfl, hc⟩ := compileScenario_wellFormed hv hcompile
  have hvisited := hs.visited hc
  constructor
  · constructor
    · intro h jobId t ht
      refine hvisited.logged_of_moments (P := NoneLost c)
        (G := fun a t => ∀ jobId, a = .start jobId → TakesOwn c jobId t)
        (fun _ k h => h.setKernel k) ?_ h _ t ht jobId rfl
      rintro s s' hs hstep _ hs₁ _ t hhistory jobId rfl
      obtain ⟨rfl, _, _, ev, hst⟩ := hstep.logged hhistory
      exact TakesOwn.of_noneLost hc hs hst ((hs.step hstep).recorded hc) hs₁
    · intro h
      refine hvisited.moments_of_logged
        (G := fun a t => ∀ jobId, a = .start jobId → TakesOwn c jobId t)
        (fun s => noneLost_init) (fun _ k h => h.setKernel k) ?_ ?_
      · intro s s' hs hstep hs₀ hall
        exact hs₀.step hc hs hstep fun jobId t ht => hall _ t ht jobId rfl
      · rintro _ t ht jobId rfl
        exact h jobId t ht
  · intro m m' jobId hm hstart
    obtain ⟨ev, hst⟩ := startJob_spec hstart
    exact hst.removes_only_iff
      (hvisited.moments (P := Places c) (fun s hs => hs.places hc) (fun _ k h => h.setKernel k) m hm)

instance (t : RunnerCore) : Decidable (Stored c jobId t) := inferInstanceAs (Decidable (_ ∨ _))

instance (t : RunnerCore) : Decidable (Present c jobId t) := inferInstanceAs (Decidable (_ ∨ _))

/-- A mailbox job is preempted while it runs, and a second one arrives before it resumes. -/
def resumedMailbox : Scenario :=
  traceScenario
    [{ traceClass "M" [0, 2] 10 0 [("compute", 1)] with queuePolicy := .mailboxLatest },
      traceClass "H" [1] 5 1 [("compute", 1)]] []

/-- The resumed job takes the pending one from the mailbox, and that one is nowhere. -/
theorem resumedMailbox_loses : resumedMailbox.validate = .ok () ∧
    ∃ c s, compileScenario resumedMailbox none = .ok c ∧ Reachable c s ∧ ¬NoneLost c s := by
  have htest : testAfter resumedMailbox 9 (fun c s =>
      s.history.any (fun e => decide (e.1 = .arrive "M-000001")) &&
        decide (s.verdict "M-000001" = some ⟨"M-000001", none, .completed, true, false⟩) &&
        decide (¬Present c "M-000001" s.toRunnerCore)) = true := by decide +kernel
  obtain ⟨hv, c, s, hcompile, hs, htest⟩ := of_testAfter htest
  simp only [Bool.and_eq_true, decide_eq_true_eq, List.any_eq_true] at htest
  obtain ⟨⟨⟨⟨a, t⟩, ht, rfl⟩, hverdict⟩, hpresent⟩ := htest
  refine ⟨hv, c, s, hcompile, hs, fun h => ?_⟩
  obtain ⟨v, hv, hset | hp⟩ := h _ t ht
  · rw [hverdict, Option.some.injEq] at hv
    subst hv
    simp [Verdict.Settled] at hset
  · exact hpresent hp

/-- While only FIFO jobs were started, no job is lost. -/
theorem none_lost_iff_waiting : ∃ c s, Reachable c s ∧ s.running.keys = ["A-000000"] ∧
    NoneLost c s := by
  have htest : testAfter (traceScenario [traceClass "A" [0] 2 1 [("compute", 1)],
      traceClass "B" [0] 2 0 [("compute", 1)]] []) 3 (fun c s =>
        decide (s.running.keys = ["A-000000"]) &&
        s.history.all fun e => match e.1 with
          | .start jobId => decide (IsFifo c jobId)
          | _ => true) = true := by decide +kernel
  obtain ⟨hv, c, s, hcompile, hs, htest⟩ := of_testAfter htest
  simp only [Bool.and_eq_true, decide_eq_true_eq, List.all_eq_true] at htest
  refine ⟨c, s, hs, htest.1, ?_⟩
  refine (none_lost_iff hv hcompile (.between hs)).1.mpr (fun jobId t ht hF => ?_) s (Or.inl rfl)
  exact absurd (by simpa using htest.2 _ ht) hF

end Runner

end NpuArc
