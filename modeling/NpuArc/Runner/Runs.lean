import NpuArc.Runner.Timers

/-!
# Runs of the runner

`Reachable` are the states between two events of a run. Each event handler is a sequence
of elementary steps, so every reachable state is visited, and the invariants of visited
states hold along every run.
-/

namespace NpuArc

namespace Runner

variable {c : CompiledScenario} {s s' : RunnerState}

/-- The states of a run: the one in which it starts, and the one after each event up to
the simulation limit. -/
inductive Reachable (c : CompiledScenario) : RunnerState → Prop
  | init {s : RunnerState} (h : scheduleArrivals c (init c) = .ok s) : Reachable c s
  | step {s s' : RunnerState} {ev : RunnerEvent} (hs : Reachable c s)
      (hev : nextEvent c s = some ev) (h : (host c).processEvent s = .ok s') : Reachable c s'

/-- The states of a run, with the one in which an event was handled and the kernel then
found no progress. -/
inductive Attained (c : CompiledScenario) : RunnerState → Prop
  | between {s : RunnerState} (h : Reachable c s) : Attained c s
  | handled {s s' : RunnerState} {ev : RunnerEvent} {k : Kernel RunnerPayload}
      (hs : Reachable c s) (hpop : Popped c s.toRunnerCore ev k)
      (h : (host c).invoke ev.payload { s with kernel := k } = .ok s') : Attained c s'

/-! ### Dispatch passes -/

/-- A job that a dispatch pass may meet: it runs already or may be started. -/
def Offerable (c : CompiledScenario) (jobId : String) (s : RunnerState) : Prop :=
  jobId ∈ s.running.keys ∨ Startable c jobId s

theorem Offerable.offer {a : String} (h : Offerable c a s) (jobId : String) :
    Offerable c a (s.log (.offer jobId)) := by
  rcases h with hr | ⟨hv, hr, hw⟩
  · exact Or.inl hr
  · refine Or.inr ⟨hv, hr, ?_⟩
    rw [RunnerState.log, lastMove_offer]
    exact hw

theorem Offerable.start {a jobId : String} {ev : RunnerEvent} (h : Offerable c a s)
    (hs : Started c jobId s s' ev) : Offerable c a s' := by
  unfold Offerable
  rw [hs.running, Dict.mem_keys_insert]
  by_cases ha : a = jobId
  · exact Or.inl (Or.inl ha)
  · rcases h with hr | ⟨hv, hr, hw⟩
    · exact Or.inl (Or.inr hr)
    · refine Or.inr ⟨by rwa [hs.verdict], ?_, ?_⟩
      · rw [hs.running, Dict.mem_keys_insert]
        exact fun h => h.elim ha hr
      · rw [hs.preempted, hs.history, lastMove_start, if_neg ha]
        rcases hw with hp | hf | hm
        · exact Or.inl (List.mem_filter.mpr ⟨hp, by simpa using ha⟩)
        · refine Or.inr (Or.inl ?_)
          rw [fifoOf, hs.fifoAt, fifoAfterTake]
          split_ifs with hcond
          · have hf' : a ∈ s.fifoAt (fifoKeyOf c a) := hf
            obtain ⟨rest, hrest⟩ := List.head?_eq_some_iff.mp hcond.2.2
            rw [hrest] at hf' ⊢
            exact (List.mem_cons.mp hf').resolve_left ha
          · exact hf
        · exact Or.inr (Or.inr hm)

theorem Offerable.preempt {a jobId : String} {ev : RunnerEvent} (hp : Places c s)
    (h : Offerable c a s) (hs : Preempted c jobId s s' ev) : Offerable c a s' := by
  unfold Offerable Startable
  rw [hs.running, Dict.mem_keys_erase, hs.verdict, hs.preempted, hs.history, lastMove_preempt,
    List.mem_insert_iff]
  by_cases ha : a = jobId
  · refine Or.inr ⟨?_, fun h => h.1 ha, Or.inl (Or.inl ha)⟩
    rcases h with hr | hst
    · exact hp.moved a (by simp [(hp.running a).mp hr])
    · exact hst.1
  · rw [if_neg ha]
    rcases h with hr | ⟨hv, hr, hw⟩
    · exact Or.inl ⟨ha, hr⟩
    · refine Or.inr ⟨hv, fun h => hr h.2, ?_⟩
      rcases hw with hp | hf | hm
      · exact Or.inl (Or.inr hp)
      · refine Or.inr (Or.inl ?_)
        rw [fifoOf, hs.fifoAt, fifoAfterReturn]
        split_ifs
        · exact List.mem_cons_of_mem _ hf
        · exact hf
      · exact Or.inr (Or.inr hm)

/-- Preempting a job that does not run changes nothing. -/
theorem preemptJob_of_not_running {jobId : String} (h : s.running.get? jobId = none) :
    preemptJob c jobId s = s := by
  unfold preemptJob
  simp [h]

/-- A preemption loop is a sequence of preemptions. -/
theorem preemptLoop_induction {P : RunnerState → Prop} (jobId : String)
    (step : ∀ s victim ev, P s → s.running.get? victim = some ev → P (preemptJob c victim s))
    (l : List String) (b : Bool) (hs : P s) : P (preemptLoop c jobId l b s).1 := by
  induction l generalizing b s with
  | nil => exact hs
  | cons victim l ih =>
    unfold preemptLoop
    split_ifs
    · exact hs
    · refine ih true ?_
      cases hget : s.running.get? victim with
      | none =>
        rw [preemptJob_of_not_running hget]
        exact hs
      | some ev => exact step s victim ev hs hget
    · exact ih b hs

/-- Starting a job that fits is a step. -/
theorem tryStart_cases {jobId : String} {b : Bool} (h : tryStart c jobId s = .ok (s', b)) :
    (b = true ∧ canAllocate c jobId s = true ∧ startJob c jobId s = .ok s') ∨
      (b = false ∧ canAllocate c jobId s = false ∧ s' = s) := by
  unfold tryStart at h
  split_ifs at h with hfits
  · rw [bind_eq_ok] at h
    obtain ⟨t, hstart, heq⟩ := h
    cases heq
    exact Or.inl ⟨rfl, hfits, hstart⟩
  · cases h
    exact Or.inr ⟨rfl, by simpa using hfits, rfl⟩

/-- An offer starts the job, or starts it after preemptions, or only preempts. -/
theorem offer_cases {jobId : String} (h : offer c jobId s = .ok s') :
    (canAllocate c jobId (s.log (.offer jobId)) = true ∧
      startJob c jobId (s.log (.offer jobId)) = .ok s') ∨
    (canAllocate c jobId (s.log (.offer jobId)) = false ∧
      (c.scenario.preemptionEnabled = false ∨
        (preemptFor c jobId (s.log (.offer jobId))).2 = false ∨
        canAllocate c jobId (preemptFor c jobId (s.log (.offer jobId))).1 = false) ∧
      (s' = s.log (.offer jobId) ∨ (c.scenario.preemptionEnabled = true ∧
        s' = (preemptFor c jobId (s.log (.offer jobId))).1))) ∨
    (canAllocate c jobId (s.log (.offer jobId)) = false ∧
      c.scenario.preemptionEnabled = true ∧
      (preemptFor c jobId (s.log (.offer jobId))).2 = true ∧
      canAllocate c jobId (preemptFor c jobId (s.log (.offer jobId))).1 = true ∧
      startJob c jobId (preemptFor c jobId (s.log (.offer jobId))).1 = .ok s') := by
  unfold offer at h
  rw [bind_eq_ok] at h
  obtain ⟨⟨t, started⟩, htry, h⟩ := h
  rcases tryStart_cases htry with ⟨rfl, hfits, hstart⟩ | ⟨rfl, hfits, rfl⟩
  · simp only [if_true, Except.ok.injEq] at h
    subst h
    exact Or.inl ⟨hfits, hstart⟩
  · right
    simp only [Bool.false_eq_true, if_false] at h
    split_ifs at h with henabled hany
    · cases h
      exact Or.inl ⟨hfits, Or.inl (by simpa using henabled), Or.inl rfl⟩
    · have henabled' : c.scenario.preemptionEnabled = true := by simpa using henabled
      rw [bind_eq_ok] at h
      obtain ⟨⟨u, started⟩, htry', heq⟩ := h
      cases heq
      rcases tryStart_cases htry' with ⟨_, hfits', hstart⟩ | ⟨_, hfits', rfl⟩
      · exact Or.inr ⟨hfits, henabled', hany, hfits', hstart⟩
      · exact Or.inl ⟨hfits, Or.inr (Or.inr hfits'), Or.inr ⟨henabled', rfl⟩⟩
    · have henabled' : c.scenario.preemptionEnabled = true := by simpa using henabled
      cases h
      exact Or.inl ⟨hfits, Or.inr (Or.inl (by simpa using hany)), Or.inr ⟨henabled', rfl⟩⟩

/-- Starting a job is a step that keeps the jobs of `L` offerable. -/
private theorem steps_start {jobId : String} {L : List String}
    (hL : ∀ a ∈ L, Offerable c a s) (hst : Startable c jobId s)
    (hfits : canAllocate c jobId s = true) (h : startJob c jobId s = .ok s') :
    PassSteps c s s' ∧ ∀ a ∈ L, Offerable c a s' := by
  obtain ⟨ev, hs⟩ := startJob_spec h
  exact ⟨.single (.start hst hfits hs), fun a ha => (hL a ha).start hs⟩

/-- Preempting is a sequence of steps that keep the jobs of `L` offerable. -/
theorem steps_preemptLoop (hc : c.WellFormed) (jobId : String) (L : List String)
    (l : List String) (b : Bool) (hv : Visited c s) (hL : ∀ a ∈ L, Offerable c a s) :
    PassSteps c s (preemptLoop c jobId l b s).1 ∧
      ∀ a ∈ L, Offerable c a (preemptLoop c jobId l b s).1 := by
  refine preemptLoop_induction (P := fun t => PassSteps c s t ∧ ∀ a ∈ L, Offerable c a t) jobId ?_ l b
    ⟨.refl, hL⟩
  rintro t victim ev ⟨ht, htL⟩ hget
  have hs := preemptJob_spec (c := c) hget
  exact ⟨ht.tail (.preempt hget hs),
    fun a ha => (htL a ha).preempt ((hv.steps ht.steps).places hc) hs⟩

/-- Preempting for a job leaves the job idle. -/
theorem preemptLoop_not_running {jobId : String} (l : List String) (b : Bool)
    (h : jobId ∉ s.running.keys) : jobId ∉ (preemptLoop c jobId l b s).1.running.keys := by
  refine preemptLoop_induction (P := fun t => jobId ∉ t.running.keys) jobId ?_ l b h
  intro t victim ev ht hget
  rw [(preemptJob_spec (c := c) hget).running, Dict.mem_keys_erase]
  exact fun h => ht h.2

/-- An offer is a sequence of steps that keep the candidates offerable. -/
theorem steps_offer (hc : c.WellFormed) {jobId : String} {L : List String}
    (hv : Visited c s) (hL : ∀ a ∈ L, Offerable c a s) (hst : Startable c jobId s)
    (h : offer c jobId s = .ok s') :
    PassSteps c (s.log (.offer jobId)) s' ∧ ∀ a ∈ L, Offerable c a s' := by
  have hoffer : PassStep c s (s.log (.offer jobId)) := .offer hst
  have hL1 : ∀ a ∈ L, Offerable c a (s.log (.offer jobId)) := fun a ha => (hL a ha).offer jobId
  have hst1 : Startable c jobId (s.log (.offer jobId)) :=
    (Offerable.offer (Or.inr hst) jobId).resolve_left hst.2.1
  have hloop := steps_preemptLoop hc jobId (jobId :: L)
    (runningByRank c (s.log (.offer jobId))) false (hv.step hoffer.step)
    (List.forall_mem_cons.mpr ⟨Or.inr hst1, hL1⟩)
  rw [List.forall_mem_cons] at hloop
  rcases offer_cases h with ⟨hfits, hstart⟩ | ⟨_, _, rfl | ⟨_, rfl⟩⟩ | ⟨_, _, _, hfits, hstart⟩
  · exact steps_start hL1 hst1 hfits hstart
  · exact ⟨.refl, hL1⟩
  · exact ⟨hloop.1, hloop.2.2⟩
  · have hst2 := hloop.2.1.resolve_left (preemptLoop_not_running _ _ hst1.2.1)
    obtain ⟨hsteps, hkeep⟩ := steps_start hloop.2.2 hst2 hfits hstart
    exact ⟨hloop.1.trans hsteps, hkeep⟩

/-- A dispatch pass is a sequence of steps. -/
theorem steps_dispatchLoop (hc : c.WellFormed) (L : List Candidate) (seen : List String)
    (hv : Visited c s) (hL : ∀ a ∈ L.map (·.jobId), Offerable c a s)
    (h : dispatchLoop c L seen s = .ok s') : PassSteps c s s' := by
  induction L generalizing s seen with
  | nil =>
    cases h
    exact .refl
  | cons candidate L ih =>
    rw [List.map_cons, List.forall_mem_cons] at hL
    unfold dispatchLoop at h
    split_ifs at h with hskip
    · exact ih seen hv hL.2 h
    · rw [bind_eq_ok] at h
      obtain ⟨t, hoffer, hrest⟩ := h
      have hidle : candidate.jobId ∉ s.running.keys :=
        fun hr => hskip (Or.inr (Dict.contains_iff.mpr hr))
      have hst := hL.1.resolve_left hidle
      obtain ⟨hsteps, htL⟩ := steps_offer hc hv hL.2 hst hoffer
      have ht : PassSteps c s t := .head (.offer hst) hsteps
      exact ht.trans (ih _ (hv.steps ht.steps) htL hrest)

/-- A step of a pass takes no time and touches completion timers only. -/
private theorem PassStep.kernel (hc : c.WellFormed) (hv : Visited c s) (h : PassStep c s s') :
    s'.now = s.now ∧ ∀ e : RunnerEvent, (∀ jobId, e.payload ≠ .client (.complete jobId)) →
      (s'.kernel.queue.Live e ↔ s.kernel.queue.Live e) := by
  have ht := hv.timers hc
  cases h with
  | offer _ => exact ⟨rfl, fun _ _ => Iff.rfl⟩
  | start hst _ hs =>
    obtain ⟨jobs, job, _, _, _, _, hkernel⟩ := hs.kernel_eq hc ht ((hv.places hc).known _ hst.1)
    refine ⟨by rw [RunnerCore.now, hkernel]; rfl, fun e he => ?_⟩
    rw [hkernel, EventQueue.insert_live ht.cancelled, or_iff_right]
    rintro rfl
    exact he _ rfl
  | @preempt jobId ev _ hrunning hs =>
    obtain ⟨hlive, htimer, _⟩ := ht.timer _ _ hrunning
    obtain ⟨jobs, hhide, _⟩ := hideJob_spec (c := c) jobId (s.kernel.cancelEvent ev)
    rw [RunnerCore.now, hs.kernel, hhide]
    refine ⟨rfl, fun e he => (EventQueue.cancel_live hlive.1).trans (and_iff_left ?_)⟩
    rintro rfl
    exact he _ htimer.2

/-- A dispatch pass takes no time and touches completion timers only. -/
theorem PassSteps.kernel (hc : c.WellFormed) (hv : Visited c s) (h : PassSteps c s s') :
    s'.now = s.now ∧ ∀ e : RunnerEvent, (∀ jobId, e.payload ≠ .client (.complete jobId)) →
      (s'.kernel.queue.Live e ↔ s.kernel.queue.Live e) := by
  induction h with
  | refl => exact ⟨rfl, fun _ _ => Iff.rfl⟩
  | tail hsteps hstep ih =>
    obtain ⟨hnow, hlive⟩ := hstep.kernel hc (hv.steps (PassSteps.steps hsteps))
    exact ⟨hnow.trans ih.1, fun e he => (hlive e he).trans (ih.2 e he)⟩

/-- The stream of a mailbox is the part of its key after the first colon. -/
@[simp] theorem afterColon_mailboxKey (stream : String) :
    afterColon (mailboxKey stream) = stream := by
  have hprefix : "mailbox:".toList = ['m', 'a', 'i', 'l', 'b', 'o', 'x', ':'] := by decide
  simp [afterColon, mailboxKey, hprefix]

/-- The candidates of a dispatch pass are the preempted jobs that do not run, the heads of
the FIFOs, and the pending items of the mailboxes. -/
theorem mem_collectCandidates (hp : Places c s) {a : String} :
    a ∈ (collectCandidates s).map (·.jobId) ↔
      (a ∈ s.preempted ∧ a ∉ s.running.keys) ∨
      (fifoOf c a s.toRunnerCore).head? = some a ∨
      pendingOf c a s.toRunnerCore = some a := by
  simp only [collectCandidates, List.map_append, List.mem_append, List.map_map,
    List.mem_map, List.mem_filter, List.mem_filterMap, Function.comp_apply]
  rw [or_assoc]
  refine or_congr ?_ (or_congr ?_ ?_)
  · constructor
    · rintro ⟨b, ⟨hb, hr⟩, rfl⟩
      refine ⟨hb, fun hm => ?_⟩
      simp [Dict.contains_iff.mpr hm] at hr
    · rintro ⟨ha, hr⟩
      refine ⟨a, ⟨ha, ?_⟩, rfl⟩
      rw [Bool.not_eq_true', Dict.contains_eq_false]
      exact Dict.not_mem_keys.mp hr
  · constructor
    · rintro ⟨_, ⟨q, hq, hhead⟩, rfl⟩
      obtain ⟨key, hkey⟩ := Dict.mem_values.mp hq
      obtain ⟨item, hitem, rfl⟩ := Option.map_eq_some_iff.mp hhead
      have hfifo : (s.fifoAt key).head? = some item.2 := by
        rw [RunnerCore.fifoAt, hkey, Option.map_some, Option.getD_some, ← q.peek_map_snd, hitem]
        rfl
      have hown := (hp.queued key item.2 (List.mem_of_mem_head? hfifo)).2.1
      rw [hown] at hfifo
      exact hfifo
    · intro hhead
      cases hq : s.fifoQueues.get? (fifoKeyOf c a) with
      | none => simp [fifoOf, RunnerCore.fifoAt, hq] at hhead
      | some q =>
        rw [fifoOf, RunnerCore.fifoAt, hq, Option.map_some, Option.getD_some, ← q.peek_map_snd,
          Option.map_eq_some_iff] at hhead
        obtain ⟨item, hitem, rfl⟩ := hhead
        exact ⟨_, ⟨q, Dict.mem_values.mpr ⟨_, hq⟩, by rw [hitem, Option.map_some]⟩, rfl⟩
  · constructor
    · rintro ⟨_, ⟨⟨key, mb⟩, hmb, hpeek⟩, rfl⟩
      have hget := Dict.get?_eq_some.mpr hmb
      obtain ⟨item, hitem, rfl⟩ := Option.map_eq_some_iff.mp hpeek
      have hpend : s.pendingAt key (afterColon key) = some item.2 := by
        rw [RunnerCore.pendingAt, hget, Option.bind_some, ← mb.peek_map_snd _ s.kernel.nowPs]
        simp only at hitem
        rw [hitem]
        rfl
      obtain ⟨_, hkey, hstream, _⟩ := hp.pending _ _ _ hpend
      rw [hkey, afterColon_mailboxKey] at hpend
      exact hpend
    · intro hpend
      cases hmb : s.mailboxes.get? (mailboxKey (streamOf c a)) with
      | none => simp [pendingOf, RunnerCore.pendingAt, hmb] at hpend
      | some mb =>
        rw [pendingOf, RunnerCore.pendingAt, hmb, Option.bind_some,
          ← mb.peek_map_snd _ s.kernel.nowPs, Option.map_eq_some_iff] at hpend
        obtain ⟨item, hitem, rfl⟩ := hpend
        refine ⟨⟨item.2, .mailbox⟩, ⟨⟨_, mb⟩, Dict.get?_eq_some.mp hmb, ?_⟩, rfl⟩
        simp only [afterColon_mailboxKey]
        rw [hitem, Option.map_some]

theorem offerable_of_candidate (hp : Places c s) {a : String}
    (h : a ∈ (collectCandidates s).map (·.jobId)) : Offerable c a s := by
  by_cases hr : a ∈ s.running.keys
  · exact Or.inl hr
  · right
    rcases (mem_collectCandidates hp).mp h with ⟨hpre, _⟩ | hhead | hpend
    · refine ⟨hp.moved a ?_, hr, Or.inl hpre⟩
      simp [(hp.preempted a).mp hpre]
    · have hm := List.mem_of_mem_head? hhead
      exact ⟨(hp.queued _ a hm).2.2, hr, Or.inr (Or.inl hm)⟩
    · obtain ⟨_, _, _, hnone, hv⟩ := hp.pending _ _ a hpend
      exact ⟨hv, hr, Or.inr (Or.inr hnone)⟩

/-- The order in which a dispatch pass offers its candidates. -/
def sortedCandidates (c : CompiledScenario) (s : RunnerState) : List Candidate :=
  (collectCandidates s).insertionSort fun a b => jobKey c a.jobId ≤ jobKey c b.jobId

/-- A dispatch pass offers the sorted candidates and then checks for recovery. -/
theorem dispatch_eq_ok (h : dispatch c s = .ok s') :
    ∃ t, dispatchLoop c (sortedCandidates c s) [] s = .ok t ∧ s' = maybeRecordRecovery c t := by
  unfold dispatch at h
  unfold sortedCandidates
  cases hcand : collectCandidates s with
  | nil =>
    rw [hcand] at h
    cases h
    exact ⟨s, rfl, rfl⟩
  | cons candidate candidates =>
    rw [hcand] at h
    simp only [bind_eq_ok, Except.ok.injEq] at h
    obtain ⟨t, hloop, heq⟩ := h
    exact ⟨t, hloop, heq.symm⟩

theorem mem_sortedCandidates {a : String} :
    a ∈ (sortedCandidates c s).map (·.jobId) ↔ a ∈ (collectCandidates s).map (·.jobId) :=
  ((List.perm_insertionSort _ _).map _).mem_iff

theorem step_check : Step c s (maybeRecordRecovery c s) :=
  .check rfl (maybeRecordRecovery_spec s)

/-- Dispatching is a sequence of steps that ends with a recovery check. -/
theorem steps_dispatch (hc : c.WellFormed) (hv : Visited c s) (h : dispatch c s = .ok s') :
    ∃ t, PassSteps c s t ∧ s' = maybeRecordRecovery c t := by
  obtain ⟨t, hloop, rfl⟩ := dispatch_eq_ok h
  refine ⟨t, steps_dispatchLoop hc _ _ hv (fun a ha => ?_) hloop, rfl⟩
  exact offerable_of_candidate (hv.places hc) (mem_sortedCandidates.mp ha)

/-! ### Events -/

/-- Requesting a dispatch is a step. -/
theorem step_request (h : scheduleDispatch s = .ok s') : Step c s s' := by
  obtain ⟨hnow, rfl⟩ := scheduleDispatch_eq_ok.mp h
  exact .request hnow

/-- Handling an arrival receives it, requests a dispatch, and dispatches. -/
theorem arrival_cases (hc : c.WellFormed) (hp : Places c s) {r : JobRelease}
    (hr : r ∈ c.releases) (h : onArrivalAndDispatch c r s = .ok s') :
    ∃ u v, Received c r s u ∧ scheduleDispatch (maybeRecordRecovery c u) = .ok v ∧
      dispatch c v = .ok s' := by
  simp only [onArrivalAndDispatch, onArrival, bind_eq_ok] at h
  obtain ⟨v, ⟨cls, hcls, u, hreceive, hrequest⟩, hdispatch⟩ := h
  exact ⟨u, v, receive_spec (getClass_classFor hc hr hcls) (fun old => hp.pending_spec) hreceive,
    hrequest, hdispatch⟩

/-- Handling an arrival is a sequence of steps that ends with a recovery check. -/
theorem steps_arrival (hc : c.WellFormed) (hv : Visited c s) {ev : RunnerEvent}
    {k : Kernel RunnerPayload} (hpop : Popped c s.toRunnerCore ev k) {r : JobRelease}
    (hpayload : ev.payload = .client (.arrival r)) (hr : r ∈ c.releases)
    (h : onArrivalAndDispatch c r { s with kernel := k } = .ok s') :
    ∃ v t, Steps c s v ∧ v.kernel.queue.Live ⟨v.now, .dispatch, v.kernel.queue.seq - 1,
      .client .dispatch⟩ ∧ dispatch c v = .ok s' ∧
      PassSteps c v t ∧ s' = maybeRecordRecovery c t := by
  obtain ⟨u, v, hrec, hrequest, hdispatch⟩ :=
    arrival_cases hc ((hv.places hc).setKernel k) hr h
  have hu : Steps c s (maybeRecordRecovery c u) :=
    (Relation.ReflTransGen.single (.arrive hpop hpayload hr hrec)).tail step_check
  have hsteps : Steps c s v := hu.tail (step_request hrequest)
  obtain ⟨w, hw, heq⟩ := steps_dispatch hc (hv.steps hsteps) hdispatch
  refine ⟨v, w, hsteps, ?_, hdispatch, hw, heq⟩
  obtain ⟨_, rfl⟩ := scheduleDispatch_eq_ok.mp hrequest
  exact (EventQueue.insert_live (((hv.steps hu).timers hc).cancelled)).mpr (Or.inl rfl)

/-- Handling the completion of a running job is a sequence of steps; that of another job
is a stale timer. -/
theorem steps_complete {ev : RunnerEvent} {k : Kernel RunnerPayload}
    (hpop : Popped c s.toRunnerCore ev k) {jobId : String}
    (hpayload : ev.payload = .client (.complete jobId))
    (h : onComplete c jobId { s with kernel := k } = .ok s') :
    (jobId ∉ s.running.keys ∧ Step c s s') ∨
      ∃ t, Step c s t ∧ scheduleDispatch (maybeRecordRecovery c t) = .ok s' := by
  unfold onComplete at h
  split_ifs at h with hrunning
  · cases h
    have hidle : jobId ∉ s.running.keys := fun hm => by simp [Dict.contains_iff.mpr hm] at hrunning
    exact Or.inl ⟨hidle, .stale hpop hpayload hidle⟩
  · have hm : jobId ∈ s.running.keys := Dict.contains_iff.mp (by simpa using hrunning)
    exact Or.inr ⟨_, .complete hpop hpayload hm (retire_spec jobId _), h⟩

/-- The event that a run handles next is the earliest live event. -/
theorem nextEvent_eq_some {ev : RunnerEvent} (h : nextEvent c s = some ev) :
    s.kernel.queue.pop.1 = some ev ∧ ev.timePs ≤ maxTimePs c := by
  obtain ⟨hpeek, hle⟩ := Option.filter_eq_some_iff.mp h
  rw [EventQueue.peek_eq_pop] at hpeek
  exact ⟨hpeek, by simpa using hle⟩

/-- Handling an event pops it, calls its payload, and requires progress. -/
theorem processEvent_eq_ok {ev : RunnerEvent} (hev : nextEvent c s = some ev)
    (h : (host c).processEvent s = .ok s') :
    ∃ k, Popped c s.toRunnerCore ev k ∧
      (host c).invoke ev.payload { s with kernel := k } = .ok s' ∧
      s.kernel.madeProgress ev s'.kernel = true := by
  obtain ⟨hpop, hlimit⟩ := nextEvent_eq_some hev
  unfold Host.processEvent at h
  rw [show (host c).kernel s = s.kernel from rfl] at h
  cases hq : s.kernel.queue.pop with
  | mk popped queue =>
    rw [hq] at hpop h
    obtain rfl : popped = some ev := hpop
    dsimp only at h
    split_ifs at h with hpast
    simp only [bind_eq_ok] at h
    obtain ⟨k, hconsume, t, hinvoke, hprogress⟩ := h
    split_ifs at hprogress with hp
    cases hprogress
    exact ⟨k, ⟨queue, hq, not_lt.mp hpast, hlimit, hconsume⟩, hinvoke, hp⟩

/-- The payload of a popped event, and the release that an arrival carries. -/
theorem Timers.payload (h : Timers c s.toRunnerCore) {ev : RunnerEvent}
    (hlive : s.kernel.queue.Live ev) :
    ∃ p, ev.payload = .client p ∧ ∀ r, p = .arrival r → r ∈ c.releases := by
  rcases h.event ev hlive with ⟨a, ha, _⟩ | ⟨_, hd | ⟨r, hr, hd, _⟩⟩
  · exact ⟨_, ha.2, by simp⟩
  · exact ⟨_, hd, by simp⟩
  · refine ⟨_, hd, ?_⟩
    rintro r' heq
    cases heq
    exact hr

/-- Handling a popped event is a sequence of steps. -/
theorem steps_invoke (hc : c.WellFormed) (hv : Visited c s) {ev : RunnerEvent}
    {k : Kernel RunnerPayload} (hpop : Popped c s.toRunnerCore ev k)
    (h : (host c).invoke ev.payload { s with kernel := k } = .ok s') : Steps c s s' := by
  have ht := hv.timers hc
  obtain ⟨p, hpayload, hr⟩ := ht.payload (ht.advanced hpop).live
  rw [hpayload] at h
  cases p with
  | arrival r =>
    obtain ⟨v, t, hv', _, _, ht, rfl⟩ := steps_arrival hc hv hpop hpayload (hr r rfl) h
    exact (hv'.trans ht.steps).tail step_check
  | dispatch =>
    have hstep : Step c s { s with kernel := k } := .dispatch hpop hpayload
    obtain ⟨t, ht, rfl⟩ := steps_dispatch hc (hv.step hstep) h
    exact .head hstep (ht.steps.tail step_check)
  | complete jobId =>
    rcases steps_complete hpop hpayload h with ⟨_, hstep⟩ | ⟨t, hstep, hrequest⟩
    · exact .single hstep
    · exact ((Relation.ReflTransGen.single hstep).tail step_check).tail (step_request hrequest)

/-- Every state of a run is visited. -/
theorem Reachable.visited (hc : c.WellFormed) (h : Reachable c s) : Visited c s := by
  induction h with
  | init h => exact .init h
  | step _ hev h ih =>
    obtain ⟨k, hpop, hinvoke, _⟩ := processEvent_eq_ok hev h
    exact ih.steps (steps_invoke hc ih hpop hinvoke)

theorem Attained.visited (hc : c.WellFormed) (h : Attained c s) : Visited c s := by
  cases h with
  | between h => exact h.visited hc
  | handled hs hpop h => exact (hs.visited hc).steps (steps_invoke hc (hs.visited hc) hpop h)

/-! ### The last event of an instant -/

/-- No event of the present instant is left: the next event, if there is one, takes time
forward. -/
def InstantDone (s : RunnerState) : Prop :=
  ∀ e, s.kernel.queue.Live e → s.now < e.timePs

instance : DecidablePred InstantDone := fun s =>
  decidable_of_iff
    (∀ e ∈ s.kernel.queue.heap, e.seq ∉ s.kernel.queue.cancelled → s.now < e.timePs)
    (by simp only [InstantDone, EventQueue.Live, and_imp])

/-- A run starts with a dispatch event at its first instant. -/
theorem not_instantDone_init (h : scheduleArrivals c (init c) = .ok s) : ¬InstantDone s := by
  obtain ⟨k, rfl, hnow, _, _, _, hlive⟩ := scheduleArrivals_kernel h
  intro hdone
  have hlt := hdone _ ((hlive _).mpr (Or.inl rfl))
  simp only [RunnerCore.now, hnow, lt_irrefl] at hlt

/-- The last event of an instant is a dispatch event: arrivals and completions request
another one. -/
theorem dispatch_of_instantDone (hc : c.WellFormed) (hs : Reachable c s) {ev : RunnerEvent}
    (hev : nextEvent c s = some ev) (h : (host c).processEvent s = .ok s')
    (hdone : InstantDone s') : ∃ k, Popped c s.toRunnerCore ev k ∧
      ev.payload = .client .dispatch ∧ dispatch c { s with kernel := k } = .ok s' := by
  obtain ⟨k, hpop, hinvoke, _⟩ := processEvent_eq_ok hev h
  have hv := hs.visited hc
  have htimers := hv.timers hc
  have hlive := (htimers.advanced hpop).live
  obtain ⟨p, hpayload, hr⟩ := htimers.payload hlive
  rw [hpayload] at hinvoke
  cases p with
  | dispatch => exact ⟨k, hpop, hpayload, hinvoke⟩
  | arrival r =>
    obtain ⟨v, t, hsteps, hrequest, _, hpass, rfl⟩ :=
      steps_arrival hc hv hpop hpayload (hr r rfl) hinvoke
    obtain ⟨hnow, hkeep⟩ := hpass.kernel hc (hv.steps hsteps)
    have hlt := hdone _ (by
      rw [(maybeRecordRecovery_spec t).kernel]
      exact (hkeep _ (by simp)).mpr hrequest)
    rw [RunnerCore.now, (maybeRecordRecovery_spec t).kernel] at hlt
    exact absurd hnow.symm.le (not_le.mpr hlt)
  | complete jobId =>
    rcases steps_complete hpop hpayload hinvoke with ⟨hidle, _⟩ | ⟨t, hstep, hrequest⟩
    · exact absurd (Dict.mem_keys.mpr ⟨_, htimers.timer_unique hlive hpayload⟩) hidle
    · have hcancelled := ((hv.step hstep).step step_check |>.timers hc).cancelled
      obtain ⟨_, rfl⟩ := scheduleDispatch_eq_ok.mp hrequest
      have hlt := hdone _ ((EventQueue.insert_live hcancelled).mpr (Or.inl rfl))
      exact absurd hlt (lt_irrefl _)

/-! ### The outer loop -/

/-- One round of the kernel stops at its limit, or handles the next event. -/
theorem runUntil_succ (n : ℕ) (s : RunnerState) :
    (host c).runUntil (some (maxTimePs c)) (n + 1) s =
      if (nextEvent c s).isSome then
        (host c).processEvent s >>= (host c).runUntil (some (maxTimePs c)) n
      else .ok s := by
  rw [Host.runUntil]
  unfold nextEvent
  rw [show (host c).kernel s = s.kernel from rfl]
  cases hpeek : s.kernel.queue.peek with
  | none => rfl
  | some ev =>
    by_cases hle : ev.timePs ≤ maxTimePs c
    · simp [hle]
    · simp [hle, not_le.mp hle]

/-- A run of the kernel stops in a state of the run. -/
theorem Reachable.after_runUntil {n : ℕ} (hs : Reachable c s)
    (h : (host c).runUntil (some (maxTimePs c)) n s = .ok s') : Reachable c s' := by
  induction n generalizing s with
  | zero =>
    cases h
    exact hs
  | succ n ih =>
    rw [runUntil_succ] at h
    split_ifs at h with hnext
    · obtain ⟨ev, hev⟩ := Option.isSome_iff_exists.mp hnext
      obtain ⟨t, hstep, hrest⟩ := bind_eq_ok.mp h
      exact ih (hs.step hev hstep) hrest
    · cases h
      exact hs

/-- A run of the kernel fails in a state of the run whose next event fails. -/
theorem Reachable.of_runUntil_error {n : ℕ} {e : Error} (hs : Reachable c s)
    (h : (host c).runUntil (some (maxTimePs c)) n s = .error e) :
    ∃ t, Reachable c t ∧ (nextEvent c t).isSome ∧ (host c).processEvent t = .error e := by
  induction n generalizing s with
  | zero => cases h
  | succ n ih =>
    rw [runUntil_succ] at h
    split_ifs at h with hnext
    rcases bind_eq_error.mp h with hfail | ⟨t, hstep, hrest⟩
    · exact ⟨s, hs, hnext, hfail⟩
    · obtain ⟨ev, hev⟩ := Option.isSome_iff_exists.mp hnext
      exact ih (hs.step hev hstep) hrest

/-- The outer loop ends in a state of the run without a next event. -/
theorem Reachable.after_runLoop {rounds : ℕ} (hs : Reachable c s)
    (h : runLoop c rounds s = .ok (some s')) : Reachable c s' ∧ nextEvent c s' = none := by
  induction rounds generalizing s with
  | zero => cases h
  | succ rounds ih =>
    unfold runLoop at h
    cases hnext : nextEvent c s with
    | none =>
      simp only [hnext] at h
      cases h
      exact ⟨hs, hnext⟩
    | some ev =>
      simp only [hnext] at h
      obtain ⟨t, hstep, hrest⟩ := bind_eq_ok.mp h
      exact ih (hs.after_runUntil hstep) hrest

/-- The outer loop fails in a state of the run whose next event fails. -/
theorem Reachable.of_runLoop_error {rounds : ℕ} {e : Error} (hs : Reachable c s)
    (h : runLoop c rounds s = .error e) :
    ∃ t, Reachable c t ∧ (nextEvent c t).isSome ∧ (host c).processEvent t = .error e := by
  induction rounds generalizing s with
  | zero => cases h
  | succ rounds ih =>
    unfold runLoop at h
    cases hnext : nextEvent c s with
    | none =>
      simp only [hnext] at h
      cases h
    | some ev =>
      simp only [hnext] at h
      rcases bind_eq_error.mp h with hfail | ⟨t, hstep, hrest⟩
      · exact hs.of_runUntil_error hfail
      · exact ih (hs.after_runUntil hstep) hrest

/-- Scheduling the arrivals of a well-formed scenario succeeds. -/
theorem scheduleArrivals_ok (hc : c.WellFormed) :
    ∃ s, scheduleArrivals c (Runner.init c) = .ok s := by
  have hfold : ∀ (releases : List JobRelease) (k : Kernel RunnerPayload), k.nowPs = 0 →
      (∀ r ∈ releases, 0 ≤ r.arrivalPs) → ∃ k' : Kernel RunnerPayload, k'.nowPs = 0 ∧
      releases.foldlM scheduleRelease k = .ok k' := by
    intro releases
    induction releases with
    | nil => exact fun k hk _ => ⟨k, hk, rfl⟩
    | cons r releases ih =>
      intro k hk hr
      rw [List.forall_mem_cons] at hr
      obtain ⟨k', hk', hrest⟩ := ih
        { k with queue := k.queue.insert r.arrivalPs .dispatch (.client (.arrival r)) } hk hr.2
      refine ⟨k', hk', ?_⟩
      rw [List.foldlM_cons, bind_eq_ok]
      refine ⟨_, scheduleRelease_eq_ok.mpr ⟨?_, hr.1, rfl⟩, hrest⟩
      rw [hk]
      exact hr.1
  obtain ⟨k, hk, hk'⟩ := hfold c.releases (Runner.init c).kernel rfl hc.arrival_nonneg
  refine ⟨_, bind_eq_ok.mpr ⟨k, hk', bind_eq_ok.mpr ⟨(_, _),
    Kernel.schedule_eq_ok.mpr ⟨hk.le, le_rfl, rfl, rfl⟩, rfl⟩⟩⟩

/-- The state in which a run ends; `none` if the rounds did not suffice. -/
def endState (c : CompiledScenario) (rounds : ℕ) : Except Error (Option RunnerState) :=
  scheduleArrivals c (Runner.init c) >>= runLoop c rounds

/-- A run ends in a state without a next event and returns the metrics of that state. -/
theorem endState_eq_some {rounds : ℕ} (h : endState c rounds = .ok (some s)) :
    Reachable c s ∧ nextEvent c s = none ∧ run c rounds = .ok (some (finish c s)) := by
  obtain ⟨s₀, hs₀, hloop⟩ := bind_eq_ok.mp h
  obtain ⟨hreach, hnext⟩ := (Reachable.init hs₀).after_runLoop hloop
  refine ⟨hreach, hnext, ?_⟩
  unfold run
  rw [hs₀, bind_eq_ok_left, hloop, bind_eq_ok_left]
  rfl

/-- The metrics of a completed run are those of a state of the run without a next event. -/
theorem run_eq_some {rounds : ℕ} {m : ScenarioMetrics} (h : run c rounds = .ok (some m)) :
    ∃ s, Reachable c s ∧ nextEvent c s = none ∧ m = finish c s := by
  unfold run at h
  obtain ⟨s, hs, h⟩ := bind_eq_ok.mp h
  obtain ⟨final, hfinal, heq⟩ := bind_eq_ok.mp h
  cases final with
  | none => cases heq
  | some t =>
    cases heq
    obtain ⟨hreach, hnext⟩ := (Reachable.init hs).after_runLoop hfinal
    exact ⟨t, hreach, hnext, rfl⟩

/-- A run of a well-formed scenario fails in a state whose next event fails. -/
theorem run_eq_error (hc : c.WellFormed) {rounds : ℕ} {e : Error}
    (h : run c rounds = .error e) :
    ∃ t, Reachable c t ∧ (nextEvent c t).isSome ∧ (host c).processEvent t = .error e := by
  unfold run at h
  obtain ⟨s, hs⟩ := scheduleArrivals_ok hc
  rw [hs, bind_eq_ok_left] at h
  rcases bind_eq_error.mp h with hfail | ⟨final, _, hfinal⟩
  · exact (Reachable.init hs).of_runLoop_error hfail
  · cases hfinal

/-! ### Every failing state fails some run -/

/-- A number of events leads from one state to another. -/
inductive Events (c : CompiledScenario) : ℕ → RunnerState → RunnerState → Prop
  | zero (s : RunnerState) : Events c 0 s s
  | succ {n : ℕ} {s t u : RunnerState} (hnext : (nextEvent c s).isSome)
      (h : (host c).processEvent s = .ok t) (hrest : Events c n t u) : Events c (n + 1) s u

theorem Events.trans_step {n : ℕ} {t u : RunnerState} (h : Events c n s t)
    (hnext : (nextEvent c t).isSome) (hstep : (host c).processEvent t = .ok u) :
    Events c (n + 1) s u := by
  induction h with
  | zero s => exact .succ hnext hstep (.zero u)
  | succ hnext' h' _ ih => exact .succ hnext' h' (ih hnext hstep)

theorem Reachable.events (h : Reachable c s) :
    ∃ s₀ n, scheduleArrivals c (Runner.init c) = .ok s₀ ∧ Events c n s₀ s := by
  induction h with
  | init h => exact ⟨_, 0, h, .zero _⟩
  | step _ hev h ih =>
    obtain ⟨s₀, n, hs₀, hn⟩ := ih
    exact ⟨s₀, n + 1, hs₀, hn.trans_step (by simp [hev]) h⟩

/-- A round of the kernel that starts before a failing event reaches it or gets closer. -/
private theorem Events.closer {n : ℕ} {t : RunnerState} {e : Error} (h : Events c n s t)
    (hnext : (nextEvent c t).isSome) (hfail : (host c).processEvent t = .error e) (m : ℕ) :
    (host c).runUntil (some (maxTimePs c)) m s = .error e ∨
      ∃ u n', (host c).runUntil (some (maxTimePs c)) m s = .ok u ∧ n' + m = n ∧
        Events c n' u t := by
  induction m generalizing n s with
  | zero => exact Or.inr ⟨s, n, rfl, by omega, h⟩
  | succ m ih =>
    cases h with
    | zero =>
      left
      rw [runUntil_succ, if_pos hnext, hfail]
      rfl
    | succ hnext' hstep hrest =>
      rw [runUntil_succ, if_pos hnext', hstep, bind_eq_ok_left]
      rcases ih hrest with herror | ⟨u, n', hok, hn', hu⟩
      · exact Or.inl herror
      · exact Or.inr ⟨u, n', hok, by omega, hu⟩

/-- When the next event of a state of the run fails, some run fails. -/
theorem Reachable.run_error {e : Error} (hs : Reachable c s)
    (hnext : (nextEvent c s).isSome) (hfail : (host c).processEvent s = .error e) :
    ∃ rounds, run c rounds = .error e := by
  have hloop : ∀ rounds n t, n < rounds → Events c n t s → runLoop c rounds t = .error e := by
    intro rounds
    induction rounds with
    | zero => omega
    | succ rounds ih =>
      intro n t hn ht
      have hsome : (nextEvent c t).isSome := by
        cases ht with
        | zero => exact hnext
        | succ hnext' _ _ => exact hnext'
      obtain ⟨ev, hev⟩ := Option.isSome_iff_exists.mp hsome
      unfold runLoop
      simp only [hev]
      rcases ht.closer hnext hfail 1000 with herror | ⟨u, n', hok, hn', hu⟩
      · rw [herror]
        rfl
      · rw [hok, bind_eq_ok_left]
        exact ih n' u (by omega) hu
  obtain ⟨s₀, n, hs₀, hn⟩ := hs.events
  refine ⟨n + 1, ?_⟩
  unfold run
  rw [hs₀, bind_eq_ok_left, hloop (n + 1) n s₀ (Nat.lt_succ_self n) hn]
  rfl

/-! ### Concrete runs -/

/-- The state of the run after a number of events. -/
def stateAfter (c : CompiledScenario) : ℕ → Option RunnerState
  | 0 => (scheduleArrivals c (Runner.init c)).toOption
  | n + 1 => (stateAfter c n).bind fun s =>
      if (nextEvent c s).isSome then ((host c).processEvent s).toOption else none

theorem stateAfter_reachable {n : ℕ} (h : stateAfter c n = some s) : Reachable c s := by
  induction n generalizing s with
  | zero => exact .init (toOption_eq_some.mp h)
  | succ n ih =>
    obtain ⟨t, ht, hstep⟩ := Option.bind_eq_some_iff.mp h
    split_ifs at hstep with hnext
    obtain ⟨ev, hev⟩ := Option.isSome_iff_exists.mp hnext
    exact (ih ht).step hev (toOption_eq_some.mp hstep)

/-- Compile an accepted scenario, run it for a number of events, and test the state. -/
def testAfter (sc : Scenario) (n : ℕ) (test : CompiledScenario → RunnerState → Bool) : Bool :=
  match sc.validate, compileScenario sc none with
  | .ok (), .ok c => (stateAfter c n).any (test c)
  | _, _ => false

theorem of_testAfter {sc : Scenario} {n : ℕ} {test : CompiledScenario → RunnerState → Bool}
    (h : testAfter sc n test = true) : sc.validate = .ok () ∧
      ∃ c s, compileScenario sc none = .ok c ∧ Reachable c s ∧ test c s = true := by
  unfold testAfter at h
  split at h
  · next c hv hcompile =>
    obtain ⟨s, hs, htest⟩ := (Option.any_eq_true _ _).mp h
    exact ⟨hv, c, s, hcompile, stateAfter_reachable hs, htest⟩
  · cases h

/-- Run a scenario for some rounds and test the state in which it ends. -/
def testEnd (sc : Scenario) (rounds : ℕ) (test : CompiledScenario → RunnerState → Bool) : Bool :=
  testAfter sc 0 fun c _ =>
    match endState c rounds with
    | .ok (some s) => test c s
    | _ => false

theorem of_testEnd {sc : Scenario} {rounds : ℕ} {test : CompiledScenario → RunnerState → Bool}
    (h : testEnd sc rounds test = true) : sc.validate = .ok () ∧
      ∃ c s, compileScenario sc none = .ok c ∧ endState c rounds = .ok (some s) ∧
        test c s = true := by
  obtain ⟨hv, c, _, hcompile, _, htest⟩ := of_testAfter h
  split at htest
  · next s hend => exact ⟨hv, c, s, hcompile, hend, htest⟩
  · cases htest

/-- A class with explicit release times whose jobs are admitted without a check. -/
def traceClass (id : String) (releasesMs : List ℚ) (workMs : ℚ) (priority : ℤ)
    (resourceRequirements : List (String × ℤ)) : WorkloadClass :=
  { id := id
    arrival := { mode := .trace, releasesMs := releasesMs }
    workMs := workMs
    priority := priority
    resourceRequirements := Dict.ofList resourceRequirements
    admissionExcluded := true }

/-- A scenario over a tenth of a second in which every job is measured. -/
def traceScenario (classes : List WorkloadClass) (resources : List (String × ℤ)) : Scenario :=
  { name := "trace"
    warmupCount := 0
    maxSimulationTimeMs := 100
    classes := classes
    resources := Dict.ofList resources }

end Runner

end NpuArc
