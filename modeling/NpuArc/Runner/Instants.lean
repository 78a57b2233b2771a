import NpuArc.Runner.Segments
import NpuArc.Runner.Termination

/-!
# Instants

Between two events the set of running jobs is constant, so at each instant of the simulated
time the run is in one state, the one whose next event is later. The jobs that run at an
instant are those of that state, and the segments of a job are the instants at which it runs.
-/

namespace NpuArc

namespace Runner

variable {c : CompiledScenario} {s s' u u' : RunnerState} {jobId : String} {t : ℤ}

/-- A state in which the run is at an instant, between the events at or before it and those
after it. -/
structure StateAt (c : CompiledScenario) (t : ℤ) (s : RunnerState) : Prop where
  reachable : Reachable c s
  now_le : s.now ≤ t
  limit : t < maxTimePs c
  later : ∀ ev, nextEvent c s = some ev → t < ev.timePs

/-- A job is running at an instant. -/
def RunningAt (c : CompiledScenario) (jobId : String) (t : ℤ) : Prop :=
  ∃ s, StateAt c t s ∧ jobId ∈ s.running.keys

/-! ### Time -/

theorem Popped.now_le (ht : Timers c s.toRunnerCore) {ev : RunnerEvent} {k : Kernel RunnerPayload}
    (hpop : Popped c s.toRunnerCore ev k) : s.now ≤ k.nowPs := by
  have hadv := ht.advanced hpop
  rw [hadv.now]
  exact hadv.future

/-- Time does not go back. -/
theorem Step.now_le (hc : c.WellFormed) (hv : Visited c s) (h : Step c s s') : s.now ≤ s'.now := by
  have ht := hv.timers hc
  cases h with
  | dispatch hpop _ => exact hpop.now_le ht
  | arrive hpop _ _ h => exact (hpop.now_le ht).trans (congrArg Kernel.nowPs h.kernel).ge
  | complete hpop hpayload _ h =>
    exact (hpop.now_le ht).trans (h.now_eq hc hv hpop hpayload).ge
  | stale hpop _ _ => exact hpop.now_le ht
  | offer _ => exact le_rfl
  | start hstartable hfits h => exact (PassSteps.kernel hc hv (.single (.start hstartable hfits h))).1.ge
  | preempt hrunning h => exact (PassSteps.kernel hc hv (.single (.preempt hrunning h))).1.ge
  | check _ h => exact (congrArg Kernel.nowPs h.kernel).ge
  | request _ => exact le_rfl

theorem Steps.now_le (hc : c.WellFormed) (hv : Visited c s) (h : Steps c s s') : s.now ≤ s'.now := by
  induction h with
  | refl => exact le_rfl
  | tail hsteps hstep ih => exact ih.trans (hstep.now_le hc (hv.steps hsteps))

/-- Handling an event takes time to it before anything else happens, and no further. -/
theorem first_step (hc : c.WellFormed) (hv : Visited c s) {ev : RunnerEvent}
    {k : Kernel RunnerPayload} (hpop : Popped c s.toRunnerCore ev k)
    (h : (host c).invoke ev.payload { s with kernel := k } = .ok s') :
    ∃ u, Step c s u ∧ u.now = ev.timePs ∧ Steps c u s' ∧ s'.now = ev.timePs := by
  have ht := hv.timers hc
  have hadv := ht.advanced hpop
  obtain ⟨p, hpayload, hr⟩ := ht.payload hadv.live
  rw [hpayload] at h
  cases p with
  | dispatch =>
    have hstep : Step c s { s with kernel := k } := .dispatch hpop hpayload
    obtain ⟨t, ht, rfl⟩ := steps_dispatch hc (hv.step hstep) h
    refine ⟨_, hstep, hadv.now, ht.steps.tail step_check, ?_⟩
    rw [RunnerCore.now, (maybeRecordRecovery_spec t).kernel]
    exact (ht.kernel hc (hv.step hstep)).1.trans hadv.now
  | arrival r =>
    obtain ⟨u, v, hreceived, hrequest, hdispatch⟩ :=
      arrival_cases hc ((hv.places hc).setKernel k) (hr r rfl) h
    have hstep : Step c s u := .arrive hpop hpayload (hr r rfl) hreceived
    have hsteps : Steps c u v := (Relation.ReflTransGen.single step_check).tail (step_request hrequest)
    have hvisited := (hv.step hstep).steps hsteps
    obtain ⟨t, ht, rfl⟩ := steps_dispatch hc hvisited hdispatch
    have hnow : u.now = ev.timePs := (congrArg Kernel.nowPs hreceived.kernel).trans hadv.now
    refine ⟨u, hstep, hnow, (hsteps.trans ht.steps).tail step_check, ?_⟩
    have hrequested : v.now = u.now := (scheduleDispatch_paid hrequest).2.1.trans
      (congrArg Kernel.nowPs (maybeRecordRecovery_spec u).kernel)
    rw [RunnerCore.now, (maybeRecordRecovery_spec t).kernel]
    exact (ht.kernel hc hvisited).1.trans (hrequested.trans hnow)
  | complete jobId =>
    have hrunning := Dict.mem_keys.mpr ⟨_, ht.timer_unique hadv.live hpayload⟩
    have hcontains : s.running.contains jobId = true := Dict.contains_iff.mpr hrunning
    have hretired := retire_spec (c := c) jobId { s with kernel := k }
    change onComplete c jobId { s with kernel := k } = .ok s' at h
    unfold onComplete at h
    rw [if_neg (by simp [hcontains])] at h
    have hnow := (hretired.now_eq hc hv hpop hpayload).trans hadv.now
    refine ⟨_, .complete hpop hpayload hrunning hretired, hnow,
      (Relation.ReflTransGen.single step_check).tail (step_request h), ?_⟩
    exact ((scheduleDispatch_paid h).2.1.trans
      (congrArg Kernel.nowPs (maybeRecordRecovery_spec _).kernel)).trans hnow

/-- Handling the next event takes time to it. -/
theorem now_of_processEvent (hc : c.WellFormed) (hs : Reachable c s) {ev : RunnerEvent}
    (hev : nextEvent c s = some ev) (h : (host c).processEvent s = .ok s') :
    s.now ≤ s'.now ∧ s'.now = ev.timePs := by
  obtain ⟨k, hpop, hinvoke, _⟩ := processEvent_eq_ok hev h
  obtain ⟨u, hstep, hu, _, hnow⟩ := first_step hc (hs.visited hc) hpop hinvoke
  refine ⟨?_, hnow⟩
  rw [hnow, ← hu]
  exact hstep.now_le hc (hs.visited hc)

/-! ### The state at an instant -/

theorem Events.now_le {n : ℕ} (hc : c.WellFormed) (hs : Reachable c s) (h : Events c n s s') :
    s.now ≤ s'.now := by
  induction h with
  | zero s => exact le_rfl
  | succ hnext h _ ih =>
    obtain ⟨ev, hev⟩ := Option.isSome_iff_exists.mp hnext
    exact (now_of_processEvent hc hs hev h).1.trans (ih (hs.step hev h))

theorem Events.split {m n : ℕ} (h : Events c (m + n) s s') :
    ∃ u, Events c m s u ∧ Events c n u s' := by
  induction m generalizing s with
  | zero =>
    rw [Nat.zero_add] at h
    exact ⟨s, .zero s, h⟩
  | succ m ih =>
    rw [Nat.succ_add] at h
    cases h with
    | succ hnext hstep hrest =>
      obtain ⟨u, hm, hn⟩ := ih hrest
      exact ⟨u, .succ hnext hstep hm, hn⟩

/-- The run is in one state at an instant. -/
theorem StateAt.unique (hc : c.WellFormed) (h : StateAt c t u) (h' : StateAt c t u') : u = u' := by
  have hlast : ∀ {u u' : RunnerState} {n : ℕ}, StateAt c t u → StateAt c t u' → Events c n u u' →
      u = u' := by
    intro u u' n h h' hevents
    cases hevents with
    | zero _ => rfl
    | succ hnext hstep hrest =>
      obtain ⟨ev, hev⟩ := Option.isSome_iff_exists.mp hnext
      have hnow := (now_of_processEvent hc h.reachable hev hstep).2
      have hrest := hrest.now_le hc (h.reachable.step hev hstep)
      have hlater := h.later ev hev
      have hle := h'.now_le
      omega
  obtain ⟨s₀, m, hs₀, hm⟩ := h.reachable.events
  obtain ⟨s₁, n, hs₁, hn⟩ := h'.reachable.events
  cases hs₀.symm.trans hs₁
  rcases Nat.le_total m n with hle | hle
  · obtain ⟨k, rfl⟩ := Nat.exists_eq_add_of_le hle
    obtain ⟨w, hw, hk⟩ := hn.split
    cases hm.unique hw
    exact hlast h h' hk
  · obtain ⟨k, rfl⟩ := Nat.exists_eq_add_of_le hle
    obtain ⟨w, hw, hk⟩ := hm.split
    cases hn.unique hw
    exact (hlast h' h hk).symm

/-! ### Segments and instants -/

/-- An instant lies in a segment of a job that has ended, or in its running one. -/
def Covers (s : RunnerState) (jobId : String) (t : ℤ) : Prop :=
  (∃ e ∈ segments jobId s.history, e.1 ≤ t ∧ t < e.2) ∨
    jobId ∈ s.running.keys ∧ (ledger jobId s.history).lastStartPs ≤ t

theorem covers_congr (hrunning : s'.running = s.running)
    (hledger : ∀ jobId, ledger jobId s'.history = ledger jobId s.history)
    (hsegments : ∀ jobId, segments jobId s'.history = segments jobId s.history) :
    Covers s' jobId t ↔ Covers s jobId t := by
  unfold Covers
  rw [hrunning, hledger, hsegments]

theorem covers_of_log {a : Action} {r : RunnerCore} (ha : ∀ jobId, ¬IsMove jobId a)
    (hhistory : s'.history = (a, r) :: s.history) (hrunning : s'.running = s.running) :
    Covers s' jobId t ↔ Covers s jobId t := by
  apply covers_congr hrunning
  · intro jobId
    rw [hhistory, ledger_of_not_move (ha jobId)]
  · intro jobId
    rw [hhistory, segments_of_not_move (ha jobId)]

/-- The end of a segment leaves the instants before it. -/
theorem covers_of_end {other : String} {a : Action} (ha : a = .preempt other ∨ a = .complete other)
    (hmem : other ∈ s.running.keys) (hhistory : s'.history = (a, s.toRunnerCore) :: s.history)
    (hrunning : s'.running = s.running.erase other) (ht : t < s.now) :
    Covers s' jobId t ↔ Covers s jobId t := by
  unfold Covers
  rw [hhistory, hrunning, lastStart_of_end ha, segments_of_end ha, Dict.mem_keys_erase]
  by_cases hjob : jobId = other
  · subst hjob
    rw [if_pos rfl]
    simp only [List.mem_cons, exists_eq_or_imp, ne_eq, not_true_eq_false, false_and, or_false,
      hmem, ht, and_true, true_and]
    exact or_comm
  · simp [hjob]

/-- A step leaves the instants of the past. -/
theorem Step.covers (hc : c.WellFormed) (hv : Visited c s) (h : Step c s s') (ht : t < s'.now) :
    Covers s' jobId t ↔ Covers s jobId t := by
  cases h with
  | dispatch _ _ => exact Iff.rfl
  | arrive _ _ _ h => exact covers_of_log (fun _ => by simp [IsMove]) h.history h.running
  | @complete ev k other _ hpop hpayload hrunning h =>
    rw [h.now_eq hc hv hpop hpayload] at ht
    exact covers_of_end (s := { s with kernel := k }) (.inr rfl) hrunning h.history h.running ht
  | stale _ _ _ => exact Iff.rfl
  | offer _ => exact covers_of_log (fun _ => by simp [IsMove]) rfl rfl
  | @start other _ _ hstartable hfits h =>
    have hnow := (PassSteps.kernel hc hv (.single (.start hstartable hfits h))).1
    unfold Covers
    rw [h.history, h.running, segments_start, lastStart_start, Dict.mem_keys_insert]
    by_cases hjob : jobId = other
    · subst hjob
      have hidle := hstartable.2.1
      have hlater : ¬s.now ≤ t := by omega
      simp [hidle, hlater]
    · simp [hjob]
  | preempt hrunning h =>
    have hnow := (PassSteps.kernel hc hv (.single (.preempt hrunning h))).1
    exact covers_of_end (.inl rfl) (Dict.mem_keys.mpr ⟨_, hrunning⟩) h.history h.running (by omega)
  | check _ h => exact covers_of_log (fun _ => by simp [IsMove]) h.history h.running
  | request _ => exact Iff.rfl

theorem Steps.covers (hc : c.WellFormed) (hv : Visited c s) (h : Steps c s s') (ht : t < s.now) :
    Covers s' jobId t ↔ Covers s jobId t := by
  induction h with
  | refl => exact Iff.rfl
  | tail hsteps hstep ih =>
    have hvisited := hv.steps hsteps
    have hle := Steps.now_le hc hv hsteps
    have hnext := hstep.now_le hc hvisited
    exact (hstep.covers hc hvisited (by omega)).trans ih

/-- Between two events the present segments are those of the running jobs. -/
theorem Timed.covers_now (h : Timed c s) (ht : s.now ≤ t) :
    Covers s jobId t ↔ jobId ∈ s.running.keys := by
  constructor
  · rintro (⟨e, he, _, hlt⟩ | ⟨hrunning, _⟩)
    · have hended := (h.ended jobId e he).2
      omega
    · exact hrunning
  · intro hrunning
    have hstarted := h.started jobId hrunning
    exact .inr ⟨hrunning, by omega⟩

theorem StateAt.running_iff (hc : c.WellFormed) (h : StateAt c t s) :
    RunningAt c jobId t ↔ jobId ∈ s.running.keys := by
  constructor
  · rintro ⟨u, hu, hrunning⟩
    cases h.unique hc hu
    exact hrunning
  · exact fun hrunning => ⟨s, h, hrunning⟩

/-- The instants of the past lie in segments of exactly the jobs that ran then. -/
theorem Reachable.covers (hc : c.WellFormed) (hs : Reachable c s) (ht : t < s.now) :
    Covers s jobId t ↔ RunningAt c jobId t := by
  induction hs with
  | @init s h =>
    have hv : Visited c s := .init h
    obtain ⟨k, rfl, hnow, _⟩ := scheduleArrivals_kernel h
    have hzero : t < 0 := by
      change t < k.nowPs at ht
      omega
    apply iff_of_false
    · rintro (⟨e, he, _⟩ | ⟨hrunning, _⟩)
      · cases he
      · cases hrunning
    · rintro ⟨u, hu, _⟩
      have hnonneg := ((hu.reachable.visited hc).timers hc).now_nonneg
      have hle := hu.now_le
      unfold RunnerCore.now at hle
      omega
  | @step s s' ev hs hev h ih =>
    have hv := hs.visited hc
    obtain ⟨k, hpop, hinvoke, _⟩ := processEvent_eq_ok hev h
    obtain ⟨u, hstep, hu, hsteps, hnow⟩ := first_step hc hv hpop hinvoke
    rw [Steps.covers hc (hv.step hstep) hsteps (by omega), hstep.covers hc hv (by omega)]
    by_cases hpast : t < s.now
    · exact ih hpast
    · have hle : s.now ≤ t := not_lt.mp hpast
      have hlimit := (nextEvent_eq_some hev).2
      have hstate : StateAt c t s := by
        refine ⟨hs, hle, by omega, fun ev' hev' => ?_⟩
        cases hev.symm.trans hev'
        omega
      rw [(hv.timed hc).covers_now hle, hstate.running_iff hc]

/-- At the end of a run the segments of a job are the instants at which it ran. -/
theorem Reachable.covers_end (hc : c.WellFormed) (hs : Reachable c s) (hend : nextEvent c s = none)
    (ht : t < maxTimePs c) : Covers s jobId t ↔ RunningAt c jobId t := by
  by_cases hpast : t < s.now
  · exact hs.covers hc hpast
  · have hle : s.now ≤ t := not_lt.mp hpast
    have hstate : StateAt c t s := by
      refine ⟨hs, hle, ht, fun ev hev => ?_⟩
      rw [hend] at hev
      cases hev
    rw [((hs.visited hc).timed hc).covers_now hle, hstate.running_iff hc]

end Runner

end NpuArc
