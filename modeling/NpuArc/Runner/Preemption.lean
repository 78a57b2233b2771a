import NpuArc.Runner.Runs

/-!
# What preemption gains

Victims are taken in order of rank until the offered job fits or no outranked job is
left. The offered job then starts exactly when some initial part of that order frees
enough units; otherwise every victim lost its resources in vain.
-/

namespace NpuArc

namespace Runner

variable {c : CompiledScenario} {s : RunnerState} {jobId : String}

/-- The running jobs that a job outranks, lowest rank first. -/
def outranked (c : CompiledScenario) (jobId : String) (s : RunnerState) : List String :=
  (runningByRank c s).filter fun victim => decide (jobKey c jobId < jobKey c victim)

/-- The units in use after some jobs gave back theirs. -/
def unitsWithout (c : CompiledScenario) (victims : List String) (used : Dict String ℤ) :
    Dict String ℤ :=
  victims.foldl (fun used victim => giveUnits used (requirements c victim)) used

/-- A job fits once the lowest-ranked of the jobs it outranks, or none, gave back their
units. -/
def CanMakeRoom (c : CompiledScenario) (jobId : String) (s : RunnerState) : Prop :=
  ∃ victims, victims <+: outranked c jobId s ∧
    fits c (unitsWithout c victims s.resourceUsed) (requirements c jobId) = true

/-! ### The preemption loop -/

/-- A job fits after the loop if and only if it fits without some of the first victims. -/
theorem canAllocate_preemptLoop_iff {l : List String} (hl : l.Nodup)
    (hrunning : ∀ v ∈ l, v ∈ s.running.keys) (b : Bool) :
    canAllocate c jobId (preemptLoop c jobId l b s).1 = true ↔
      ∃ victims, victims <+: l.filter (fun victim => decide (jobKey c jobId < jobKey c victim)) ∧
        fits c (unitsWithout c victims s.resourceUsed) (requirements c jobId) = true := by
  induction l generalizing s b with
  | nil =>
    simp only [preemptLoop, List.filter_nil, List.prefix_nil, exists_eq_left]
    rfl
  | cons victim l ih =>
    rw [List.nodup_cons] at hl
    rw [List.forall_mem_cons] at hrunning
    unfold preemptLoop
    split_ifs with hfits hrank
    · simp only [hfits, true_iff]
      exact ⟨[], List.nil_prefix, hfits⟩
    · obtain ⟨ev, hev⟩ := Dict.mem_keys.mp hrunning.1
      have hpre := preemptJob_spec (c := c) hev
      rw [ih hl.2 (fun v hv => ?_) true, List.filter_cons_of_pos (by simpa using hrank), hpre.used]
      · constructor
        · rintro ⟨victims, hprefix, hroom⟩
          exact ⟨victim :: victims, List.prefix_cons_inj victim |>.mpr hprefix, hroom⟩
        · rintro ⟨victims, hprefix, hroom⟩
          rcases List.prefix_cons_iff.mp hprefix with rfl | ⟨victims, rfl, hprefix'⟩
          · exact absurd hroom hfits
          · exact ⟨victims, hprefix', hroom⟩
      · rw [hpre.running, Dict.mem_keys_erase]
        refine ⟨?_, hrunning.2 v hv⟩
        rintro rfl
        exact hl.1 hv
    · rw [ih hl.2 hrunning.2 b, List.filter_cons_of_neg (by simpa using hrank)]

/-- The loop preempts some job if and only if the job does not fit and outranks one. -/
theorem preemptLoop_any_iff {l : List String} (b : Bool) :
    (preemptLoop c jobId l b s).2 = true ↔ b = true ∨ (canAllocate c jobId s = false ∧
      l.filter (fun victim => decide (jobKey c jobId < jobKey c victim)) ≠ []) := by
  induction l generalizing s b with
  | nil => simp [preemptLoop]
  | cons victim l ih =>
    unfold preemptLoop
    split_ifs with hfits hrank
    · simp [hfits]
    · rw [ih true, List.filter_cons_of_pos (by simpa using hrank)]
      simp [hfits]
    · rw [ih b, List.filter_cons_of_neg (by simpa using hrank)]

theorem runningByRank_nodup (s : RunnerState) : (runningByRank c s).Nodup :=
  (List.perm_insertionSort _ _).nodup_iff.mpr s.running.keys_nodup

theorem mem_runningByRank {a : String} : a ∈ runningByRank c s ↔ a ∈ s.running.keys :=
  (List.perm_insertionSort _ _).mem_iff

/-- A job fits after the preemptions for it if and only if room can be made. -/
theorem canAllocate_preemptFor_iff :
    canAllocate c jobId (preemptFor c jobId s).1 = true ↔ CanMakeRoom c jobId s :=
  canAllocate_preemptLoop_iff (runningByRank_nodup s) (fun _ => mem_runningByRank.mp) false

/-- Some job is preempted if and only if the offered job does not fit and outranks one. -/
theorem preemptFor_any_iff : (preemptFor c jobId s).2 = true ↔
    canAllocate c jobId s = false ∧ outranked c jobId s ≠ [] := by
  rw [preemptFor, preemptLoop_any_iff]
  simp [outranked]

/-- Preempting keeps the timers in order. -/
theorem Timers.preemptFor (h : Timers c s.toRunnerCore) :
    Timers c (preemptFor c jobId s).1.toRunnerCore :=
  preemptLoop_induction (P := fun t => Timers c t.toRunnerCore) jobId
    (fun _ _ _ ht hget => ht.preempt hget (preemptJob_spec hget)) _ _ h

/-! ### Offers -/

/-- Every logged action was logged by a step from a visited state. -/
theorem Visited.logged_step (h : Visited c s) {a : Action} {t : RunnerCore}
    (ht : (a, t) ∈ s.history) : ∃ s₀ s₁, Visited c s₀ ∧ Logged c s₀ s₁ t a :=
  h.logged_of_moments (P := fun _ => True)
    (G := fun a t => ∃ s₀ s₁, Visited c s₀ ∧ Logged c s₀ s₁ t a) (fun _ _ _ => trivial)
    (fun s s' hs hstep _ _ _ _ hhistory => ⟨s, s', hs, hstep.logged hhistory⟩)
    (fun _ _ => trivial) a t ht

/-- A job that needs two resources finds one of them held by a job that outranks it. -/
def vainPreemption : Scenario :=
  traceScenario
    [traceClass "H" [0] 50 3 [("dma", 1)],
      traceClass "M" [1] 1 2 [("compute", 1), ("dma", 1)],
      traceClass "B" [0, 0] 10 1 [("compute", 1)]] [("dma", 1)]

end Runner

end NpuArc
