import NpuArc.Library.ReturnSearch
import NpuArc.Scheduler.Registration

/-!
# The cycle search of a registration

The kernel registers a job after the checks of its arguments and before its search for a
dependency cycle. The search is exact: it is the search for a way back to the new job. A job
that closes a cycle is refused, but it stays in the map of jobs.
-/

namespace NpuArc

namespace Kernel

open Relation

variable {π : Type} {k k' : Kernel π} {spec : JobSpec}

/-! ### The search -/

/-- The dependencies that the search pushes for a job, top first. -/
def pushed (jobs : Dict String JobHandle) (jobId : String) : List String :=
  (jobs.get? jobId).elim [] fun job => job.dependsOn.reverse

/-- The search of the kernel is the search for a way back to the new job. -/
private theorem detectLoop_eq_returns (jobs : Dict String JobHandle) (start : String) (fuel : ℕ)
    (stack visited : List String) : detectLoop jobs start fuel stack visited =
      ReturnSearch.returns (pushed jobs) start fuel stack visited := by
  induction fuel generalizing stack visited with
  | zero => rfl
  | succ fuel ih =>
    cases stack with
    | nil => rfl
    | cons current stack =>
      unfold detectLoop ReturnSearch.returns
      split_ifs
      · rfl
      · exact ih stack visited
      · cases hget : jobs.get? current with
        | none => simpa [pushed, hget] using ih stack (current :: visited)
        | some job => simpa [pushed, hget] using ih (job.dependsOn.reverse ++ stack) (current :: visited)

/-- What the search follows is what a registered job depends on. -/
theorem edge_pushed_iff {a b : String} :
    ReturnSearch.Edge (pushed k.jobs) a b ↔ k.DependsOn a b := by
  unfold ReturnSearch.Edge pushed DependsOn
  cases k.jobs.get? a with
  | none => simp
  | some job => simp

/-- The search finds a cycle exactly when the job lies on one. -/
theorem detectCycle_iff {jobId : String} :
    k.detectCycle jobId = true ↔ TransGen k.DependsOn jobId jobId := by
  have hfuel : (k.jobs.keys.map fun a => (pushed k.jobs a).length).sum =
      (k.jobs.values.map fun j => j.dependsOn.length).sum := by
    have htotal := k.jobs.total_eq fun j => j.dependsOn.length
    rw [Dict.total] at htotal
    rw [htotal]
    congr 1
    refine List.map_congr_left fun a _ => ?_
    unfold pushed
    cases k.jobs.get? a <;> simp
  have hnodes : ∀ a, a ∉ k.jobs.keys → pushed k.jobs a = [] := by
    intro a ha
    rw [pushed, Dict.not_mem_keys.mp ha, Option.elim_none]
  have hedges : ReturnSearch.Edge (pushed k.jobs) = k.DependsOn := by
    funext a b
    exact propext edge_pushed_iff
  rw [detectCycle, detectLoop_eq_returns, ← hedges]
  exact ReturnSearch.returns_iff k.jobs.keys_nodup hnodes (by omega)

/-! ### One registration -/

/-- Register a job with the arguments of a record. -/
def register (k : Kernel π) (spec : JobSpec) : Except Error Unit × Kernel π :=
  k.registerJob spec.jobId spec.workPs spec.releasePs spec.relativeDeadlinePs spec.priorityClass
    spec.dependsOn

/-- The kernel with a new job, before the search. -/
def withJob (k : Kernel π) (spec : JobSpec) : Kernel π :=
  { k with jobs := k.jobs.insert spec.jobId spec.handle }

/-- The error of the search. -/
def cyclicDependency (jobId : String) : Error :=
  .schedulerError ("cyclic dependency detected involving " ++ reprStr jobId)

/-- The arguments pass the checks before the search. -/
structure PassesChecks (k : Kernel π) (spec : JobSpec) : Prop where
  named : spec.jobId ≠ ""
  new : k.jobs.contains spec.jobId = false
  work : ¬spec.workPs < 0
  release : ¬spec.releasePs < k.nowPs
  deadline : ¬spec.relativeDeadlinePs.getD spec.workPs < 0
  other : spec.jobId ∉ spec.dependsOn

private theorem job_ne_cyclic (s t : String) :
    "job " ++ s ≠ "cyclic dependency detected involving " ++ t := by
  intro h
  have hlist := congrArg String.toList h
  simp at hlist

/-- A failed check raises its own error and leaves the kernel as it is. -/
theorem register_of_not_passes (h : ¬k.PassesChecks spec) :
    ∃ e, k.register spec = (.error e, k) ∧ e ≠ cyclicDependency spec.jobId := by
  unfold register registerJob cyclicDependency
  dsimp only
  by_cases hnamed : spec.jobId = ""
  · exact ⟨_, if_pos hnamed, by simp⟩
  by_cases hnew : k.jobs.contains spec.jobId = true
  · rw [if_neg hnamed, if_pos hnew]
    exact ⟨_, rfl, by simp⟩
  rw [if_neg hnamed, if_neg hnew]
  by_cases hwork : spec.workPs < 0
  · rw [if_pos hwork]
    refine ⟨_, rfl, ?_⟩
    simp only [ne_eq, Error.schedulerError.injEq, String.append_assoc]
    exact job_ne_cyclic _ _
  by_cases hrelease : spec.releasePs < k.nowPs
  · rw [if_neg hwork, if_pos hrelease]
    refine ⟨_, rfl, ?_⟩
    simp only [ne_eq, Error.schedulerError.injEq, String.append_assoc]
    exact job_ne_cyclic _ _
  rw [if_neg hwork, if_neg hrelease]
  by_cases hdeadline : spec.relativeDeadlinePs.getD spec.workPs < 0
  · rw [if_pos hdeadline]
    refine ⟨_, rfl, ?_⟩
    simp only [ne_eq, Error.schedulerError.injEq, String.append_assoc]
    exact job_ne_cyclic _ _
  by_cases hself : spec.jobId ∈ spec.dependsOn
  · rw [if_neg hdeadline, if_pos hself]
    refine ⟨_, rfl, ?_⟩
    simp only [ne_eq, Error.schedulerError.injEq, String.append_assoc]
    exact job_ne_cyclic _ _
  exact absurd ⟨hnamed, Bool.not_eq_true _ ▸ hnew, hwork, hrelease, hdeadline, hself⟩ h

/-- A job that closes a cycle is refused and stays registered. -/
theorem register_of_cycle (h : k.PassesChecks spec)
    (hcycle : TransGen (k.withJob spec).DependsOn spec.jobId spec.jobId) :
    k.register spec = (.error (cyclicDependency spec.jobId), k.withJob spec) := by
  unfold register registerJob
  dsimp only
  rw [if_neg h.named, h.new, if_neg Bool.false_ne_true, if_neg h.work, if_neg h.release,
    if_neg h.deadline, if_neg h.other]
  exact if_pos (detectCycle_iff.mpr hcycle)

/-- A job that closes no cycle is registered, unless its event has a negative time. -/
theorem register_of_acyclic (h : k.PassesChecks spec)
    (hacyclic : ¬TransGen (k.withJob spec).DependsOn spec.jobId spec.jobId) :
    (k.register spec).1 = .ok () ∨
      spec.releasePs < 0 ∧ ∃ message, (k.register spec).1 = .error (.valueError message) := by
  have heq := registerJob_eq h.named h.new h.work h.release h.deadline h.other
    (show spec.handle = ⟨_, _, _, _, _, _, spec.priorityClass, _, _⟩ from rfl)
    (show k.withJob spec = _ from rfl) (mt detectCycle_iff.mp hacyclic)
  unfold register
  rw [heq]
  by_cases hneg : spec.releasePs < 0
  · have hpush : ∀ (q : EventQueue (KernelPayload π)) phase payload,
        q.push spec.releasePs phase payload =
          .error (.valueError ("event time_ps must be non-negative, got " ++
            toString spec.releasePs)) := by
      intro q phase payload
      rw [EventQueue.push, if_pos hneg]
    have hdispatch : ∀ k₁ : Kernel π, k₁.scheduleDispatch spec.releasePs = .ok k₁ ∨
        ∃ message, k₁.scheduleDispatch spec.releasePs = .error (.valueError message) := by
      intro k₁
      unfold scheduleDispatch
      rw [hpush]
      split_ifs
      · exact Or.inl rfl
      · exact Or.inl rfl
      · exact Or.inr ⟨_, rfl⟩
    rw [hpush]
    split_ifs
    · rcases hdispatch ((k.withJob spec).makeReady spec.jobId) with hok | ⟨message, herror⟩
      · rw [hok]
        exact Or.inl rfl
      · rw [herror]
        exact Or.inr ⟨hneg, message, rfl⟩
    · exact Or.inl rfl
    · exact Or.inr ⟨hneg, _, rfl⟩
  · left
    have hpush : ∀ (q : EventQueue (KernelPayload π)) phase payload,
        ∃ x, q.push spec.releasePs phase payload = .ok x := by
      intro q phase payload
      rw [EventQueue.push, if_neg hneg]
      exact ⟨_, rfl⟩
    have hdispatch : ∀ k₁ : Kernel π, ∃ k₂, k₁.scheduleDispatch spec.releasePs = .ok k₂ := by
      intro k₁
      unfold scheduleDispatch
      split_ifs
      · exact ⟨_, rfl⟩
      · exact ⟨_, rfl⟩
      · obtain ⟨x, hx⟩ := hpush k₁.queue .dispatch .dispatch
        rw [hx]
        exact ⟨_, rfl⟩
    obtain ⟨k₂, hk₂⟩ := hdispatch ((k.withJob spec).makeReady spec.jobId)
    obtain ⟨x, hx⟩ := hpush (k.withJob spec).queue .release (.release spec.jobId)
    rw [hk₂, hx]
    split_ifs <;> rfl

/-! ### Cycles through a new job -/

/-- A path in the graph with a new job is a path without it, or goes through it. -/
private theorem path_withJob {a b : String}
    (h : TransGen (k.withJob spec).DependsOn a b) : TransGen k.DependsOn a b ∨
      ReflTransGen (k.withJob spec).DependsOn a spec.jobId ∧
        TransGen (k.withJob spec).DependsOn spec.jobId b := by
  have hedge : ∀ x y, (k.withJob spec).DependsOn x y → x ≠ spec.jobId → k.DependsOn x y := by
    rintro x y ⟨job, hget, hmem⟩ hne
    rw [withJob, Dict.get?_insert, if_neg hne] at hget
    exact ⟨job, hget, hmem⟩
  induction h with
  | single hstep =>
    by_cases ha : a = spec.jobId
    · subst ha
      exact Or.inr ⟨.refl, .single hstep⟩
    · exact Or.inl (.single (hedge _ _ hstep ha))
  | @tail b c hpath hstep ih =>
    by_cases hb : b = spec.jobId
    · subst hb
      exact Or.inr ⟨hpath.to_reflTransGen, .single hstep⟩
    · rcases ih with hold | ⟨hto, hfrom⟩
      · exact Or.inl (hold.tail (hedge _ _ hstep hb))
      · exact Or.inr ⟨hto, hfrom.tail hstep⟩

/-- A new job closes a cycle of an acyclic graph exactly when it lies on one. -/
theorem exists_cycle_withJob_iff (hacyclic : ∀ a, ¬TransGen k.DependsOn a a) :
    (∃ a, TransGen (k.withJob spec).DependsOn a a) ↔
      TransGen (k.withJob spec).DependsOn spec.jobId spec.jobId := by
  constructor
  · rintro ⟨a, hcycle⟩
    rcases path_withJob hcycle with hold | ⟨hto, hfrom⟩
    · exact absurd hold (hacyclic a)
    · exact hfrom.trans_left hto
  · exact fun h => ⟨spec.jobId, h⟩

/-- **The cycle search is exact:** a registration raises the error of a cyclic dependency exactly
when its arguments pass the checks before the search and the new job creates a cycle. -/
theorem register_cyclic_iff (k : Kernel π) (hacyclic : ∀ a, ¬TransGen k.DependsOn a a)
    (spec : JobSpec) : (k.register spec).1 = .error (cyclicDependency spec.jobId) ↔
      k.PassesChecks spec ∧ ∃ a, TransGen (k.withJob spec).DependsOn a a := by
  rw [exists_cycle_withJob_iff hacyclic]
  by_cases hpasses : k.PassesChecks spec
  · by_cases hcycle : TransGen (k.withJob spec).DependsOn spec.jobId spec.jobId
    · rw [register_of_cycle hpasses hcycle]
      exact iff_of_true rfl ⟨hpasses, hcycle⟩
    · refine iff_of_false ?_ fun h => hcycle h.2
      intro herror
      rcases register_of_acyclic hpasses hcycle with hok | ⟨-, message, hvalue⟩
      · rw [hok] at herror
        cases herror
      · rw [hvalue] at herror
        cases herror
  · obtain ⟨e, heq, hne⟩ := register_of_not_passes hpasses
    rw [heq]
    refine iff_of_false ?_ fun h => hpasses h.1
    intro herror
    exact hne (Except.error.inj herror)

/-- The theorem at a job that closes a cycle with a forward reference. -/
theorem register_cyclic_iff_sample :
    (((initial true : Kernel Unit).register ⟨"b", 1, 5, none, 0, ["a"]⟩).2.register
        ⟨"a", 1, 5, none, 0, ["b"]⟩).1 = .error (cyclicDependency "a") := by
  set k := ((initial true : Kernel Unit).register ⟨"b", 1, 5, none, 0, ["a"]⟩).2 with hk
  have hjobs : ∀ a b, k.DependsOn a b → a = "b" ∧ b = "a" := by
    rintro a b ⟨job, hget, hmem⟩
    have hmem' := Dict.get?_eq_some.mp hget
    have hentries : k.jobs.entries = [("b", (⟨"b", 1, 5, none, 0, ["a"]⟩ : JobSpec).handle)] := by
      rw [hk]
      decide +kernel
    rw [hentries, List.mem_singleton] at hmem'
    cases hmem'
    exact ⟨rfl, List.mem_singleton.mp hmem⟩
  have hacyclic : ∀ a, ¬TransGen k.DependsOn a a := by
    intro a hcycle
    have hfirst : ∀ b, TransGen k.DependsOn a b → a = "b" ∧ b = "a" := by
      intro b hpath
      induction hpath with
      | single hstep => exact hjobs _ _ hstep
      | tail _ hstep ih => exact ⟨ih.1, (hjobs _ _ hstep).2⟩
    obtain ⟨rfl, heq⟩ := hfirst a hcycle
    exact absurd heq (by decide)
  refine (register_cyclic_iff k hacyclic ⟨"a", 1, 5, none, 0, ["b"]⟩).mpr ⟨?_, "a", ?_⟩
  · constructor <;> decide +kernel
  · refine .tail (.single (b := "b") ⟨(⟨"a", 1, 5, none, 0, ["b"]⟩ : JobSpec).handle, ?_, ?_⟩)
      ⟨(⟨"b", 1, 5, none, 0, ["a"]⟩ : JobSpec).handle, ?_, ?_⟩ <;> decide +kernel

/-- A job that depends on itself is refused with another error. -/
theorem register_depends_on_itself :
    ¬∀ (k : Kernel Unit), (∀ a, ¬TransGen k.DependsOn a a) → ∀ spec : JobSpec,
      (k.register spec).1 = .error (cyclicDependency spec.jobId) ↔
        ∃ a, TransGen (k.withJob spec).DependsOn a a := by
  intro h
  have hempty : ∀ a, ¬TransGen (initial true : Kernel Unit).DependsOn a a := by
    intro a hcycle
    obtain ⟨b, ⟨job, hget, -⟩, -⟩ := TransGen.head'_iff.mp hcycle
    cases hget
  have hcycle : TransGen ((initial true : Kernel Unit).withJob ⟨"a", 1, 0, none, 0, ["a"]⟩).DependsOn
      "a" "a" :=
    .single ⟨(⟨"a", 1, 0, none, 0, ["a"]⟩ : JobSpec).handle, by decide +kernel, by decide +kernel⟩
  have herror := (h _ hempty ⟨"a", 1, 0, none, 0, ["a"]⟩).mpr ⟨"a", hcycle⟩
  revert herror
  decide +kernel

/-! ### Atomicity -/

/-- What a registration that fails should leave as it was. -/
structure Untouched (k k' : Kernel π) : Prop where
  jobs : k'.jobs = k.jobs
  queue : k'.queue = k.queue
  next : k'.nextDispatchTime = k.nextDispatchTime

theorem withJob_jobs_ne (hpasses : k.PassesChecks spec) : (k.withJob spec).jobs ≠ k.jobs := by
  intro heq
  have hnone := Dict.contains_eq_false.mp hpasses.new
  rw [← heq, withJob, Dict.get?_insert, if_pos rfl] at hnone
  cases hnone

/-- As long as time is not negative, a registration leaves nothing behind when it fails exactly
if it does not fail on a cycle. -/
theorem untouched_iff (hnow : 0 ≤ k.nowPs) :
    ((∃ e, (k.register spec).1 = .error e) → Untouched k (k.register spec).2) ↔
      ¬(k.PassesChecks spec ∧ TransGen (k.withJob spec).DependsOn spec.jobId spec.jobId) := by
  by_cases hpasses : k.PassesChecks spec
  · by_cases hcycle : TransGen (k.withJob spec).DependsOn spec.jobId spec.jobId
    · rw [register_of_cycle hpasses hcycle]
      refine iff_of_false ?_ fun h => h ⟨hpasses, hcycle⟩
      intro h
      exact withJob_jobs_ne hpasses (h ⟨_, rfl⟩).jobs
    · refine iff_of_true ?_ fun h => hcycle h.2
      rintro ⟨e, herror⟩
      rcases register_of_acyclic hpasses hcycle with hok | ⟨hneg, -⟩
      · rw [hok] at herror
        cases herror
      · exact absurd (hnow.trans (not_lt.mp hpasses.release)) (not_le.mpr hneg)
  · obtain ⟨e, heq, -⟩ := register_of_not_passes hpasses
    rw [heq]
    exact iff_of_true (fun _ => ⟨rfl, rfl, rfl⟩) fun h => hpasses h.1

end Kernel

end NpuArc
