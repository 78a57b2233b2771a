import NpuArc.Runner.Runs
import Mathlib.Algebra.Order.BigOperators.Group.List

/-!
# Resource safety

When no class has a negative requirement, the units in use are exactly those of the
running jobs and never exceed the capacity.
-/

namespace NpuArc

namespace Runner

variable {c : CompiledScenario} {s s' : RunnerState}

/-- The units of a resource that a job requires while it runs. -/
def demand (c : CompiledScenario) (jobId name : String) : ℤ :=
  ((requirements c jobId).get? name).getD 0

/-- The units of a resource that the running jobs require. -/
def runningDemand (c : CompiledScenario) (t : RunnerCore) (name : String) : ℤ :=
  (t.running.keys.map fun jobId => demand c jobId name).sum

/-- No class has a negative requirement. -/
def NonnegRequirements (sc : Scenario) : Prop :=
  ∀ cls ∈ sc.classes, ∀ e ∈ cls.resourceRequirements.entries, 0 ≤ e.2

/-! ### Taking and giving units -/

theorem takeUnits_get? (used req : Dict String ℤ) (name : String) :
    (takeUnits used req).get? name = (used.get? name).map (· + (req.get? name).getD 0) := by
  unfold takeUnits
  rw [Dict.get?_foldl_modify (fun u v => u + v)]
  cases req.get? name with
  | none => simp
  | some v => rfl

/-- Units are given back exactly, except that the account never falls below zero. -/
theorem giveUnits_get? (used req : Dict String ℤ) (name : String) :
    (giveUnits used req).get? name = match req.get? name with
      | none => used.get? name
      | some v => (used.get? name).map fun u => max 0 (u - v) := by
  unfold giveUnits
  rw [Dict.get?_foldl_modify (fun u v => max 0 (u - v))]
  cases req.get? name <;> rfl

/-- Requirements fit when each of them names a resource with enough free units. -/
theorem fits_iff {used req : Dict String ℤ} :
    fits c used req = true ↔ ∀ name v, req.get? name = some v →
      ∃ r, c.resources.get? name = some r ∧ v ≤ r.capacity - usedUnits used name := by
  simp only [fits, List.all_eq_true, Prod.forall, ← Dict.get?_eq_some]
  refine forall₃_congr fun name v _ => ?_
  cases c.resources.get? name with
  | none => simp
  | some r => simp

theorem demand_nonneg (hc : c.WellFormed) (hreq : NonnegRequirements c.scenario) {jobId : String}
    (hknown : Known c jobId) (name : String) : 0 ≤ demand c jobId name := by
  unfold demand
  cases hget : (requirements c jobId).get? name with
  | none => simp
  | some v => exact hreq _ (classFor_mem hc hknown) (name, v) (Dict.get?_eq_some.mp hget)

/-! ### The account -/

/-- The account of a resource shows what the running jobs require, within its capacity. -/
def Exact (c : CompiledScenario) (t : RunnerCore) : Prop :=
  ∀ name resource, c.resources.get? name = some resource →
    t.resourceUsed.get? name = some (runningDemand c t name) ∧
      runningDemand c t name ≤ resource.capacity

theorem runningDemand_insert {t t' : RunnerCore} {jobId : String} {ev : RunnerEvent}
    (hidle : jobId ∉ t.running.keys) (hrunning : t'.running = t.running.insert jobId ev)
    (name : String) : runningDemand c t' name = runningDemand c t name + demand c jobId name := by
  unfold runningDemand
  rw [hrunning, Dict.keys_insert_of_not_mem _ hidle]
  simp

theorem runningDemand_erase {t t' : RunnerCore} {jobId : String}
    (hmem : jobId ∈ t.running.keys) (hrunning : t'.running = t.running.erase jobId)
    (name : String) : runningDemand c t' name = runningDemand c t name - demand c jobId name := by
  unfold runningDemand
  have herase := List.sum_map_erase (fun jobId => demand c jobId name) hmem
  rw [t.running.keys_nodup.erase_eq_filter] at herase
  have hkeys : t'.running.keys = t.running.keys.filter (· != jobId) := by
    rw [hrunning, Dict.keys_erase]
    exact List.filter_congr fun a _ => by simp [bne, beq_eq_decide]
  rw [hkeys]
  omega

theorem runningDemand_nonneg (hc : c.WellFormed) (hreq : NonnegRequirements c.scenario)
    {t : RunnerCore} (hknown : ∀ jobId ∈ t.running.keys, Known c jobId) (name : String) :
    0 ≤ runningDemand c t name := by
  refine List.sum_nonneg fun v hv => ?_
  obtain ⟨jobId, hm, rfl⟩ := List.mem_map.mp hv
  exact demand_nonneg hc hreq (hknown jobId hm) name

/-- A running job requires no more than all running jobs together. -/
theorem demand_le_runningDemand (hc : c.WellFormed) (hreq : NonnegRequirements c.scenario)
    {t : RunnerCore} (hknown : ∀ jobId ∈ t.running.keys, Known c jobId) {jobId : String}
    (hm : jobId ∈ t.running.keys) (name : String) :
    demand c jobId name ≤ runningDemand c t name := by
  refine List.single_le_sum (fun v hv => ?_) _ (List.mem_map_of_mem hm)
  obtain ⟨a, ha, rfl⟩ := List.mem_map.mp hv
  exact demand_nonneg hc hreq (hknown a ha) name

theorem Exact.start (h : Exact c s.toRunnerCore) {jobId : String} {ev : RunnerEvent}
    (hidle : jobId ∉ s.running.keys) (hfits : canAllocate c jobId s = true)
    (hs : Started c jobId s s' ev) : Exact c s'.toRunnerCore := by
  intro name resource hres
  obtain ⟨hused, hcap⟩ := h name resource hres
  rw [runningDemand_insert hidle hs.running, hs.used, takeUnits_get?, hused]
  refine ⟨rfl, ?_⟩
  unfold demand
  cases hget : (requirements c jobId).get? name with
  | none => simpa using hcap
  | some v =>
    obtain ⟨r, hr, hle⟩ := fits_iff.mp hfits name v hget
    rw [hres, Option.some.injEq] at hr
    subst hr
    rw [usedUnits, hused, Option.getD_some] at hle
    rw [Option.getD_some]
    omega

/-- Giving back the units of a running job keeps the account exact. -/
theorem Exact.give (hc : c.WellFormed) (hreq : NonnegRequirements c.scenario)
    {t t' : RunnerCore} (hknown : ∀ jobId ∈ t.running.keys, Known c jobId) (h : Exact c t)
    {jobId : String} (hm : jobId ∈ t.running.keys)
    (hrunning : t'.running = t.running.erase jobId)
    (hused : t'.resourceUsed = giveUnits t.resourceUsed (requirements c jobId)) :
    Exact c t' := by
  intro name resource hres
  obtain ⟨hold, hcap⟩ := h name resource hres
  have hle := demand_le_runningDemand hc hreq hknown hm name
  have hnonneg := demand_nonneg hc hreq (hknown jobId hm) name
  rw [runningDemand_erase hm hrunning, hused, giveUnits_get?, hold]
  unfold demand at hle hnonneg ⊢
  cases hget : (requirements c jobId).get? name with
  | none =>
    rw [Option.getD_none]
    exact ⟨by rw [sub_zero], by omega⟩
  | some v =>
    rw [hget, Option.getD_some] at hle hnonneg
    rw [Option.getD_some]
    refine ⟨?_, by omega⟩
    simp only [Option.map_some]
    rw [max_eq_right (by omega)]

/-- Every step keeps the account exact. -/
theorem Exact.step (hc : c.WellFormed) (hreq : NonnegRequirements c.scenario) (hp : Places c s)
    (h : Exact c s.toRunnerCore) (hstep : Step c s s') : Exact c s'.toRunnerCore := by
  have hknown : ∀ jobId ∈ s.running.keys, Known c jobId := by
    intro jobId hm
    exact hp.known jobId (hp.moved jobId (by simp [(hp.running jobId).mp hm]))
  have hkeep : ∀ {t : RunnerState}, t.resourceUsed = s.resourceUsed → t.running = s.running →
      Exact c t.toRunnerCore := by
    intro t hused hrunning
    unfold Exact runningDemand
    rw [hused, hrunning]
    exact h
  cases hstep with
  | dispatch _ _ => exact hkeep rfl rfl
  | arrive _ _ _ hr => exact hkeep hr.used hr.running
  | complete _ _ hm hr =>
    exact Exact.give hc hreq hknown h hm hr.running hr.used
  | stale _ _ _ => exact hkeep rfl rfl
  | offer _ => exact hkeep rfl rfl
  | start hst hfits hs => exact h.start hst.2.1 hfits hs
  | preempt hget hpre =>
    exact Exact.give hc hreq hknown h (Dict.mem_keys.mpr ⟨_, hget⟩) hpre.running hpre.used
  | check _ hch => exact hkeep hch.used hch.running
  | request _ => exact hkeep rfl rfl

theorem exact_init (h : scheduleArrivals c (init c) = .ok s) : Exact c s.toRunnerCore := by
  obtain ⟨k, rfl⟩ := scheduleArrivals_spec h
  intro name resource hres
  have hdemand : runningDemand c { init c with kernel := k }.toRunnerCore name = 0 := rfl
  rw [hdemand]
  refine ⟨?_, resource.capacity_pos.le⟩
  change (c.resources.mapValues fun _ _ => 0).get? name = some 0
  rw [Dict.get?_mapValues, hres, Option.map_some]

theorem Visited.exact (hc : c.WellFormed) (hreq : NonnegRequirements c.scenario)
    (h : Visited c s) : Exact c s.toRunnerCore := by
  induction h with
  | init h => exact exact_init h
  | step hs h ih => exact ih.step hc hreq (hs.places hc) h

theorem Visited.running_known (hc : c.WellFormed) (h : Visited c s) :
    ∀ jobId ∈ s.running.keys, Known c jobId := by
  intro jobId hm
  have hp := h.places hc
  exact hp.known jobId (hp.moved jobId (by simp [(hp.running jobId).mp hm]))

/-- Resource safety: at every moment of every run, the account of each resource is the sum
of the requirements of the running jobs and within the capacity, and giving back the
units of a running job never meets the clamp. -/
theorem resource_safety {sc : Scenario} {plan : Option ℤ} (hv : sc.validate = .ok ())
    (hcompile : compileScenario sc plan = .ok c) (hreq : NonnegRequirements sc)
    (hs : Attained c s) (t : RunnerState) (ht : Moment s t) (name : String)
    (resource : CapacityResource) (hres : c.resources.get? name = some resource) :
    usedUnits t.resourceUsed name =
        (t.running.keys.map fun jobId => ((requirements c jobId).get? name).getD 0).sum ∧
      usedUnits t.resourceUsed name ≤ resource.capacity ∧
      ∀ jobId ∈ t.running.keys,
        0 ≤ usedUnits t.resourceUsed name - ((requirements c jobId).get? name).getD 0 := by
  obtain ⟨rfl, hc⟩ := compileScenario_wellFormed hv hcompile
  have hexact : Exact c t.toRunnerCore ∧ ∀ jobId ∈ t.running.keys, Known c jobId :=
    (hs.visited hc).moments
      (P := fun t => Exact c t.toRunnerCore ∧ ∀ jobId ∈ t.running.keys, Known c jobId)
      (fun s hs => ⟨hs.exact hc hreq, hs.running_known hc⟩) (fun _ _ h => h) t ht
  obtain ⟨hused, hcap⟩ := hexact.1 name resource hres
  have heq : usedUnits t.resourceUsed name = runningDemand c t.toRunnerCore name := by
    rw [usedUnits, hused, Option.getD_some]
  refine ⟨heq, heq ▸ hcap, fun jobId hm => ?_⟩
  have hle := demand_le_runningDemand hc hreq hexact.2 hm name
  rw [heq]
  unfold demand at hle
  omega

/-- The account of the compute units while one job runs and another waits. -/
theorem resource_safety_contended : ∃ c s, Reachable c s ∧ s.running.keys = ["A-000000"] ∧
    usedUnits s.resourceUsed "compute" =
        (s.running.keys.map fun jobId => ((requirements c jobId).get? "compute").getD 0).sum := by
  have htest : testAfter (traceScenario [traceClass "A" [0] 2 1 [("compute", 1)],
      traceClass "B" [0] 2 0 [("compute", 1)]] []) 3 (fun c s =>
        decide (s.running.keys = ["A-000000"]) && (c.resources.get? "compute").isSome) = true := by
    decide +kernel
  obtain ⟨hv, c, s, hcompile, hs, htest⟩ := of_testAfter htest
  simp only [Bool.and_eq_true, decide_eq_true_eq, Option.isSome_iff_exists] at htest
  obtain ⟨hrunning, resource, hresource⟩ := htest
  refine ⟨c, s, hs, hrunning, ?_⟩
  exact (resource_safety hv hcompile (by unfold NonnegRequirements; decide)
    (.between hs) s (Or.inl rfl) "compute" resource hresource).1

end Runner

end NpuArc
