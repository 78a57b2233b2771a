import NpuArc.Library.KBest
import NpuArc.Runner.Lineup
import NpuArc.Runner.Preemption
import NpuArc.Runner.ResourceSafety

/-!
# Slots

When preemption is enabled and every class requires one unit of compute, a slot is what a job
needs to run. An offer then has one of three outcomes, and the jobs that are owed a slot, the best
of those present that do not run, become no more by it.
-/

namespace NpuArc

namespace Runner

variable {c : CompiledScenario} {s s' t : RunnerState} {jobId : String}

/-! ### Slots -/

/-- Preemption is enabled, and every class requires one unit of compute and nothing else. -/
structure UnitCompute (sc : Scenario) : Prop where
  preemptive : sc.preemptionEnabled = true
  requirement : ∀ cls ∈ sc.classes, cls.resourceRequirements.entries = [("compute", 1)]

/-- The jobs that run. -/
def served (s : RunnerCore) : Finset String := s.running.keys.toFinset

@[simp] theorem mem_served {s : RunnerCore} : jobId ∈ served s ↔ jobId ∈ s.running.keys :=
  List.mem_toFinset

theorem card_served (s : RunnerCore) : (served s).card = s.running.keys.length :=
  List.toFinset_card_of_nodup s.running.keys_nodup

theorem served_insert {s s' : RunnerCore} {ev : RunnerEvent}
    (h : s'.running = s.running.insert jobId ev) : served s' = insert jobId (served s) := by
  ext a
  rw [Finset.mem_insert, mem_served, mem_served, h, Dict.mem_keys_insert]

theorem served_erase {s s' : RunnerCore} (h : s'.running = s.running.erase jobId) :
    served s' = (served s).erase jobId := by
  ext a
  rw [Finset.mem_erase, mem_served, mem_served, h, Dict.mem_keys_erase]

/-- The number of jobs that can run at once, when each requires one unit of compute. -/
def slots (c : CompiledScenario) : ℕ :=
  ((c.resources.get? "compute").map fun r => r.capacity.toNat).getD 0

/-- The compiler makes a compute resource. -/
theorem compileScenario_compute {sc : Scenario} {plan : Option ℤ}
    (hcompile : compileScenario sc plan = .ok c) : "compute" ∈ c.resources.keys := by
  simp only [compileScenario, bind_eq_ok] at hcompile
  obtain ⟨resources, hresources, queues, _, admission, _, heq⟩ := hcompile
  cases heq
  unfold buildResources at hresources
  obtain ⟨compute, _, hfold⟩ := bind_eq_ok.mp hresources
  refine foldlM_invariant (fun d : Dict String CapacityResource => "compute" ∈ d.keys) hfold ?_ ?_
  · exact Dict.mem_keys_insert.mpr (Or.inl rfl)
  · intro e _ d d' hd hstep
    split_ifs at hstep
    obtain ⟨resource, _, heq⟩ := bind_eq_ok.mp hstep
    cases heq
    exact Dict.mem_keys_insert.mpr (Or.inr hd)

/-- The compiled scenarios in which jobs compete for slots only. -/
structure SlotsOnly (c : CompiledScenario) : Prop where
  wellFormed : c.WellFormed
  unit : UnitCompute c.scenario
  few : FewReleases c.scenario
  compute : "compute" ∈ c.resources.keys

namespace SlotsOnly

theorem requirements_eq (h : SlotsOnly c) (hknown : Known c jobId) :
    (requirements c jobId).entries = [("compute", 1)] :=
  h.unit.requirement _ (classFor_mem h.wellFormed hknown)

theorem nonneg (h : SlotsOnly c) : NonnegRequirements c.scenario := by
  intro cls hcls e he
  rw [h.unit.requirement cls hcls, List.mem_singleton] at he
  rw [he]
  exact zero_le_one

theorem demand_eq (h : SlotsOnly c) (hknown : Known c jobId) : demand c jobId "compute" = 1 := by
  have hget : (requirements c jobId).get? "compute" = some 1 := by
    rw [Dict.get?_eq_some, h.requirements_eq hknown]
    exact List.mem_singleton_self _
  rw [demand, hget, Option.getD_some]

/-- The compute units in use are as many as the running jobs, and no more than the slots. -/
theorem used_eq (h : SlotsOnly c) (hv : Visited c s) :
    usedUnits s.resourceUsed "compute" = s.running.keys.length ∧
      s.running.keys.length ≤ slots c := by
  obtain ⟨resource, hres⟩ := Dict.mem_keys.mp h.compute
  obtain ⟨hused, hcap⟩ := hv.exact h.wellFormed h.nonneg "compute" resource hres
  have hknown := hv.running_known h.wellFormed
  have hdemand : runningDemand c s.toRunnerCore "compute" = s.running.keys.length := by
    rw [runningDemand, List.map_congr_left fun a ha => h.demand_eq (hknown a ha)]
    simp
  have hslots : slots c = resource.capacity.toNat := by
    rw [slots, hres, Option.map_some, Option.getD_some]
  rw [usedUnits, hused, Option.getD_some, hdemand]
  refine ⟨rfl, ?_⟩
  omega

/-- A job fits if and only if a slot is free. -/
theorem canAllocate_iff (h : SlotsOnly c) (hv : Visited c s) (hknown : Known c jobId) :
    canAllocate c jobId s = true ↔ s.running.keys.length < slots c := by
  obtain ⟨resource, hres⟩ := Dict.mem_keys.mp h.compute
  obtain ⟨hused, _⟩ := h.used_eq hv
  have hslots : slots c = resource.capacity.toNat := by
    rw [slots, hres, Option.map_some, Option.getD_some]
  have hpos := resource.capacity_pos
  rw [canAllocate, fits, h.requirements_eq hknown, List.all_cons, List.all_nil, Bool.and_true]
  simp only [hres, hused, decide_eq_true_eq]
  omega

theorem canAllocate_eq_false (h : SlotsOnly c) (hv : Visited c s) (hknown : Known c jobId) :
    canAllocate c jobId s = false ↔ slots c ≤ s.running.keys.length := by
  rw [← Bool.not_eq_true, h.canAllocate_iff hv hknown, not_lt]

end SlotsOnly

/-! ### Offers -/

/-- What an offer does: the job gets a free slot, or all running jobs rank before it, or it takes
the slot of the lowest-ranked running job. -/
inductive Offered (c : CompiledScenario) (jobId : String) (s s' : RunnerState) : Prop
  | granted {ev : RunnerEvent} (hroom : s.running.keys.length < slots c)
      (h : Started c jobId (s.log (.offer jobId)) s' ev)
  | refused (hfull : slots c ≤ s.running.keys.length)
      (hbetter : ∀ a ∈ s.running.keys, jobKey c a < jobKey c jobId)
      (h : s' = s.log (.offer jobId))
  | displaced {victim : String} {ev ev' : RunnerEvent} {t : RunnerState}
      (hfull : slots c ≤ s.running.keys.length) (hrunning : s.running.get? victim = some ev)
      (hworst : ∀ a ∈ s.running.keys, jobKey c a ≤ jobKey c victim)
      (hlt : jobKey c jobId < jobKey c victim)
      (hpre : Preempted c victim (s.log (.offer jobId)) t ev) (h : Started c jobId t s' ev')

/-- The loop preempts no job when it goes through jobs that the offered one does not outrank. -/
theorem preemptLoop_of_none {l : List String} (b : Bool)
    (h : ∀ a ∈ l, ¬jobKey c jobId < jobKey c a) : preemptLoop c jobId l b s = (s, b) := by
  induction l with
  | nil => rfl
  | cons a l ih =>
    rw [List.forall_mem_cons] at h
    unfold preemptLoop
    rw [if_neg h.1, ih h.2, ite_self]

/-- The loop stops as soon as the job fits. -/
theorem preemptLoop_of_fits (l : List String) (b : Bool) (h : canAllocate c jobId s = true) :
    preemptLoop c jobId l b s = (s, b) := by
  cases l with
  | nil => rfl
  | cons a l => rw [preemptLoop, if_pos h]

/-- The running jobs are listed from the lowest rank up. -/
theorem runningByRank_sorted (s : RunnerState) :
    (runningByRank c s).Pairwise fun a b => jobKey c b ≤ jobKey c a := by
  have htotal : Std.Total fun a b => jobKey c b ≤ jobKey c a := ⟨fun a b => le_total _ _⟩
  have htrans : IsTrans String fun a b => jobKey c b ≤ jobKey c a :=
    ⟨fun _ _ _ hab hbc => hbc.trans hab⟩
  exact List.pairwise_insertionSort _ _

/-- Where no slot is free, either no running job is outranked and none is preempted, or the
lowest-ranked one is, and no other. -/
theorem SlotsOnly.preemptFor_cases (h : SlotsOnly c) (hv : Visited c s) (hknown : Known c jobId)
    (hfull : slots c ≤ s.running.keys.length) :
    ((∀ a ∈ s.running.keys, ¬jobKey c jobId < jobKey c a) ∧ preemptFor c jobId s = (s, false)) ∨
      ∃ victim ev, s.running.get? victim = some ev ∧
        (∀ a ∈ s.running.keys, jobKey c a ≤ jobKey c victim) ∧ jobKey c jobId < jobKey c victim ∧
        canAllocate c jobId (preemptJob c victim s) = true ∧
        preemptFor c jobId s = (preemptJob c victim s, true) := by
  have hsorted := runningByRank_sorted (c := c) s
  have hmem : ∀ a, a ∈ runningByRank c s ↔ a ∈ s.running.keys := fun a => mem_runningByRank
  unfold preemptFor
  cases hlist : runningByRank c s with
  | nil =>
    refine Or.inl ⟨fun a ha => ?_, rfl⟩
    rw [← hmem, hlist] at ha
    exact absurd ha List.not_mem_nil
  | cons victim rest =>
    rw [hlist, List.pairwise_cons] at hsorted
    have hworst : ∀ a ∈ s.running.keys, jobKey c a ≤ jobKey c victim := by
      intro a ha
      rw [← hmem, hlist] at ha
      rcases List.mem_cons.mp ha with rfl | ha
      · exact le_rfl
      · exact hsorted.1 a ha
    by_cases hrank : jobKey c jobId < jobKey c victim
    · right
      have hrunning : victim ∈ s.running.keys := by
        rw [← hmem, hlist]
        exact List.mem_cons_self
      obtain ⟨ev, hev⟩ := Dict.mem_keys.mp hrunning
      have hpre := preemptJob_spec (c := c) hev
      have hlength : (preemptJob c victim s).running.keys.length + 1 = s.running.keys.length := by
        rw [← card_served, ← card_served, served_erase hpre.running]
        exact Finset.card_erase_add_one (mem_served.mpr hrunning)
      have hfits : canAllocate c jobId (preemptJob c victim s) = true := by
        rw [h.canAllocate_iff (hv.step (.preempt hev hpre)) hknown]
        have hle := (h.used_eq hv).2
        omega
      refine ⟨victim, ev, hev, hworst, hrank, hfits, ?_⟩
      rw [preemptLoop, if_neg, if_pos hrank, preemptLoop_of_fits rest true hfits]
      rw [h.canAllocate_iff hv hknown]
      exact not_lt.mpr hfull
    · left
      have hnone : ∀ a ∈ s.running.keys, ¬jobKey c jobId < jobKey c a :=
        fun a ha hlt => hrank (hlt.trans_le (hworst a ha))
      refine ⟨hnone, preemptLoop_of_none false fun a ha => hnone a ?_⟩
      rw [← hmem, hlist]
      exact ha

/-- An offer has one of the three outcomes. -/
theorem SlotsOnly.offered (h : SlotsOnly c) (hv : Visited c s) (hst : Startable c jobId s)
    (hoffer : offer c jobId s = .ok s') : Offered c jobId s s' := by
  have hlogged : Visited c (s.log (.offer jobId)) := hv.step (.offer hst)
  have hknown := (hv.places h.wellFormed).known jobId hst.1
  have hfull : canAllocate c jobId (s.log (.offer jobId)) = false →
      slots c ≤ s.running.keys.length := (h.canAllocate_eq_false hlogged hknown).mp
  rcases offer_cases hoffer with ⟨hfits, hstart⟩ | ⟨hfits, hnot, hkept⟩ |
    ⟨hfits, _, hany, _, hstart⟩
  · obtain ⟨ev, hs⟩ := startJob_spec hstart
    exact .granted ((h.canAllocate_iff hlogged hknown).mp hfits) hs
  · rcases h.preemptFor_cases hlogged hknown (hfull hfits) with
      ⟨hnone, heq⟩ | ⟨victim, ev, _, _, _, hroom, heq⟩
    · refine .refused (hfull hfits) (fun a ha => ?_) (hkept.elim id fun h => by rw [h.2, heq])
      refine lt_of_le_of_ne (not_lt.mp (hnone a ha)) fun hkey => ?_
      exact hst.2.1 (jobKey_injective hkey ▸ ha)
    · rw [heq, h.unit.preemptive, hroom] at hnot
      simp at hnot
  · rcases h.preemptFor_cases hlogged hknown (hfull hfits) with
      ⟨_, heq⟩ | ⟨victim, ev, hev, hworst, hlt, _, heq⟩
    · rw [heq] at hany
      cases hany
    · rw [heq] at hstart
      obtain ⟨ev', hs⟩ := startJob_spec hstart
      exact .displaced (hfull hfits) hev hworst hlt (preemptJob_spec hev) hs

/-! ### Jobs that are owed a slot -/

/-- The jobs that are present. -/
def presentJobs (c : CompiledScenario) (s : RunnerCore) : Finset String :=
  (c.releases.map (·.jobId)).toFinset.filter fun jobId => Present c jobId s

/-- The arrival of a present job was recorded. -/
theorem Places.verdict_of_present (hp : Places c s) (h : Present c jobId s.toRunnerCore) :
    s.verdict jobId ≠ none := by
  rcases h with (hq | hpd) | hr | hpre
  · exact (hp.queued _ _ hq).2.2
  · exact (hp.pending _ _ _ hpd).2.2.2.2
  · exact hp.moved jobId (by simp [(hp.running jobId).mp hr])
  · exact hp.moved jobId (by simp [(hp.preempted jobId).mp hpre])

theorem mem_presentJobs (hp : Places c s) :
    jobId ∈ presentJobs c s.toRunnerCore ↔ Present c jobId s.toRunnerCore := by
  rw [presentJobs, Finset.mem_filter, List.mem_toFinset]
  exact and_iff_right_of_imp fun h => hp.known jobId (hp.verdict_of_present h)

theorem served_subset (hp : Places c s) :
    served s.toRunnerCore ⊆ presentJobs c s.toRunnerCore := fun _ ha =>
  (mem_presentJobs hp).mpr (Or.inr (Or.inl (mem_served.mp ha)))

/-- The jobs among the best present ones, as many as there are slots, that do not run. -/
def owedJobs (c : CompiledScenario) (s : RunnerCore) : Finset String :=
  KBest.owed (jobKey c) (slots c) (presentJobs c s) (served s)

/-- A job becomes present, and at most the one that it takes or replaces in its mailbox leaves. -/
theorem present_of_taken {P : Prop} (hp : Places c s) (hp' : Places c s')
    (hself : Present c jobId s'.toRunnerCore)
    (hother : ∀ a, a ≠ jobId → (Present c a s'.toRunnerCore ↔ Present c a s.toRunnerCore ∧
      ¬(P ∧ pendingOf c jobId s.toRunnerCore = some a))) :
    presentJobs c s'.toRunnerCore = insert jobId (presentJobs c s.toRunnerCore) ∨
      ∃ other, other ≠ jobId ∧ other ∉ served s.toRunnerCore ∧ presentJobs c s'.toRunnerCore =
        (insert jobId (presentJobs c s.toRunnerCore)).erase other := by
  by_cases htaken : ∃ other, other ≠ jobId ∧ P ∧ pendingOf c jobId s.toRunnerCore = some other
  · obtain ⟨other, hne, hP, hpd⟩ := htaken
    refine Or.inr ⟨other, hne, fun hm => (hp.pending_idle hpd).1 (mem_served.mp hm), ?_⟩
    ext a
    rw [Finset.mem_erase, Finset.mem_insert, mem_presentJobs hp, mem_presentJobs hp']
    by_cases ha : a = jobId
    · subst ha
      simp [hself, hne.symm]
    · rw [hother a ha, hpd, or_iff_right ha, and_comm, Option.some.injEq, eq_comm]
      simp [hP]
  · left
    ext a
    rw [Finset.mem_insert, mem_presentJobs hp, mem_presentJobs hp']
    by_cases ha : a = jobId
    · simp [ha, hself]
    · rw [hother a ha, or_iff_right ha]
      exact and_iff_left fun hpd => htaken ⟨a, ha, hpd⟩

/-- A start makes the job present, and drops the job that it takes from its mailbox. -/
theorem Started.present {ev : RunnerEvent} (hs : Started c jobId s s' ev) (hp : Places c s)
    (hp' : Places c s') :
    presentJobs c s'.toRunnerCore = insert jobId (presentJobs c s.toRunnerCore) ∨
      ∃ other, other ≠ jobId ∧ other ∉ served s.toRunnerCore ∧ presentJobs c s'.toRunnerCore =
        (insert jobId (presentJobs c s.toRunnerCore)).erase other := by
  refine present_of_taken (P := ¬IsFifo c jobId) hp hp' ?_ fun a ha => ?_
  · refine Or.inr (Or.inl ?_)
    rw [hs.running, Dict.mem_keys_insert]
    exact Or.inl rfl
  · unfold Present
    rw [hs.stored_iff ha hp, hs.running, hs.preempted, Dict.mem_keys_insert, List.mem_filter,
      decide_eq_true_eq, or_iff_right ha, and_iff_left ha]
    constructor
    · rintro (⟨hstored, hnot⟩ | hmoved)
      · exact ⟨Or.inl hstored, hnot⟩
      · refine ⟨Or.inr hmoved, fun hpd => ?_⟩
        obtain ⟨hidle, hkept⟩ := hp.pending_idle hpd.2
        exact hmoved.elim hidle hkept
    · rintro ⟨hstored | hmoved, hnot⟩
      · exact Or.inl ⟨hstored, hnot⟩
      · exact Or.inr hmoved

/-- A preempted job stays present. -/
theorem Preempted.present {ev : RunnerEvent} (hs : Preempted c jobId s s' ev) (hp : Places c s)
    (hp' : Places c s') (hrunning : jobId ∈ s.running.keys) :
    presentJobs c s'.toRunnerCore = presentJobs c s.toRunnerCore := by
  have hstored : ∀ a, a ≠ jobId → (Stored c a s'.toRunnerCore ↔ Stored c a s.toRunnerCore) := by
    intro a ha
    unfold Stored fifoOf pendingOf
    rw [hs.pendingAt, hs.fifoAt]
    refine or_congr ⟨fun hm => (mem_fifoAfterReturn hm).resolve_left fun h => ha h.1, ?_⟩ Iff.rfl
    intro hm
    unfold fifoAfterReturn
    split_ifs
    · exact List.mem_cons_of_mem _ hm
    · exact hm
  ext a
  rw [mem_presentJobs hp, mem_presentJobs hp']
  unfold Present
  rw [hs.running, hs.preempted, Dict.mem_keys_erase, List.mem_insert_iff]
  by_cases ha : a = jobId
  · simp [ha, hrunning]
  · simp [ha, hstored a ha]

/-- A job that got a slot is no longer owed one, and no other job is owed one anew. -/
private theorem Started.card_owed {ev : RunnerEvent} (hs : Started c jobId t s' ev)
    (hp : Places c t) (hp' : Places c s')
    (hsub : KBest.owed (jobKey c) (slots c) (insert jobId (presentJobs c t.toRunnerCore))
      (insert jobId (served t.toRunnerCore)) ⊆ (owedJobs c s.toRunnerCore).erase jobId) :
    (owedJobs c s'.toRunnerCore).card ≤ ((owedJobs c s.toRunnerCore).erase jobId).card := by
  refine le_trans ?_ (Finset.card_le_card hsub)
  unfold owedJobs
  rw [served_insert hs.running]
  rcases hs.present hp hp' with heq | ⟨other, hne, hidle, heq⟩
  · rw [heq]
  · rw [heq]
    refine KBest.card_owed_erase_le jobKey_injective ?_
    exact fun hm => (Finset.mem_insert.mp hm).elim hne hidle

/-- After an offer no more jobs are owed a slot, and one less where the best waiting job was
offered. -/
theorem Offered.card_owed (hc : c.WellFormed) (hv : Visited c s) (hst : Startable c jobId s)
    (h : Offered c jobId s s') (hv' : Visited c s') :
    (owedJobs c s'.toRunnerCore).card ≤ (owedJobs c s.toRunnerCore).card ∧
      (Present c jobId s.toRunnerCore → (∀ a, Present c a s.toRunnerCore → a ∉ s.running.keys →
        jobKey c jobId ≤ jobKey c a) →
        (owedJobs c s'.toRunnerCore).card ≤ (owedJobs c s.toRunnerCore).card - 1) := by
  have hp := hv.places hc
  have hlogged : Visited c (s.log (.offer jobId)) := hv.step (.offer hst)
  have hpl : Places c (s.log (.offer jobId)) := hlogged.places hc
  have hidle : jobId ∉ served s.toRunnerCore := fun hm => hst.2.1 (mem_served.mp hm)
  have hleast : (∀ a, Present c a s.toRunnerCore → a ∉ s.running.keys →
      jobKey c jobId ≤ jobKey c a) → ∀ a ∈ presentJobs c s.toRunnerCore,
      a ∉ served s.toRunnerCore → jobKey c jobId ≤ jobKey c a := fun h a ha hna =>
    h a ((mem_presentJobs hp).mp ha) fun hm => hna (mem_served.mpr hm)
  have hplaced : (owedJobs c s'.toRunnerCore).card ≤ ((owedJobs c s.toRunnerCore).erase jobId).card →
      (owedJobs c s'.toRunnerCore).card ≤ (owedJobs c s.toRunnerCore).card ∧
      (Present c jobId s.toRunnerCore → (∀ a, Present c a s.toRunnerCore → a ∉ s.running.keys →
        jobKey c jobId ≤ jobKey c a) →
        (owedJobs c s'.toRunnerCore).card ≤ (owedJobs c s.toRunnerCore).card - 1) := by
    intro hle
    refine ⟨hle.trans (Finset.card_le_card (Finset.erase_subset _ _)), fun hpresent hmin => ?_⟩
    exact hle.trans
      (KBest.card_erase_owed_le ((mem_presentJobs hp).mpr hpresent) hidle (hleast hmin))
  cases h with
  | granted hroom hs =>
    exact hplaced (hs.card_owed hpl (hv'.places hc) KBest.owed_insert_subset)
  | refused hfull hbetter heq =>
    subst heq
    refine ⟨le_rfl, fun _ hmin => ?_⟩
    have hnone : owedJobs c s.toRunnerCore = ∅ :=
      KBest.owed_of_full (hleast hmin) (fun a ha => hbetter a (mem_served.mp ha)) (served_subset hp)
        (by rw [card_served]; exact hfull)
    change (owedJobs c s.toRunnerCore).card ≤ _
    rw [hnone, Finset.card_empty]
  | @displaced victim ev ev' t hfull hrunning hworst hlt hpre hs =>
    have hvt : Visited c t := hlogged.step (.preempt hrunning hpre)
    have hm : victim ∈ s.running.keys := Dict.mem_keys.mpr ⟨ev, hrunning⟩
    refine hplaced (hs.card_owed (hvt.places hc) (hv'.places hc) ?_)
    rw [hpre.present hpl (hvt.places hc) hm, served_erase hpre.running]
    exact KBest.owed_displace_subset jobKey_injective (mem_served.mpr hm)
      (fun a ha => hworst a (mem_served.mp ha)) hlt hidle (served_subset hpl)
      (by rw [card_served]; exact hfull)

/-! ### Coming and going -/

/-- An arrival makes at most its own job present, and at most the one that it replaces leaves. -/
theorem Received.present {r : JobRelease} (hr : Received c r s s') (hp : Places c s)
    (hp' : Places c s') :
    presentJobs c s'.toRunnerCore = presentJobs c s.toRunnerCore ∨
      presentJobs c s'.toRunnerCore = insert r.jobId (presentJobs c s.toRunnerCore) ∨
      ∃ other, other ≠ r.jobId ∧ other ∉ served s.toRunnerCore ∧ presentJobs c s'.toRunnerCore =
        (insert r.jobId (presentJobs c s.toRunnerCore)).erase other := by
  have hsame : (∀ key, s'.fifoAt key = s.fifoAt key) →
      (∀ key stream, s'.pendingAt key stream = s.pendingAt key stream) →
      presentJobs c s'.toRunnerCore = presentJobs c s.toRunnerCore := by
    intro hfifo hpending
    refine Finset.filter_congr fun a _ => ?_
    unfold Present Stored fifoOf pendingOf
    rw [hfifo, hpending, hr.running, hr.preempted]
  cases hr.fate with
  | rejected hfifo hpending => exact Or.inl (hsame hfifo hpending)
  | dropped _ hfifo hpending => exact Or.inl (hsame hfifo hpending)
  | queued hF _ _ _ hfifo hpending =>
    refine Or.inr (present_of_taken (P := False) hp hp' ?_ fun a ha => ?_)
    · refine Or.inl (Or.inl ?_)
      rw [fifoOf, hfifo, if_pos rfl]
      exact List.mem_append_right _ (List.mem_singleton_self _)
    · unfold Present Stored fifoOf pendingOf
      rw [hfifo, hpending, hr.running, hr.preempted]
      split_ifs <;> simp [ha]
  | posted hF hfifo hpending =>
    refine Or.inr (present_of_taken (P := True) hp hp' ?_ fun a ha => ?_)
    · refine Or.inl (Or.inr ?_)
      rw [pendingOf, hpending, if_pos ⟨rfl, rfl⟩]
    · have hown : pendingOf c a s'.toRunnerCore = some a ↔ pendingOf c a s.toRunnerCore = some a ∧
          pendingOf c r.jobId s.toRunnerCore ≠ some a := by
        rw [pendingOf, hpending]
        split_ifs with hstream
        · rw [Option.some.injEq, eq_comm, pendingOf, pendingOf, hstream.2]
          simp [ha]
        · refine (and_iff_left_of_imp fun _ hpd => hstream ?_).symm
          obtain ⟨_, hkey, hs, _⟩ := hp.pending _ _ _ hpd
          exact ⟨hkey.symm, hs.symm⟩
      unfold Present Stored
      rw [hown, fifoOf, hfifo, hr.running, hr.preempted, true_and]
      constructor
      · rintro ((hm | hpd) | hmoved)
        · exact ⟨Or.inl (Or.inl hm), fun hpd => (hp.pending _ _ _ hpd).1 (hp.queued _ _ hm).1⟩
        · exact ⟨Or.inl (Or.inr hpd.1), hpd.2⟩
        · refine ⟨Or.inr hmoved, fun hpd => ?_⟩
          obtain ⟨hidle, hkept⟩ := hp.pending_idle hpd
          exact hmoved.elim hidle hkept
      · rintro ⟨(hm | hpd) | hmoved, hnot⟩
        · exact Or.inl (Or.inl hm)
        · exact Or.inl (Or.inr ⟨hpd, hnot⟩)
        · exact Or.inr hmoved

/-- After an arrival at most one job more is owed a slot. -/
theorem Received.card_owed {r : JobRelease} (hr : Received c r s s') (hp : Places c s)
    (hp' : Places c s') :
    (owedJobs c s'.toRunnerCore).card ≤ (owedJobs c s.toRunnerCore).card + 1 := by
  have hserved : served s'.toRunnerCore = served s.toRunnerCore := by
    rw [served, hr.running]
    rfl
  unfold owedJobs
  rw [hserved]
  rcases hr.present hp hp' with heq | heq | ⟨other, _, hidle, heq⟩
  · rw [heq]
    exact Nat.le_succ _
  · rw [heq]
    exact KBest.card_owed_insert_le
  · rw [heq]
    exact (KBest.card_owed_erase_le jobKey_injective hidle).trans KBest.card_owed_insert_le

/-- After a completion at most one job more is owed a slot. -/
theorem Retired.card_owed (hs : Retired c jobId s s') (hp : Places c s) (hp' : Places c s')
    (hl : Lined c s) (hrunning : jobId ∈ s.running.keys) :
    (owedJobs c s'.toRunnerCore).card ≤ (owedJobs c s.toRunnerCore).card + 1 := by
  have hpresent : presentJobs c s'.toRunnerCore = (presentJobs c s.toRunnerCore).erase jobId := by
    ext a
    rw [Finset.mem_erase, mem_presentJobs hp, mem_presentJobs hp']
    unfold Present Stored fifoOf pendingOf
    rw [hs.fifoAt, hs.pendingAt, hs.running, hs.preempted, Dict.mem_keys_erase]
    by_cases ha : a = jobId
    · have hqueue : jobId ∉ fifoOf c jobId s.toRunnerCore := fun hm => hl.idle _ jobId hm hrunning
      have hmail : pendingOf c jobId s.toRunnerCore ≠ some jobId :=
        fun hpd => (hp.pending_idle hpd).1 hrunning
      have hkept := hp.not_preempted_of_running hrunning
      subst ha
      simp only [ne_eq, not_true_eq_false, false_and, false_or, iff_false, not_or]
      exact ⟨⟨hqueue, hmail⟩, hkept⟩
    · simp [ha]
  unfold owedJobs
  rw [hpresent, served_erase hs.running]
  exact KBest.card_owed_finish_le jobKey_injective

end Runner

end NpuArc
