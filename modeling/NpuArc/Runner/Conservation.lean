import NpuArc.Runner.Preemption
import NpuArc.Runner.Presence

/-!
# Work conservation

A dispatch pass offers one job of each FIFO, each pending item, and each preempted job,
and the last pass of an instant is not followed by another one. A waiting job that could
start is left behind when it stands behind a FIFO head that the pass starts, or when the
pass frees units after the job was offered.
-/

namespace NpuArc

namespace Runner

variable {c : CompiledScenario} {s s' : RunnerState} {t : RunnerCore} {jobId : String}

/-- A job waits in a FIFO, as the pending item of a stream, or among the preempted jobs. -/
def Waiting (c : CompiledScenario) (jobId : String) (t : RunnerCore) : Prop :=
  Stored c jobId t ∨ jobId ∈ t.preempted

/-- No waiting job fits beside the units in use. -/
def WorkConserving (c : CompiledScenario) (t : RunnerCore) : Prop :=
  ∀ jobId, Waiting c jobId t → fits c t.resourceUsed (requirements c jobId) = false

/-! ### Units in use -/

/-- No fewer units of any resource are in use. -/
def NoFewer (c : CompiledScenario) (used used' : Dict String ℤ) : Prop :=
  ∀ name ∈ c.resources.keys, usedUnits used name ≤ usedUnits used' name

instance (used used' : Dict String ℤ) : Decidable (NoFewer c used used') :=
  inferInstanceAs (Decidable (∀ name ∈ _, _))

/-- What does not fit beside some units in use does not fit beside more. -/
theorem NoFewer.fits {used used' req : Dict String ℤ} (h : NoFewer c used used')
    (hreq : fits c used req = false) : Runner.fits c used' req = false := by
  rw [← Bool.not_eq_true] at hreq ⊢
  refine fun hfits => hreq (List.all_eq_true.mpr fun e he => ?_)
  have hentry := List.all_eq_true.mp hfits e he
  cases hresource : c.resources.get? e.1 with
  | none => simp [hresource] at hentry
  | some resource =>
    have hle := h e.1 (Dict.mem_keys.mpr ⟨resource, hresource⟩)
    simp only [hresource, decide_eq_true_eq] at hentry ⊢
    omega

/-! ### Victims -/

/-- The first of some jobs, up to the one whose units a job needs in order to fit. -/
def victimsFrom (c : CompiledScenario) (jobId : String) : List String → Dict String ℤ →
    List String
  | [], _ => []
  | victim :: jobs, used =>
    if fits c used (requirements c jobId) then []
    else victim :: victimsFrom c jobId jobs (giveUnits used (requirements c victim))

/-- The jobs that are preempted when a job is offered. -/
def victimsOf (c : CompiledScenario) (jobId : String) (t : RunnerCore) : List String :=
  victimsFrom c jobId (outranked c jobId ⟨t, []⟩) t.resourceUsed

/-- What preempting some jobs does to the units in use and to the waiting jobs. -/
structure PreemptedAll (c : CompiledScenario) (victims : List String) (s s' : RunnerState) :
    Prop where
  used : s'.resourceUsed = unitsWithout c victims s.resourceUsed
  running : s'.running.keys ⊆ s.running.keys
  preempted : ∀ a ∈ s'.preempted, a ∈ s.preempted ∨ a ∈ victims
  fifoAt : ∀ key, ∀ a ∈ s'.fifoAt key, a ∈ s.fifoAt key ∨ a ∈ victims
  pendingAt : ∀ key stream, s'.pendingAt key stream = s.pendingAt key stream
  history : s.history <:+ s'.history

/-- The preemption loop preempts the victims. -/
theorem preemptLoop_spec {l : List String} (hl : l.Nodup)
    (hrunning : ∀ v ∈ l, v ∈ s.running.keys) (b : Bool) :
    PreemptedAll c (victimsFrom c jobId
        (l.filter fun victim => decide (jobKey c jobId < jobKey c victim)) s.resourceUsed)
      s (preemptLoop c jobId l b s).1 := by
  induction l generalizing s b with
  | nil =>
    exact ⟨rfl, List.Subset.refl _, fun _ ha => Or.inl ha, fun _ _ ha => Or.inl ha,
      fun _ _ => rfl, List.suffix_refl _⟩
  | cons victim l ih =>
    rw [List.nodup_cons] at hl
    rw [List.forall_mem_cons] at hrunning
    unfold preemptLoop
    split_ifs with hfits hrank
    · have hnone : victimsFrom c jobId ((victim :: l).filter fun victim =>
          decide (jobKey c jobId < jobKey c victim)) s.resourceUsed = [] := by
        cases (victim :: l).filter fun victim => decide (jobKey c jobId < jobKey c victim) with
        | nil => rfl
        | cons _ _ => exact if_pos hfits
      rw [hnone]
      exact ⟨rfl, List.Subset.refl _, fun _ ha => Or.inl ha, fun _ _ ha => Or.inl ha,
        fun _ _ => rfl, List.suffix_refl _⟩
    · obtain ⟨ev, hev⟩ := Dict.mem_keys.mp hrunning.1
      have hpre := preemptJob_spec (c := c) hev
      have hrest : ∀ v ∈ l, v ∈ (preemptJob c victim s).running.keys := by
        intro v hv
        rw [hpre.running, Dict.mem_keys_erase]
        refine ⟨?_, hrunning.2 v hv⟩
        rintro rfl
        exact hl.1 hv
      have hloop := ih hl.2 hrest true
      have hfits' : ¬fits c s.resourceUsed (requirements c jobId) = true := hfits
      rw [List.filter_cons_of_pos (by simpa using hrank), victimsFrom, if_neg hfits', ← hpre.used]
      refine ⟨?_, ?_, fun a ha => ?_, fun key a ha => ?_, fun key stream => ?_, ?_⟩
      · rw [hloop.used, hpre.used]
        rfl
      · intro a ha
        have ha' := hloop.running ha
        rw [hpre.running, Dict.mem_keys_erase] at ha'
        exact ha'.2
      · rw [List.mem_cons]
        rcases hloop.preempted a ha with ha | ha
        · rw [hpre.preempted] at ha
          exact (List.mem_insert_iff.mp ha).elim (fun h => Or.inr (Or.inl h)) Or.inl
        · exact Or.inr (Or.inr ha)
      · rw [List.mem_cons]
        rcases hloop.fifoAt key a ha with ha | ha
        · rw [hpre.fifoAt] at ha
          exact (mem_fifoAfterReturn ha).elim (fun h => Or.inr (Or.inl h.1)) Or.inl
        · exact Or.inr (Or.inr ha)
      · rw [hloop.pendingAt, hpre.pendingAt]
      · refine List.IsSuffix.trans ?_ hloop.history
        rw [hpre.history]
        exact List.suffix_cons _ _
    · rw [List.filter_cons_of_neg (by simpa using hrank)]
      exact ih hl.2 hrunning.2 b

theorem preemptFor_spec (c : CompiledScenario) (jobId : String) (s : RunnerState) :
    PreemptedAll c (victimsOf c jobId s.toRunnerCore) s (preemptFor c jobId s).1 :=
  preemptLoop_spec (runningByRank_nodup s) (fun _ => mem_runningByRank.mp) false

/-- No job is preempted for a job that fits or outranks none. -/
theorem victimsOf_eq_nil (hfits : fits c t.resourceUsed (requirements c jobId) = false) :
    victimsOf c jobId t = [] ↔ outranked c jobId ⟨t, []⟩ = [] := by
  unfold victimsOf
  cases outranked c jobId ⟨t, []⟩ with
  | nil => simp [victimsFrom]
  | cons v l => simp [victimsFrom, hfits]

/-! ### Passes that leave no job behind -/

/-- The units in use after a job is offered and started. -/
def unitsAfter (c : CompiledScenario) (jobId : String) (victims : List String) (t : RunnerCore) :
    Dict String ℤ :=
  takeUnits (unitsWithout c victims t.resourceUsed) (requirements c jobId)

/-- An offer leaves no startable job behind. A job that fits takes no negative units, and
its class does not fit again while another entry is left in its FIFO. A preempting job
fits without its victims, which held no more than it takes and do not fit otherwise. -/
def LeavesNone (c : CompiledScenario) (jobId : String) (t : RunnerCore) : Prop :=
  if fits c t.resourceUsed (requirements c jobId) then
    NoFewer c t.resourceUsed (unitsAfter c jobId [] t) ∧
      (fifoAfterTake c jobId (fifoKeyOf c jobId) t ≠ [] →
        fits c (unitsAfter c jobId [] t) (requirements c jobId) = false)
  else c.scenario.preemptionEnabled = true → victimsOf c jobId t ≠ [] →
    fits c (unitsWithout c (victimsOf c jobId t) t.resourceUsed) (requirements c jobId) = true ∧
      NoFewer c t.resourceUsed (unitsAfter c jobId (victimsOf c jobId t) t) ∧
        ∀ victim ∈ victimsOf c jobId t,
          fits c t.resourceUsed (requirements c victim) = false

instance : Decidable (LeavesNone c jobId t) := by
  unfold LeavesNone
  infer_instance

/-! ### One pass -/

/-- A job is still to be offered in a pass. -/
def Remaining (L : List Candidate) (seen : List String) (s : RunnerState) (jobId : String) :
    Prop :=
  jobId ∈ L.map (·.jobId) ∧ jobId ∉ seen ∧ jobId ∉ s.running.keys

/-- In the middle of a pass, every waiting job that fits is still to be offered, or waits in
the FIFO of a job that is. -/
structure Covered (c : CompiledScenario) (L : List Candidate) (seen : List String)
    (s : RunnerState) : Prop where
  preempted : ∀ a ∈ s.preempted,
    fits c s.resourceUsed (requirements c a) = false ∨ Remaining L seen s a
  pending : ∀ a, pendingOf c a s.toRunnerCore = some a →
    fits c s.resourceUsed (requirements c a) = false ∨ Remaining L seen s a
  queued : ∀ a ∈ fifoOf c a s.toRunnerCore,
    fits c s.resourceUsed (requirements c a) = false ∨
      ∃ b, classFor c b = classFor c a ∧ Remaining L seen s b

/-- At the end of a pass no waiting job fits. -/
theorem Covered.conserving {seen : List String} (h : Covered c [] seen s) :
    WorkConserving c s.toRunnerCore := by
  have hnone : ∀ a, ¬Remaining [] seen s a := fun a ha => List.not_mem_nil ha.1
  rintro a ((hq | hp) | hpre)
  · exact (h.queued a hq).resolve_right fun ⟨b, _, hb⟩ => hnone b hb
  · exact (h.pending a hp).resolve_right (hnone a)
  · exact (h.preempted a hpre).resolve_right (hnone a)

/-- The state after an offer, seen from the state before: the units in use, the jobs that
may run, and the waiting jobs besides the victims. -/
structure OfferedTo (c : CompiledScenario) (jobId : String) (victims : List String)
    (s s' : RunnerState) : Prop where
  fewer : NoFewer c s.resourceUsed s'.resourceUsed
  running : ∀ a ∈ s'.running.keys, a = jobId ∨ a ∈ s.running.keys
  preempted : ∀ a ∈ s'.preempted, a ∈ s.preempted ∨ a ∈ victims
  fifoAt : ∀ key, ∀ a ∈ s'.fifoAt key, a ∈ s.fifoAt key ∨ a ∈ victims
  pendingAt : ∀ key stream a, s'.pendingAt key stream = some a → s.pendingAt key stream = some a
  victims : ∀ a ∈ victims, fits c s.resourceUsed (requirements c a) = false
  own : jobId ∈ s'.preempted ∨ pendingOf c jobId s'.toRunnerCore = some jobId →
    fits c s'.resourceUsed (requirements c jobId) = false
  behind : ∀ a ∈ fifoOf c a s'.toRunnerCore, classFor c a = classFor c jobId →
    fits c s'.resourceUsed (requirements c a) = false
  history : (.offer jobId, s.toRunnerCore) :: s.history <:+ s'.history

/-- An offer that starts nothing and preempts nothing, to a job that does not fit. -/
private theorem OfferedTo.unchanged
    (hfits : fits c s.resourceUsed (requirements c jobId) = false)
    (h : PreemptedAll c [] (s.log (.offer jobId)) s') : OfferedTo c jobId [] s s' := by
  have hused : s'.resourceUsed = s.resourceUsed := h.used
  refine ⟨?_, fun a ha => Or.inr (h.running ha), h.preempted, h.fifoAt, fun key stream a ha => ?_,
    fun a ha => absurd ha List.not_mem_nil, fun _ => ?_, fun a _ hclass => ?_, h.history⟩
  · rw [hused]
    exact fun _ _ => le_rfl
  · rw [h.pendingAt] at ha
    exact ha
  · rw [hused]
    exact hfits
  · rw [hused, requirements, hclass]
    exact hfits

/-- What was started is neither preempted nor pending any more. -/
private theorem Started.not_waiting (hp : Places c s) {ev : RunnerEvent}
    (hs : Started c jobId s s' ev) :
    ¬(jobId ∈ s'.preempted ∨ pendingOf c jobId s'.toRunnerCore = some jobId) := by
  rintro (hpre | hpend)
  · rw [hs.preempted, List.mem_filter] at hpre
    simp at hpre
  · rw [pendingOf, hs.pendingAt, pendingAfterTake_eq_some] at hpend
    exact hpend.2 ⟨(hp.pending _ _ _ hpend.1).1, rfl, rfl⟩

/-- An offer that starts the job after some preemptions. -/
private theorem OfferedTo.start {u : RunnerState} {victims : List String} {ev : RunnerEvent}
    (hp : Places c u) (hall : PreemptedAll c victims (s.log (.offer jobId)) u)
    (hs : Started c jobId u s' ev)
    (hfewer : NoFewer c s.resourceUsed (unitsAfter c jobId victims s.toRunnerCore))
    (hvictims : ∀ a ∈ victims, fits c s.resourceUsed (requirements c a) = false)
    (hbehind : fifoAfterTake c jobId (fifoKeyOf c jobId) u.toRunnerCore ≠ [] →
      fits c (unitsAfter c jobId victims s.toRunnerCore) (requirements c jobId) = false) :
    OfferedTo c jobId victims s s' := by
  have hused : s'.resourceUsed = unitsAfter c jobId victims s.toRunnerCore := by
    rw [hs.used, hall.used]
    rfl
  refine ⟨?_, fun a ha => ?_, fun a ha => ?_, fun key a ha => ?_, fun key stream a ha => ?_,
    hvictims, fun hwait => absurd hwait (hs.not_waiting hp), fun a ha hclass => ?_, ?_⟩
  · rw [hused]
    exact hfewer
  · rw [hs.running, Dict.mem_keys_insert] at ha
    exact ha.imp id fun ha => hall.running ha
  · rw [hs.preempted] at ha
    exact hall.preempted a (List.mem_of_mem_filter ha)
  · rw [hs.fifoAt] at ha
    exact hall.fifoAt key a (mem_of_mem_fifoAfterTake ha)
  · rw [hs.pendingAt, pendingAfterTake_eq_some, hall.pendingAt] at ha
    exact ha.1
  · have hkey : fifoKeyOf c a = fifoKeyOf c jobId := by rw [fifoKeyOf, hclass, fifoKeyOf]
    rw [fifoOf, hkey, hs.fifoAt] at ha
    rw [hused, requirements, hclass]
    exact hbehind (List.ne_nil_of_mem ha)
  · refine hall.history.trans ?_
    rw [hs.history]
    exact List.suffix_cons _ _

/-- An offer that leaves no job behind. -/
theorem offer_spec (hc : c.WellFormed) (hv : Visited c s) (hst : Startable c jobId s)
    (hnone : LeavesNone c jobId s.toRunnerCore) (h : offer c jobId s = .ok s') :
    ∃ victims, OfferedTo c jobId victims s s' := by
  have hlog : PreemptedAll c [] (s.log (.offer jobId)) (s.log (.offer jobId)) :=
    ⟨rfl, fun _ ha => ha, fun _ ha => Or.inl ha, fun _ _ ha => Or.inl ha, fun _ _ => rfl,
      List.suffix_refl _⟩
  have hv1 : Visited c (s.log (.offer jobId)) := hv.step (.offer hst)
  have hpreempt := preemptFor_spec c jobId (s.log (.offer jobId))
  unfold LeavesNone at hnone
  rcases offer_cases h with ⟨hfits, hstart⟩ | ⟨hfits, hwhy, rfl | ⟨henabled, rfl⟩⟩ |
    ⟨hfits, henabled, hany, _, hstart⟩
  · obtain ⟨ev, hs⟩ := startJob_spec hstart
    rw [if_pos (show fits c s.resourceUsed (requirements c jobId) = true from hfits)] at hnone
    exact ⟨[], .start (hv1.places hc) hlog hs hnone.1 (by simp) hnone.2⟩
  · exact ⟨[], .unchanged hfits hlog⟩
  · -- with a victim the job fits afterwards, and then it is started
    have hfits' : fits c s.resourceUsed (requirements c jobId) = false := hfits
    rw [if_neg (by simp [hfits'])] at hnone
    have hnil : victimsOf c jobId s.toRunnerCore = [] := by
      by_contra hvictims
      have hroom := (hnone henabled hvictims).1
      rcases hwhy with hdisabled | hany | hfull
      · rw [henabled] at hdisabled
        cases hdisabled
      · rw [← Bool.not_eq_true, preemptFor_any_iff] at hany
        exact hany ⟨hfits, fun hnil => hvictims ((victimsOf_eq_nil hfits').mpr hnil)⟩
      · rw [canAllocate, hpreempt.used] at hfull
        rw [← Bool.not_eq_true] at hfull
        exact hfull hroom
    rw [show (s.log (.offer jobId)).toRunnerCore = s.toRunnerCore from rfl, hnil] at hpreempt
    exact ⟨[], .unchanged hfits hpreempt⟩
  · obtain ⟨ev, hs⟩ := startJob_spec hstart
    have hfits' : fits c s.resourceUsed (requirements c jobId) = false := hfits
    rw [if_neg (by simp [hfits'])] at hnone
    have hvictims : victimsOf c jobId s.toRunnerCore ≠ [] := fun hnil =>
      (preemptFor_any_iff.mp hany).2 ((victimsOf_eq_nil hfits').mp hnil)
    obtain ⟨_, hfewer, hkept⟩ := hnone henabled hvictims
    have hsteps := steps_preemptLoop hc jobId []
      (runningByRank c (s.log (.offer jobId))) false hv1 (by simp)
    exact ⟨_, .start ((hv1.steps hsteps.1.steps).places hc) hpreempt hs hfewer hkept
      fun _ => hfewer.fits hfits'⟩

/-- A candidate that is skipped covers no job. -/
private theorem Covered.skip {b : Candidate} {L : List Candidate} {seen : List String}
    (h : Covered c (b :: L) seen s) (hskip : b.jobId ∈ seen ∨ b.jobId ∈ s.running.keys) :
    Covered c L seen s := by
  have hrest : ∀ a, Remaining (b :: L) seen s a → Remaining L seen s a := by
    rintro a ⟨hmem, hseen, hidle⟩
    rw [List.map_cons, List.mem_cons] at hmem
    refine ⟨hmem.resolve_left ?_, hseen, hidle⟩
    rintro rfl
    exact hskip.elim hseen hidle
  exact ⟨fun a ha => (h.preempted a ha).imp id (hrest a),
    fun a ha => (h.pending a ha).imp id (hrest a),
    fun a ha => (h.queued a ha).imp id fun ⟨d, hclass, hd⟩ => ⟨d, hclass, hrest d hd⟩⟩

/-- An offer that leaves no job behind keeps the waiting jobs covered. -/
private theorem Covered.offer {b : Candidate} {L : List Candidate} {seen victims : List String}
    (h : Covered c (b :: L) seen s) (ho : OfferedTo c b.jobId victims s s') :
    Covered c L (b.jobId :: seen) s' := by
  have hrest : ∀ a, a ≠ b.jobId → Remaining (b :: L) seen s a →
      Remaining L (b.jobId :: seen) s' a := by
    rintro a hne ⟨hmem, hseen, hidle⟩
    rw [List.map_cons, List.mem_cons] at hmem
    exact ⟨hmem.resolve_left hne, by simp [hne, hseen],
      fun hr => (ho.running a hr).elim hne hidle⟩
  have hvictim : ∀ a ∈ victims, fits c s'.resourceUsed (requirements c a) = false :=
    fun a ha => ho.fewer.fits (ho.victims a ha)
  refine ⟨fun a ha => ?_, fun a ha => ?_, fun a ha => ?_⟩
  · by_cases hne : a = b.jobId
    · subst hne
      exact Or.inl (ho.own (Or.inl ha))
    · rcases ho.preempted a ha with hold | hnew
      · exact (h.preempted a hold).imp ho.fewer.fits (hrest a hne)
      · exact Or.inl (hvictim a hnew)
  · by_cases hne : a = b.jobId
    · subst hne
      exact Or.inl (ho.own (Or.inr ha))
    · exact (h.pending a (ho.pendingAt _ _ _ ha)).imp ho.fewer.fits (hrest a hne)
  · rcases ho.fifoAt _ a ha with hold | hnew
    · rcases h.queued a hold with hfits | ⟨d, hclass, hd⟩
      · exact Or.inl (ho.fewer.fits hfits)
      · by_cases hne : d = b.jobId
        · subst hne
          exact Or.inl (ho.behind a ha hclass.symm)
        · exact Or.inr ⟨d, hclass, hrest d hne hd⟩
    · exact Or.inl (hvictim a hnew)

/-- A pass whose offers leave no job behind ends with no startable job waiting. -/
private theorem Covered.dispatchLoop (hc : c.WellFormed) (L : List Candidate)
    (seen : List String) (hv : Visited c s) (hL : ∀ a ∈ L.map (·.jobId), Offerable c a s)
    (hcovered : Covered c L seen s) (h : dispatchLoop c L seen s = .ok s')
    (hserve : ∀ (u : RunnerState) (a : String), s.history <:+ u.history →
      (.offer a, u.toRunnerCore) :: u.history <:+ s'.history → LeavesNone c a u.toRunnerCore) :
    WorkConserving c s'.toRunnerCore := by
  induction L generalizing s seen with
  | nil =>
    cases h
    exact hcovered.conserving
  | cons b L ih =>
    rw [List.map_cons, List.forall_mem_cons] at hL
    unfold Runner.dispatchLoop at h
    split_ifs at h with hskip
    · exact ih seen hv hL.2 (hcovered.skip (hskip.imp id Dict.contains_iff.mp)) h hserve
    · rw [bind_eq_ok] at h
      obtain ⟨u, hoffer, hrest⟩ := h
      have hidle : b.jobId ∉ s.running.keys :=
        fun hr => hskip (Or.inr (Dict.contains_iff.mpr hr))
      have hst := hL.1.resolve_left hidle
      obtain ⟨hsteps, huL⟩ := steps_offer hc hv hL.2 hst hoffer
      have hvu : Visited c u := (hv.step (.offer hst)).steps hsteps.steps
      have hlater := (steps_dispatchLoop hc L _ hvu huL hrest).steps.history
      obtain ⟨victims, ho⟩ := offer_spec hc hv hst
        (hserve s b.jobId (List.suffix_refl _) (hsteps.steps.history.trans hlater)) hoffer
      refine ih _ hvu huL (hcovered.offer ho) hrest fun w a hw => hserve w a ?_
      exact ((List.suffix_cons _ _).trans hsteps.steps.history).trans hw

/-! ### Runs -/

/-- What was logged between two states of a run, most recent action first. -/
def loggedSince (s s' : RunnerState) : List (Action × RunnerCore) :=
  s'.history.take (s'.history.length - s.history.length)

/-- A logged offer leaves no startable job behind. -/
def Spares (c : CompiledScenario) : Action → RunnerCore → Prop
  | .offer jobId, t => LeavesNone c jobId t
  | _, _ => True

instance (a : Action) : Decidable (Spares c a t) := by
  unfold Spares
  cases a <;> infer_instance

/-- A dispatch pass leaves no startable job behind. A class whose FIFO head already runs
does not fit when the pass begins, and no offer of the pass leaves a job behind. -/
structure PassServes (c : CompiledScenario) (s s' : RunnerState) : Prop where
  heads : ∀ cls ∈ c.scenario.classes, ∀ jobId ∈ (s.fifoAt (fifoKey cls.id)).head?,
    jobId ∈ s.running.keys → fits c s.resourceUsed (requirements c jobId) = false
  offers : ∀ e ∈ loggedSince s s', Spares c e.1 e.2

instance : Decidable (PassServes c s s') :=
  decidable_of_iff (_ ∧ _) ⟨fun h => ⟨h.1, h.2⟩, fun h => ⟨h.heads, h.offers⟩⟩

/-- The states of a run in which the last pass of every instant leaves no startable job
behind. -/
inductive ServedRun (c : CompiledScenario) : RunnerState → Prop
  | init {s : RunnerState} (h : scheduleArrivals c (init c) = .ok s) : ServedRun c s
  | step {s s' : RunnerState} {ev : RunnerEvent} (hs : ServedRun c s)
      (hev : nextEvent c s = some ev) (h : (host c).processEvent s = .ok s')
      (hserves : InstantDone s' → PassServes c s s') : ServedRun c s'

theorem ServedRun.reachable (h : ServedRun c s) : Reachable c s := by
  induction h with
  | init h => exact .init h
  | step _ hev h _ ih => exact ih.step hev h

theorem mem_loggedSince {u : RunnerState} {e : Action × RunnerCore}
    (hs : s.history <:+ u.history) (he : e :: u.history <:+ s'.history) :
    e ∈ loggedSince s s' := by
  obtain ⟨older, holder⟩ := hs
  obtain ⟨newer, hnewer⟩ := he
  have hsplit : s'.history = (newer ++ e :: older) ++ s.history := by
    rw [← hnewer, ← holder]
    simp
  rw [loggedSince, hsplit, List.length_append, Nat.add_sub_cancel, List.take_left]
  simp

/-- When a pass begins, every waiting job that fits is a candidate, or waits behind one. -/
theorem Covered.init (hc : c.WellFormed) (hp : Places c s)
    (hheads : ∀ cls ∈ c.scenario.classes, ∀ jobId ∈ (s.fifoAt (fifoKey cls.id)).head?,
      jobId ∈ s.running.keys → fits c s.resourceUsed (requirements c jobId) = false) :
    Covered c (sortedCandidates c s) [] s := by
  have hcandidate : ∀ a, a ∈ (collectCandidates s).map (·.jobId) → a ∉ s.running.keys →
      Remaining (sortedCandidates c s) [] s a := fun a ha hidle =>
    ⟨mem_sortedCandidates.mpr ha, List.not_mem_nil, hidle⟩
  refine ⟨fun a ha => Or.inr ?_, fun a ha => Or.inr ?_, fun a ha => ?_⟩
  · have hidle : a ∉ s.running.keys := fun hr => hp.not_preempted_of_running hr ha
    exact hcandidate a ((mem_collectCandidates hp).mpr (Or.inl ⟨ha, hidle⟩)) hidle
  · exact hcandidate a ((mem_collectCandidates hp).mpr (Or.inr (Or.inr ha))) (hp.pending_idle ha).1
  · obtain ⟨head, rest, hlist⟩ := List.exists_cons_of_ne_nil (List.ne_nil_of_mem ha)
    have hmem : head ∈ s.fifoAt (fifoKeyOf c a) := by
      rw [← fifoOf, hlist]
      exact List.mem_cons_self
    obtain ⟨_, hkey, hrecord⟩ := hp.queued _ head hmem
    have hcls := classFor_mem hc (hp.known head hrecord)
    have hclass : classFor c head = classFor c a :=
      class_eq_of_id hc hcls (classFor_mem hc (hp.known a (hp.queued _ a ha).2.2))
        (fifoKey_injective hkey.symm)
    have hhead : (fifoOf c head s.toRunnerCore).head? = some head := by
      rw [fifoOf, ← hkey, ← fifoOf, hlist, List.head?_cons]
    by_cases hr : head ∈ s.running.keys
    · left
      rw [requirements, ← hclass]
      exact hheads _ hcls head hhead hr
    · exact Or.inr ⟨head, hclass,
        hcandidate head ((mem_collectCandidates hp).mpr (Or.inr (Or.inl hhead))) hr⟩

/-- In a run in which the last pass of every instant leaves no startable job behind, no
waiting job fits beside the running ones whenever time is about to advance. -/
theorem work_conserving {sc : Scenario} {plan : Option ℤ} (hv : sc.validate = .ok ())
    (hcompile : compileScenario sc plan = .ok c) (hs : ServedRun c s) (hdone : InstantDone s) :
    WorkConserving c s.toRunnerCore := by
  obtain ⟨rfl, hc⟩ := compileScenario_wellFormed hv hcompile
  cases hs with
  | init h => exact absurd hdone (not_instantDone_init h)
  | @step s₀ _ ev hs hev h hserves =>
    obtain ⟨k, hpop, hpayload, hdispatch⟩ :=
      dispatch_of_instantDone hc hs.reachable hev h hdone
    have hvisited : Visited c { s₀ with kernel := k } :=
      (hs.reachable.visited hc).step (.dispatch hpop hpayload)
    have hp := hvisited.places hc
    obtain ⟨t, hloop, rfl⟩ := dispatch_eq_ok hdispatch
    have hchecked := maybeRecordRecovery_spec (c := c) t
    obtain ⟨hheads, hoffers⟩ := hserves hdone
    have hend : WorkConserving c t.toRunnerCore := by
      refine Covered.dispatchLoop hc _ _ hvisited
        (fun a ha => offerable_of_candidate hp (mem_sortedCandidates.mp ha))
        (Covered.init hc hp hheads) hloop fun u a hu ha => ?_
      have hlast : (Action.offer a, u.toRunnerCore) :: u.history <:+
          (maybeRecordRecovery c t).history := by
        rw [hchecked.history]
        exact ha.trans (List.suffix_cons _ _)
      exact hoffers _ (mem_loggedSince (s := s₀) hu hlast)
    intro a ha
    rw [hchecked.used]
    refine hend a ?_
    unfold Waiting Stored fifoOf pendingOf RunnerCore.fifoAt RunnerCore.pendingAt at ha ⊢
    rw [hchecked.fifoQueues, hchecked.mailboxes, hchecked.preempted] at ha
    exact ha

/-- Two jobs wait for a wide job to complete; then only the first of them is started. -/
def wideJob : Scenario :=
  traceScenario
    [traceClass "W" [0] 5 1 [("compute", 2)], traceClass "A" [1, 2] 10 0 [("compute", 1)]]
    [("compute", 2)]

/-- A unit stays free beside a job that waits for one unit. -/
theorem wideJob_leaves_one : wideJob.validate = .ok () ∧
    ∃ c s, compileScenario wideJob none = .ok c ∧ Reachable c s ∧ InstantDone s ∧
      (nextEvent c s).isSome ∧ ¬WorkConserving c s.toRunnerCore := by
  have htest : testAfter wideJob 9 (fun c s => decide (InstantDone s) && (nextEvent c s).isSome &&
      decide ("A-000001" ∈ fifoOf c "A-000001" s.toRunnerCore) &&
        fits c s.resourceUsed (requirements c "A-000001")) = true := by decide +kernel
  obtain ⟨hv, c, s, hcompile, hs, htest⟩ := of_testAfter htest
  simp only [Bool.and_eq_true, decide_eq_true_eq] at htest
  obtain ⟨⟨⟨hdone, hnext⟩, hqueued⟩, hfits⟩ := htest
  refine ⟨hv, c, s, hcompile, hs, hdone, hnext, fun h => ?_⟩
  rw [h _ (Or.inl (Or.inl hqueued))] at hfits
  cases hfits

/-- The state of a run after a number of events, as long as the last pass of every instant
leaves no startable job behind. -/
def servedAfter (c : CompiledScenario) : ℕ → Option RunnerState
  | 0 => (scheduleArrivals c (Runner.init c)).toOption
  | n + 1 => (servedAfter c n).bind fun s =>
      if (nextEvent c s).isSome then
        ((host c).processEvent s).toOption.filter fun s' =>
          decide (InstantDone s' → PassServes c s s')
      else none

theorem servedAfter_run {n : ℕ} (h : servedAfter c n = some s) : ServedRun c s := by
  induction n generalizing s with
  | zero => exact .init (toOption_eq_some.mp h)
  | succ n ih =>
    obtain ⟨t, ht, hstep⟩ := Option.bind_eq_some_iff.mp h
    split_ifs at hstep with hnext
    obtain ⟨ev, hev⟩ := Option.isSome_iff_exists.mp hnext
    obtain ⟨hstep, hserves⟩ := Option.filter_eq_some_iff.mp hstep
    exact (ih ht).step hev (toOption_eq_some.mp hstep) (of_decide_eq_true hserves)

/-- Compile an accepted scenario, run it for a number of events, and test the state, as long as
every last pass serves. -/
def testServed (sc : Scenario) (n : ℕ) (test : RunnerState → Bool) : Bool :=
  testAfter sc 0 fun c _ => (servedAfter c n).any test

/-- A preempted job waits while its unit is in use. -/
theorem work_conserving_preempted : ∃ c s, ServedRun c s ∧ InstantDone s ∧
    s.preempted = ["L-000000"] ∧ WorkConserving c s.toRunnerCore := by
  have htest : testServed (traceScenario [traceClass "L" [0] 10 0 [("compute", 1)],
      traceClass "H" [1] 5 1 [("compute", 1)]] []) 5 (fun s =>
      decide (InstantDone s) && decide (s.preempted = ["L-000000"])) = true := by decide +kernel
  obtain ⟨hv, c, _, hcompile, _, htest⟩ := of_testAfter htest
  obtain ⟨s, hs, htest⟩ := (Option.any_eq_true _ _).mp htest
  simp only [Bool.and_eq_true, decide_eq_true_eq] at htest
  have hrun := servedAfter_run hs
  exact ⟨c, s, hrun, htest.1, htest.2, work_conserving hv hcompile hrun htest.1⟩

end Runner

end NpuArc
