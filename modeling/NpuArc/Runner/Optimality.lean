import NpuArc.Runner.Slots

/-!
# The best jobs run

Where jobs compete for slots only, an arrival and a completion add at most one to the jobs that are
owed a slot and request one dispatch more, and a dispatch takes one off them. Once all events of an
instant are handled none is owed a slot: the best of the present jobs run.
-/

namespace NpuArc

namespace Runner

variable {c : CompiledScenario} {s s' t : RunnerState} {jobId : String}

/-! ### One dispatch -/

/-- All slots are taken by jobs that rank before a given one. -/
def Outranked (c : CompiledScenario) (jobId : String) (s : RunnerCore) : Prop :=
  slots c ≤ s.running.keys.length ∧ ∀ a ∈ s.running.keys, jobKey c a < jobKey c jobId

/-- A job is still to be offered in a pass. -/
def Unoffered (L : List Candidate) (seen : List String) (jobId : String) : Prop :=
  jobId ∈ L.map (·.jobId) ∧ jobId ∉ seen

/-- The jobs that are still to be offered wait. One from a FIFO has no chance, or is in it and
only jobs that are still to be offered stand before it. -/
structure OnOffer (c : CompiledScenario) (L : List Candidate) (seen : List String)
    (s : RunnerState) : Prop where
  idle : ∀ a, Unoffered L seen a → a ∉ s.running.keys
  turn : ∀ a, Unoffered L seen a → IsFifo c a → Outranked c a s.toRunnerCore ∨
    (a ∈ fifoOf c a s.toRunnerCore ∧ ∀ b ∈ fifoOf c a s.toRunnerCore,
      jobKey c b < jobKey c a → Unoffered L seen b)

theorem Unoffered.of_cons {b : Candidate} {L : List Candidate} {seen : List String}
    (h : Unoffered L (b.jobId :: seen) jobId) : Unoffered (b :: L) seen jobId ∧ jobId ≠ b.jobId :=
  ⟨⟨List.mem_cons_of_mem _ h.1, fun hs => h.2 (List.mem_cons_of_mem _ hs)⟩,
    fun heq => h.2 (heq ▸ List.mem_cons_self)⟩

theorem Unoffered.tail {b : Candidate} {L : List Candidate} {seen : List String}
    (h : Unoffered (b :: L) seen jobId) (hne : jobId ≠ b.jobId) : Unoffered L seen jobId :=
  ⟨(List.mem_cons.mp h.1).resolve_left hne, h.2⟩

theorem Unoffered.offer {b : Candidate} {L : List Candidate} {seen : List String}
    (h : Unoffered (b :: L) seen jobId) (hne : jobId ≠ b.jobId) :
    Unoffered L (b.jobId :: seen) jobId :=
  ⟨(h.tail hne).1, fun hs => (List.mem_cons.mp hs).elim hne h.2⟩

/-- The job offered first is not outranked only if it is the head of its FIFO. -/
theorem OnOffer.head {b : Candidate} {L : List Candidate} {seen : List String}
    (h : OnOffer c (b :: L) seen s) (hl : Lined c s) (hseen : b.jobId ∉ seen)
    (hfirst : ∀ x ∈ L, jobKey c b.jobId ≤ jobKey c x.jobId) (hF : IsFifo c b.jobId) :
    Outranked c b.jobId s.toRunnerCore ∨
      (fifoOf c b.jobId s.toRunnerCore).head? = some b.jobId := by
  refine (h.turn b.jobId ⟨List.mem_cons_self, hseen⟩ hF).imp_right fun hturn => ?_
  refine hl.head_of_least hturn.1 fun a ha hlt => ?_
  rcases List.mem_cons.mp (hturn.2 a ha hlt).1 with rfl | hm
  · exact lt_irrefl _ hlt
  · obtain ⟨x, hx, rfl⟩ := List.mem_map.mp hm
    exact hlt.not_ge (hfirst x hx)

/-- A candidate that runs or was offered before is passed over. -/
theorem OnOffer.skip {b : Candidate} {L : List Candidate} {seen : List String}
    (h : OnOffer c (b :: L) seen s) (hl : Lined c s)
    (hskip : b.jobId ∈ seen ∨ b.jobId ∈ s.running.keys) : OnOffer c L seen s := by
  have hcons : ∀ a, Unoffered L seen a → Unoffered (b :: L) seen a :=
    fun a ha => ⟨List.mem_cons_of_mem _ ha.1, ha.2⟩
  refine ⟨fun a ha => h.idle a (hcons a ha), fun a ha hF => ?_⟩
  refine (h.turn a (hcons a ha) hF).imp_right fun hturn => ⟨hturn.1, fun x hx hlt => ?_⟩
  refine (hturn.2 x hx hlt).tail ?_
  rintro rfl
  exact hskip.elim (hturn.2 _ hx hlt).2 (hl.idle _ _ hx)

/-- A job that is put back ranks before all jobs of its FIFO, so the FIFO of a job that ranks
before it stays as it is. -/
theorem Preempted.fifoAt_eq {ev : RunnerEvent} (hs : Preempted c jobId s s' ev) {key : String}
    (h : ¬(IsFifo c jobId ∧ key = fifoKeyOf c jobId)) : s'.fifoAt key = s.fifoAt key := by
  rw [hs.fifoAt, fifoAfterReturn, if_neg fun hcond => h ⟨hcond.1, hcond.2.1⟩]

/-- An offer in turn keeps the order of the FIFOs. -/
theorem Offered.lined (hc : c.WellFormed) (hv : Visited c s) (hst : Startable c jobId s)
    (h : Offered c jobId s s') (hl : Lined c s)
    (hhead : IsFifo c jobId → Outranked c jobId s.toRunnerCore ∨
      (fifoOf c jobId s.toRunnerCore).head? = some jobId) : Lined c s' := by
  have hlogged : Visited c (s.log (.offer jobId)) := hv.step (.offer hst)
  have hll : Lined c (s.log (.offer jobId)) :=
    hl.of_frame (fun _ => rfl) (List.Subset.refl _) rfl
  cases h with
  | granted hroom hs =>
    refine hll.start (hlogged.places hc) (fun hF => ?_) hs
    exact (hhead hF).resolve_left fun hout => hroom.not_ge hout.1
  | refused _ _ heq =>
    rw [heq]
    exact hll
  | displaced _ hrunning hworst hlt hpre hs =>
    have hm := Dict.mem_keys.mpr ⟨_, hrunning⟩
    have hvt := hlogged.step (.preempt hrunning hpre)
    refine (hll.preempt hc (hlogged.places hc) hrunning hworst hpre).start (hvt.places hc)
      (fun hF => ?_) hs
    have hfirst := (hhead hF).resolve_left fun hout => (hout.2 _ hm).not_gt hlt
    rw [fifoOf, hpre.fifoAt_eq]
    · exact hfirst
    · rintro ⟨hFv, hkey⟩
      have hin := List.mem_of_mem_head? hfirst
      rw [fifoOf, hkey] at hin
      exact (hl.ahead _ hm hFv _ hin).not_gt hlt

private theorem Started.turn {b : Candidate} {L : List Candidate} {seen : List String}
    {ev : RunnerEvent} {a : String} (hs : Started c b.jobId t s' ev) (hl' : Lined c s')
    (hne : a ≠ b.jobId) (hfifo : t.fifoAt (fifoKeyOf c a) = s.fifoAt (fifoKeyOf c a))
    (ha : a ∈ fifoOf c a s.toRunnerCore)
    (hbefore : ∀ x ∈ fifoOf c a s.toRunnerCore, jobKey c x < jobKey c a →
      Unoffered (b :: L) seen x) :
    a ∈ fifoOf c a s'.toRunnerCore ∧ ∀ x ∈ fifoOf c a s'.toRunnerCore,
      jobKey c x < jobKey c a → Unoffered L (b.jobId :: seen) x := by
  constructor
  · rw [fifoOf, hs.fifoAt]
    refine mem_fifoAfterTake_of_ne ?_ hne
    rw [hfifo]
    exact ha
  · intro x hx hlt
    have hidle := hl'.idle _ x hx
    rw [hs.running, Dict.mem_keys_insert, not_or] at hidle
    rw [fifoOf, hs.fifoAt] at hx
    have hx := mem_of_mem_fifoAfterTake hx
    rw [hfifo] at hx
    exact (hbefore x hx hlt).offer hidle.1

/-- After an offer the remaining candidates are on offer. -/
theorem Offered.onOffer {b : Candidate} {L : List Candidate} {seen : List String}
    (h : Offered c b.jobId s s') (hO : OnOffer c (b :: L) seen s) (hl : Lined c s)
    (hl' : Lined c s') (hidle : b.jobId ∉ s.running.keys)
    (hfirst : ∀ x ∈ L, jobKey c b.jobId ≤ jobKey c x.jobId) :
    OnOffer c L (b.jobId :: seen) s' := by
  have hle : ∀ a, Unoffered L (b.jobId :: seen) a → jobKey c b.jobId ≤ jobKey c a := by
    intro a ha
    obtain ⟨x, hx, rfl⟩ := List.mem_map.mp ha.1
    exact hfirst x hx
  cases h with
  | granted hroom hs =>
    refine ⟨fun a ha => ?_, fun a ha hF => ?_⟩
    · rw [hs.running, Dict.mem_keys_insert, not_or]
      exact ⟨ha.of_cons.2, hO.idle a ha.of_cons.1⟩
    · right
      obtain ⟨hin, hbefore⟩ := (hO.turn a ha.of_cons.1 hF).resolve_left
        fun hout => hroom.not_ge hout.1
      exact hs.turn hl' ha.of_cons.2 rfl hin hbefore
  | refused hfull hbetter heq =>
    subst heq
    refine ⟨fun a ha => hO.idle a ha.of_cons.1, fun a ha _ => Or.inl ⟨hfull, fun x hx => ?_⟩⟩
    exact (hbetter x hx).trans_le (hle a ha)
  | @displaced victim ev ev' t hfull hrunning hworst hlt hpre hs =>
    have hm : victim ∈ s.running.keys := Dict.mem_keys.mpr ⟨ev, hrunning⟩
    have hkeys : ∀ a, a ∈ s'.running.keys ↔ a = b.jobId ∨ a ≠ victim ∧ a ∈ s.running.keys := by
      intro a
      rw [hs.running, Dict.mem_keys_insert, hpre.running, Dict.mem_keys_erase]
      rfl
    -- the new set of running jobs outranks what the victim outranked
    have hout : ∀ a, jobKey c victim < jobKey c a → Outranked c a s'.toRunnerCore := by
      refine fun a ha => ⟨?_, fun x hx => ?_⟩
      · have hwithout : served t.toRunnerCore = (served s.toRunnerCore).erase victim :=
          served_erase hpre.running
        have hnew : b.jobId ∉ (served s.toRunnerCore).erase victim := fun hb =>
          hidle (mem_served.mp (Finset.mem_of_mem_erase hb))
        rw [← card_served, served_insert hs.running, hwithout, Finset.card_insert_of_notMem hnew,
          Finset.card_erase_add_one (mem_served.mpr hm), card_served]
        exact hfull
      · rcases (hkeys x).mp hx with rfl | ⟨_, hx⟩
        · exact hlt.trans ha
        · exact (hworst x hx).trans_lt ha
    refine ⟨fun a ha hr => ?_, fun a ha hF => ?_⟩
    · rcases (hkeys a).mp hr with heq | ⟨_, hr⟩
      · exact ha.of_cons.2 heq
      · exact hO.idle a ha.of_cons.1 hr
    · rcases hO.turn a ha.of_cons.1 hF with hold | ⟨hin, hbefore⟩
      · exact Or.inl (hout a (hold.2 victim hm))
      · by_cases hsame : IsFifo c victim ∧ fifoKeyOf c a = fifoKeyOf c victim
        · rw [fifoOf, hsame.2] at hin
          exact Or.inl (hout a (hl.ahead victim hm hsame.1 a hin))
        · exact Or.inr (hs.turn hl' ha.of_cons.2 (hpre.fifoAt_eq hsame) hin hbefore)

/-- What an offer in a pass keeps. -/
structure OfferKeeps (c : CompiledScenario) (b : Candidate) (L : List Candidate)
    (seen : List String) (s s' : RunnerState) : Prop where
  visited : Visited c s'
  offerable : ∀ a ∈ L.map (·.jobId), Offerable c a s'
  lined : Lined c s'
  onOffer : OnOffer c L (b.jobId :: seen) s'
  owed : (owedJobs c s'.toRunnerCore).card ≤ (owedJobs c s.toRunnerCore).card
  best : Present c b.jobId s.toRunnerCore → (∀ a, Present c a s.toRunnerCore →
    a ∉ s.running.keys → jobKey c b.jobId ≤ jobKey c a) →
    (owedJobs c s'.toRunnerCore).card ≤ (owedJobs c s.toRunnerCore).card - 1

theorem SlotsOnly.offerKeeps (h : SlotsOnly c) {b : Candidate} {L : List Candidate}
    {seen : List String} (hv : Visited c s) (hL : ∀ a ∈ (b :: L).map (·.jobId), Offerable c a s)
    (hsorted : (b :: L).Pairwise fun x y => jobKey c x.jobId ≤ jobKey c y.jobId)
    (hl : Lined c s) (hO : OnOffer c (b :: L) seen s) (hseen : b.jobId ∉ seen)
    (hidle : b.jobId ∉ s.running.keys) (hoffer : offer c b.jobId s = .ok s') :
    OfferKeeps c b L seen s s' := by
  have hc := h.wellFormed
  rw [List.map_cons, List.forall_mem_cons] at hL
  have hfirst := (List.pairwise_cons.mp hsorted).1
  have hst : Startable c b.jobId s := hL.1.resolve_left hidle
  obtain ⟨hsteps, hkeep⟩ := steps_offer hc hv hL.2 hst hoffer
  have hv' : Visited c s' := (hv.step (.offer hst)).steps hsteps.steps
  have ho := h.offered hv hst hoffer
  have hl' := ho.lined hc hv hst hl fun hF => hO.head hl hseen hfirst hF
  obtain ⟨howed, hbest⟩ := ho.card_owed hc hv hst hv'
  exact ⟨hv', hkeep, hl', ho.onOffer hO hl hl' hidle hfirst, howed, hbest⟩

/-- A pass keeps the order of the FIFOs, and after it no more jobs are owed a slot. -/
theorem SlotsOnly.dispatchLoop (h : SlotsOnly c) (L : List Candidate) (seen : List String)
    (hv : Visited c s) (hL : ∀ a ∈ L.map (·.jobId), Offerable c a s)
    (hsorted : L.Pairwise fun x y => jobKey c x.jobId ≤ jobKey c y.jobId) (hl : Lined c s)
    (hO : OnOffer c L seen s) (hrun : Runner.dispatchLoop c L seen s = .ok s') :
    Lined c s' ∧ (owedJobs c s'.toRunnerCore).card ≤ (owedJobs c s.toRunnerCore).card := by
  induction L generalizing s seen with
  | nil =>
    cases hrun
    exact ⟨hl, le_rfl⟩
  | cons b L ih =>
    have hrest := (List.pairwise_cons.mp hsorted).2
    unfold Runner.dispatchLoop at hrun
    split_ifs at hrun with hskip
    · have hskip := hskip.imp_right Dict.contains_iff.mp
      exact ih seen hv (fun a ha => hL a (List.mem_cons_of_mem _ ha)) hrest hl
        (hO.skip hl hskip) hrun
    · rw [not_or, Dict.contains_iff] at hskip
      obtain ⟨u, hoffer, hrun⟩ := bind_eq_ok.mp hrun
      have hkeeps := h.offerKeeps hv hL hsorted hl hO hskip.1 hskip.2 hoffer
      obtain ⟨hl', hle⟩ :=
        ih _ hkeeps.visited hkeeps.offerable hrest hkeeps.lined hkeeps.onOffer hrun
      exact ⟨hl', hle.trans hkeeps.owed⟩

/-- A pass offers its candidates in policy order. -/
theorem sortedCandidates_sorted (s : RunnerState) :
    (sortedCandidates c s).Pairwise fun x y => jobKey c x.jobId ≤ jobKey c y.jobId := by
  have htotal : Std.Total fun x y : Candidate => jobKey c x.jobId ≤ jobKey c y.jobId :=
    ⟨fun _ _ => le_total _ _⟩
  have htrans : IsTrans Candidate fun x y => jobKey c x.jobId ≤ jobKey c y.jobId :=
    ⟨fun _ _ _ hxy hyz => hxy.trans hyz⟩
  exact List.pairwise_insertionSort _ _

/-- A candidate of a pass waits. -/
theorem Lined.candidate (hl : Lined c s) (hp : Places c s) {a : String}
    (ha : a ∈ (sortedCandidates c s).map (·.jobId)) :
    Present c a s.toRunnerCore ∧ a ∉ s.running.keys := by
  rw [mem_sortedCandidates, mem_collectCandidates hp] at ha
  rcases ha with ⟨hpre, hidle⟩ | hhead | hpd
  · exact ⟨Or.inr (Or.inr hpre), hidle⟩
  · have hm := List.mem_of_mem_head? hhead
    exact ⟨Or.inl (Or.inl hm), hl.idle _ a hm⟩
  · exact ⟨Or.inl (Or.inr hpd), (hp.pending_idle hpd).1⟩

/-- No waiting job ranks before all candidates of a pass. -/
theorem Lined.candidate_le (hl : Lined c s) (hp : Places c s) {a : String}
    (ha : Present c a s.toRunnerCore) (hidle : a ∉ s.running.keys) :
    ∃ b ∈ (sortedCandidates c s).map (·.jobId), jobKey c b ≤ jobKey c a := by
  have hmem : ∀ b, b ∈ (sortedCandidates c s).map (·.jobId) ↔
      (b ∈ s.preempted ∧ b ∉ s.running.keys) ∨
        (fifoOf c b s.toRunnerCore).head? = some b ∨ pendingOf c b s.toRunnerCore = some b :=
    fun b => by rw [mem_sortedCandidates, mem_collectCandidates hp]
  rcases ha with (hm | hpd) | hr | hpre
  · obtain ⟨b, hb⟩ : ∃ b, (fifoOf c a s.toRunnerCore).head? = some b :=
      Option.isSome_iff_exists.mp (List.isSome_head?.mpr (List.ne_nil_of_mem hm))
    have hbm := List.mem_of_mem_head? hb
    refine ⟨b, (hmem b).mpr (Or.inr (Or.inl ?_)), ?_⟩
    · rw [fifoOf, ← (hp.queued _ b hbm).2.1]
      exact hb
    · by_cases hab : a = b
      · rw [hab]
      · exact (hl.head_lt hb hm hab).le
  · exact ⟨a, (hmem a).mpr (Or.inr (Or.inr hpd)), le_rfl⟩
  · exact absurd hr hidle
  · exact ⟨a, (hmem a).mpr (Or.inl ⟨hpre, hidle⟩), le_rfl⟩

/-- At the start of a pass its candidates are on offer. -/
theorem Lined.onOffer (hl : Lined c s) (hp : Places c s) :
    OnOffer c (sortedCandidates c s) [] s := by
  refine ⟨fun a ha => (hl.candidate hp ha.1).2, fun a ha hF => Or.inr ?_⟩
  have hcand := ha.1
  rw [mem_sortedCandidates, mem_collectCandidates hp] at hcand
  rcases hcand with ⟨hpre, _⟩ | hhead | hpd
  · have hm := hl.kept a hpre hF
    refine ⟨hm, fun b hb hlt => ⟨?_, List.not_mem_nil⟩⟩
    -- what stands before a preempted job was preempted too
    rw [mem_sortedCandidates, mem_collectCandidates hp]
    refine Or.inl ⟨?_, hl.idle _ b hb⟩
    by_contra hnot
    exact (hl.resumed _ a hm b hb hpre hnot).not_gt hlt
  · refine ⟨List.mem_of_mem_head? hhead, fun b hb hlt => ?_⟩
    by_cases hba : b = a
    · rw [hba] at hlt
      exact absurd hlt (lt_irrefl _)
    · exact absurd hlt (hl.head_lt hhead hb hba).not_gt
  · exact absurd hF (hp.pending _ _ _ hpd).1

theorem owedJobs_check (hch : Checked s s') :
    owedJobs c s'.toRunnerCore = owedJobs c s.toRunnerCore := by
  have hpresent : presentJobs c s'.toRunnerCore = presentJobs c s.toRunnerCore := by
    refine Finset.filter_congr fun a _ => ?_
    unfold Present Stored fifoOf pendingOf RunnerCore.fifoAt RunnerCore.pendingAt
    rw [hch.fifoQueues, hch.mailboxes, hch.running, hch.preempted]
  rw [owedJobs, hpresent, served, hch.running]
  rfl

/-- A dispatch keeps the order of the FIFOs, and after it one job less is owed a slot. -/
theorem SlotsOnly.dispatch (h : SlotsOnly c) (hv : Visited c s) (hl : Lined c s)
    (hrun : Runner.dispatch c s = .ok s') : Lined c s' ∧
      (owedJobs c s'.toRunnerCore).card ≤ (owedJobs c s.toRunnerCore).card - 1 := by
  have hp := hv.places h.wellFormed
  obtain ⟨t, hloop, rfl⟩ := dispatch_eq_ok hrun
  have hch := maybeRecordRecovery_spec (c := c) t
  rw [owedJobs_check hch]
  suffices hlt : Lined c t ∧
      (owedJobs c t.toRunnerCore).card ≤ (owedJobs c s.toRunnerCore).card - 1 from
    ⟨hlt.1.check hch, hlt.2⟩
  have hL : ∀ a ∈ (sortedCandidates c s).map (·.jobId), Offerable c a s :=
    fun a ha => offerable_of_candidate hp (mem_sortedCandidates.mp ha)
  have hO := hl.onOffer hp
  have hsorted := sortedCandidates_sorted (c := c) s
  have hcand := fun a => hl.candidate hp (a := a)
  have hle := fun a => hl.candidate_le hp (a := a)
  revert hloop hL hO hsorted hcand hle
  cases sortedCandidates c s with
  | nil =>
    intro hloop _ _ _ _ hle
    cases hloop
    refine ⟨hl, ?_⟩
    have hnone : owedJobs c s.toRunnerCore = ∅ := by
      refine KBest.owed_of_subset fun a ha => mem_served.mpr ?_
      by_contra hidle
      obtain ⟨b, hb, _⟩ := hle a ((mem_presentJobs hp).mp ha) hidle
      exact absurd hb List.not_mem_nil
    rw [hnone, Finset.card_empty]
  | cons b L =>
    intro hloop hL hO hsorted hcand hle
    obtain ⟨hpresent, hidle⟩ := hcand b.jobId List.mem_cons_self
    unfold Runner.dispatchLoop at hloop
    rw [if_neg (by simp [Dict.contains_iff, hidle])] at hloop
    obtain ⟨u, hoffer, hloop⟩ := bind_eq_ok.mp hloop
    have hkeeps := h.offerKeeps hv hL hsorted hl hO List.not_mem_nil hidle hoffer
    obtain ⟨hl', hrest⟩ := h.dispatchLoop L _ hkeeps.visited hkeeps.offerable
      (List.pairwise_cons.mp hsorted).2 hkeeps.lined hkeeps.onOffer hloop
    refine ⟨hl', hrest.trans (hkeeps.best hpresent fun a ha hna => ?_)⟩
    -- the first candidate ranks before all waiting jobs
    obtain ⟨x, hx, hxa⟩ := hle a ha hna
    rcases List.mem_cons.mp hx with rfl | hx
    · exact hxa
    · obtain ⟨y, hy, rfl⟩ := List.mem_map.mp hx
      exact ((List.pairwise_cons.mp hsorted).1 y hy).trans hxa

/-! ### Events -/

/-- A dispatch is requested for the present instant. -/
def Due (s : RunnerCore) (e : RunnerEvent) : Prop :=
  s.kernel.queue.Live e ∧ e.timePs = s.now ∧ e.payload = .client .dispatch

/-- As many dispatches are due as jobs are owed a slot, but for some number of jobs. -/
def Settling (c : CompiledScenario) (extra : ℕ) (s : RunnerState) : Prop :=
  ∃ due : Finset RunnerEvent, (∀ e ∈ due, Due s.toRunnerCore e) ∧
    (owedJobs c s.toRunnerCore).card ≤ due.card + extra

/-- Once all events of an instant are handled no job is owed a slot. -/
theorem Settling.owed_eq_empty (h : Settling c 0 s) (hdone : InstantDone s) :
    owedJobs c s.toRunnerCore = ∅ := by
  obtain ⟨due, hdue, hle⟩ := h
  have hnone : due = ∅ := by
    refine Finset.eq_empty_of_forall_notMem fun e he => ?_
    obtain ⟨hlive, htime, _⟩ := hdue e he
    exact (hdone e hlive).ne htime.symm
  rw [hnone, Finset.card_empty, add_zero, Nat.le_zero] at hle
  exact Finset.card_eq_zero.mp hle

/-- A step that keeps the requests and adds to the jobs that are owed a slot. -/
theorem Settling.of_frame {m n : ℕ} (h : Settling c m s)
    (hdue : ∀ e, Due s.toRunnerCore e → Due s'.toRunnerCore e)
    (howed : (owedJobs c s'.toRunnerCore).card ≤ (owedJobs c s.toRunnerCore).card + n) :
    Settling c (m + n) s' := by
  obtain ⟨due, hall, hle⟩ := h
  exact ⟨due, fun e he => hdue e (hall e he), by omega⟩

theorem Settling.check {n : ℕ} (h : Settling c n s) (hch : Checked s s') : Settling c n s' := by
  refine h.of_frame (n := 0) (fun e he => ?_) ?_
  · rwa [Due, RunnerCore.now, hch.kernel]
  · rw [owedJobs_check hch, add_zero]

/-- A request for a dispatch makes up for one job. -/
theorem Settling.request {n : ℕ} (ht : Timers c s.toRunnerCore) (h : Settling c (n + 1) s)
    (hrequest : scheduleDispatch s = .ok s') : Settling c n s' := by
  obtain ⟨_, rfl⟩ := scheduleDispatch_eq_ok.mp hrequest
  obtain ⟨due, hall, hle⟩ := h
  have hlive : ∀ e, (s.kernel.queue.insert s.kernel.nowPs .dispatch (.client .dispatch)).Live e ↔
      e = ⟨s.kernel.nowPs, .dispatch, s.kernel.queue.seq, .client .dispatch⟩ ∨
        s.kernel.queue.Live e := fun _ => EventQueue.insert_live ht.cancelled
  have hnew : ⟨s.kernel.nowPs, .dispatch, s.kernel.queue.seq, .client .dispatch⟩ ∉ due := by
    intro hm
    exact lt_irrefl _ (s.kernel.queue.fresh _ (hall _ hm).1.1)
  refine ⟨insert ⟨s.kernel.nowPs, .dispatch, s.kernel.queue.seq, .client .dispatch⟩ due, ?_, ?_⟩
  · intro e he
    rcases Finset.mem_insert.mp he with rfl | he
    · exact ⟨(hlive _).mpr (Or.inl rfl), rfl, rfl⟩
    · obtain ⟨hl, htime, hpayload⟩ := hall e he
      exact ⟨(hlive e).mpr (Or.inr hl), htime, hpayload⟩
  · rw [Finset.card_insert_of_notMem hnew]
    change (owedJobs c s.toRunnerCore).card ≤ _
    omega

/-- A dispatch that is due at a popped event is due after it, but for the event itself. -/
theorem Due.pop {ev e : RunnerEvent} {k : Kernel RunnerPayload} (h : Due s.toRunnerCore e)
    (hadv : Advanced s.toRunnerCore ev k) (hne : e ≠ ev) :
    Due { s with kernel := k }.toRunnerCore e := by
  obtain ⟨hlive, htime, hpayload⟩ := h
  have hle := timePs_le_of_eventKey_le (hadv.least e hlive)
  have hfuture := hadv.future
  have hnow : k.nowPs = s.kernel.nowPs := by
    rw [hadv.now]
    rw [RunnerCore.now] at htime
    omega
  refine ⟨(hadv.queue e).mpr ⟨hlive, hne⟩, ?_, hpayload⟩
  rw [htime, RunnerCore.now, RunnerCore.now, hnow]

/-- Popping an event that is no dispatch keeps all requests. -/
theorem Settling.pop {ev : RunnerEvent} {k : Kernel RunnerPayload} {n : ℕ} (h : Settling c n s)
    (hadv : Advanced s.toRunnerCore ev k) (hother : ev.payload ≠ .client .dispatch) :
    Settling c n { s with kernel := k } := by
  refine h.of_frame (n := 0) (fun e he => he.pop hadv ?_) le_rfl
  rintro rfl
  exact hother he.2.2

/-- Popping a dispatch takes away one request. -/
theorem Settling.pop_dispatch {ev : RunnerEvent} {k : Kernel RunnerPayload} {n : ℕ}
    (h : Settling c n s) (hadv : Advanced s.toRunnerCore ev k) :
    Settling c (n + 1) { s with kernel := k } := by
  obtain ⟨due, hall, hle⟩ := h
  refine ⟨due.erase ev, fun e he => ?_, ?_⟩
  · obtain ⟨hne, he⟩ := Finset.mem_erase.mp he
    exact (hall e he).pop hadv hne
  · have herase := Finset.pred_card_le_card_erase (s := due) (a := ev)
    change (owedJobs c s.toRunnerCore).card ≤ _
    omega

/-- The FIFOs are in order, and enough dispatches are due. -/
structure Orderly (c : CompiledScenario) (s : RunnerState) : Prop where
  lined : Lined c s
  settling : Settling c 0 s

/-- A dispatch makes up for one job. -/
theorem SlotsOnly.orderly_dispatch (h : SlotsOnly c) (hv : Visited c s) (hl : Lined c s)
    (hset : Settling c 1 s) (hrun : Runner.dispatch c s = .ok s') : Orderly c s' := by
  obtain ⟨hl', howed⟩ := h.dispatch hv hl hrun
  obtain ⟨t, hsteps, rfl⟩ := steps_dispatch h.wellFormed hv hrun
  obtain ⟨hnow, hlive⟩ := hsteps.kernel h.wellFormed hv
  refine ⟨hl', ?_⟩
  obtain ⟨due, hall, hle⟩ := hset
  refine ⟨due, fun e he => ?_, by omega⟩
  obtain ⟨hl, htime, hpayload⟩ := hall e he
  have hkernel := (maybeRecordRecovery_spec (c := c) t).kernel
  rw [Due, RunnerCore.now, hkernel]
  exact ⟨(hlive e (by simp [hpayload])).mpr hl, htime.trans hnow.symm, hpayload⟩

/-- Handling an event keeps the FIFOs in order and enough dispatches due. -/
theorem SlotsOnly.orderly_step (h : SlotsOnly c) (hs : Reachable c s) (ho : Orderly c s)
    {ev : RunnerEvent} (hev : nextEvent c s = some ev)
    (hrun : (host c).processEvent s = .ok s') : Orderly c s' := by
  have hc := h.wellFormed
  have hv := hs.visited hc
  have hp := hv.places hc
  have ht := hv.timers hc
  obtain ⟨k, hpop, hinvoke, _⟩ := processEvent_eq_ok hev hrun
  have hadv := ht.advanced hpop
  obtain ⟨p, hpayload, hr⟩ := ht.payload hadv.live
  rw [hpayload] at hinvoke
  cases p with
  | dispatch =>
    have hdispatch : Runner.dispatch c { s with kernel := k } = .ok s' := hinvoke
    have hvk : Visited c { s with kernel := k } := hv.step (.dispatch hpop hpayload)
    exact h.orderly_dispatch hvk (ho.lined.setKernel k) (ho.settling.pop_dispatch hadv) hdispatch
  | arrival r =>
    have hmem := hr r rfl
    obtain ⟨u, v, hrec, hrequest, hdispatch⟩ := arrival_cases hc (hp.setKernel k) hmem hinvoke
    have hvu : Visited c u := hv.step (.arrive hpop hpayload hmem hrec)
    have hlu : Lined c u := (ho.lined.setKernel k).arrive hc (hp.setKernel k) hmem hrec
      fun a ha hclass => jobKey_lt_of_arrived hc h.few hv hpop hpayload hrec.fresh ha hclass
    have hsu : Settling c 1 u := by
      refine (ho.settling.pop hadv (by simp [hpayload])).of_frame (fun e he => ?_)
        (hrec.card_owed (hp.setKernel k) (hvu.places hc))
      rwa [Due, RunnerCore.now, hrec.kernel]
    have hvc : Visited c (maybeRecordRecovery c u) := hvu.step step_check
    have hsv : Settling c 0 v :=
      (hsu.check (maybeRecordRecovery_spec u)).request (hvc.timers hc) hrequest
    obtain ⟨due, hall, hle⟩ := hsv
    have hlv : Lined c v := by
      obtain ⟨_, rfl⟩ := scheduleDispatch_eq_ok.mp hrequest
      exact (hlu.check (maybeRecordRecovery_spec u)).setKernel _
    exact h.orderly_dispatch (hvc.step (step_request hrequest)) hlv
      ⟨due, hall, hle.trans (Nat.le_succ _)⟩ hdispatch
  | complete jobId =>
    have hget := ht.timer_unique hadv.live hpayload
    have hm : jobId ∈ s.running.keys := Dict.mem_keys.mpr ⟨ev, hget⟩
    have hinvoke : onComplete c jobId { s with kernel := k } = .ok s' := hinvoke
    rw [onComplete, if_neg (by simp [Dict.contains_iff.mpr hm])] at hinvoke
    have hret := retire_spec (c := c) jobId { s with kernel := k }
    have hvr : Visited c (retire c jobId { s with kernel := k }) :=
      hv.step (.complete hpop hpayload hm hret)
    have hlr : Lined c (retire c jobId { s with kernel := k }) := by
      refine (ho.lined.setKernel k).of_frame hret.fifoAt (fun a ha => ?_) hret.preempted
      rw [hret.running, Dict.mem_keys_erase] at ha
      exact ha.2
    have hsr : Settling c 1 (retire c jobId { s with kernel := k }) := by
      refine (ho.settling.pop hadv (by simp [hpayload])).of_frame (fun e he => ?_)
        (hret.card_owed (hp.setKernel k) (hvr.places hc) (ho.lined.setKernel k) hm)
      obtain ⟨hqueue, hnow⟩ := hret.kernel_eq ht hpop hpayload
      rw [Due, hqueue, hnow]
      exact he
    have hvc := hvr.step (step_check (c := c))
    refine ⟨?_, (hsr.check (maybeRecordRecovery_spec _)).request (hvc.timers hc) hinvoke⟩
    obtain ⟨_, rfl⟩ := scheduleDispatch_eq_ok.mp hinvoke
    exact (hlr.check (maybeRecordRecovery_spec _)).setKernel _

theorem orderly_init (hc : c.WellFormed) (h : scheduleArrivals c (init c) = .ok s) :
    Orderly c s := by
  have hp := places_init hc h
  refine ⟨lined_init hc h, ∅, by simp, ?_⟩
  have hnone : owedJobs c s.toRunnerCore = ∅ := by
    refine KBest.owed_of_subset fun a ha => ?_
    have hverdict := hp.verdict_of_present ((mem_presentJobs hp).mp ha)
    obtain ⟨k, rfl⟩ := scheduleArrivals_spec h
    simp [RunnerCore.verdict, MetricsCollector.verdict, init] at hverdict
  rw [hnone]
  exact Nat.zero_le _

theorem SlotsOnly.orderly (h : SlotsOnly c) (hs : Reachable c s) : Orderly c s := by
  induction hs with
  | init hinit => exact orderly_init h.wellFormed hinit
  | step hs hev hrun ih => exact h.orderly_step hs ih hev hrun

/-- Once all events of an instant are handled, the running jobs are the best of the present ones,
as many as there are slots. -/
theorem best_jobs_run {sc : Scenario} {plan : Option ℤ} (hv : sc.validate = .ok ())
    (hcompile : compileScenario sc plan = .ok c) (hunit : UnitCompute sc) (hfew : FewReleases sc)
    (hs : Reachable c s) (hdone : InstantDone s) :
    s.running.keys.length = min (slots c) (presentJobs c s.toRunnerCore).card ∧
      (∀ a ∈ s.running.keys, Present c a s.toRunnerCore) ∧
      ∀ a ∈ s.running.keys, ∀ b, Present c b s.toRunnerCore → b ∉ s.running.keys →
        jobKey c a < jobKey c b := by
  obtain ⟨rfl, hc⟩ := compileScenario_wellFormed hv hcompile
  have h : SlotsOnly c := ⟨hc, hunit, hfew, compileScenario_compute hcompile⟩
  have hvisited := hs.visited hc
  have hp := hvisited.places hc
  have hnone := (h.orderly hs).settling.owed_eq_empty hdone
  have hplaces : (served s.toRunnerCore).card ≤ slots c := by
    rw [card_served]
    exact (h.used_eq hvisited).2
  have hbest := KBest.served_eq_best jobKey_injective (served_subset hp) hplaces hnone
  refine ⟨?_, fun a ha => Or.inr (Or.inl ha), fun a ha b hb hidle => ?_⟩
  · rw [← card_served, hbest]
    exact KBest.card_best jobKey_injective _ _
  · rw [← mem_served, hbest] at ha hidle
    exact KBest.lt_of_mem_best jobKey_injective ha ((mem_presentJobs hp).mpr hb) hidle

/-- Two slots, a mailbox job that was preempted while another one is pending, and a preempted job
in front of a queued one. -/
def contended : Scenario :=
  traceScenario
    [{ traceClass "M" [0, 2] 10 0 [("compute", 1)] with queuePolicy := .mailboxLatest },
      traceClass "B" [0, 0, 1] 4 1 [("compute", 1)], traceClass "H" [1] 2 2 [("compute", 1)]]
    [("compute", 2)]

/-- Two of the six present jobs run, and they are the best. -/
theorem best_jobs_run_contended : ∃ c s, Reachable c s ∧ InstantDone s ∧
    s.running.keys = ["B-000000", "H-000000"] ∧
    s.running.keys.length = min (slots c) (presentJobs c s.toRunnerCore).card ∧
    ∀ a ∈ s.running.keys, ∀ b, Present c b s.toRunnerCore → b ∉ s.running.keys →
      jobKey c a < jobKey c b := by
  have htest : testAfter contended 13 (fun c s =>
      decide (InstantDone s) && decide (s.running.keys = ["B-000000", "H-000000"])) = true := by
    decide +kernel
  obtain ⟨hv, c, s, hcompile, hs, htest⟩ := of_testAfter htest
  rw [Bool.and_eq_true, decide_eq_true_eq, decide_eq_true_eq] at htest
  obtain ⟨hdone, hrunning⟩ := htest
  have hunit : UnitCompute contended := ⟨rfl, by decide⟩
  have hfew : FewReleases contended := by
    intro cls hcls
    rw [contended, traceScenario] at hcls
    simp only [List.mem_cons, List.not_mem_nil, or_false] at hcls
    rcases hcls with rfl | rfl | rfl <;> decide
  obtain ⟨hlength, _, hlt⟩ := best_jobs_run hv hcompile hunit hfew hs hdone
  exact ⟨c, s, hs, hdone, hrunning, hlength, hlt⟩

end Runner

end NpuArc
