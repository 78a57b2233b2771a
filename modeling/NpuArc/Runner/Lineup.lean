import NpuArc.Runner.Presence

/-!
# Jobs in line

Arrivals are handled in the order of the releases, so a job that arrives ranks behind all jobs of
its class that arrived before it. The FIFO of a class is therefore in policy order, and stays so
when a running job that ranks before all waiting ones of its class is put back at the head.
-/

namespace NpuArc

namespace Runner

variable {c : CompiledScenario} {s s' : RunnerState} {jobId : String}

/-! ### The order of releases -/

/-- No class has more than a million releases, so job ids are ordered by index. -/
def FewReleases (sc : Scenario) : Prop :=
  ∀ cls ∈ sc.classes, cls.arrival.releaseTimesPs.length ≤ 10 ^ 6

/-- The deadline of a release is relative to its arrival, by the same amount for its class. -/
theorem deadline_of_release (hc : c.WellFormed) {r : JobRelease} (hr : r ∈ c.releases) :
    r.deadlinePs = r.arrivalPs + (classFor c r.jobId).relativeDeadlinePs := by
  obtain ⟨cls, hcls, idx, hidx, seq, hrel⟩ := hc.release r hr
  have hclass : classFor c r.jobId = cls :=
    getClass_classFor hc hr (by rw [hrel]; exact hc.getClass cls hcls)
  rw [hclass, hrel]
  rfl

/-- Of two releases of one class, the one that is listed first ranks first. -/
theorem jobKey_lt_of_listed (hc : c.WellFormed) (hfew : FewReleases c.scenario) {i j : ℕ}
    {r r' : JobRelease} (hlt : i < j) (hi : c.releases[i]? = some r) (hj : c.releases[j]? = some r')
    (hclass : classFor c r.jobId = classFor c r'.jobId) : jobKey c r.jobId < jobKey c r'.jobId := by
  obtain ⟨hi', rfl⟩ := List.getElem?_eq_some_iff.mp hi
  obtain ⟨hj', rfl⟩ := List.getElem?_eq_some_iff.mp hj
  have hr := List.getElem_mem hi'
  have hr' := List.getElem_mem hj'
  obtain ⟨hle, hties⟩ := List.pairwise_iff_getElem.mp hc.ordered i j hi' hj' hlt
  unfold jobKey
  rw [releaseOf_jobId hc hr, releaseOf_jobId hc hr', deadline_of_release hc hr,
    deadline_of_release hc hr', hclass]
  refine policyKey_lt_of_release ?_
  rcases hle.lt_or_eq with hlt | heq
  · exact Or.inl hlt
  · have hids : c.releases[i].classId = c.releases[j].classId := by
      rw [← (classOf_mem hc hr).2.1, ← (classOf_mem hc hr').2.1]
      unfold classFor at hclass
      rw [releaseOf_jobId hc hr, releaseOf_jobId hc hr'] at hclass
      rw [hclass]
    obtain ⟨n, n', hn, hid, hid', cls, hcls, hlen⟩ := (hties heq).2.2 hids
    refine Or.inr ⟨heq, ?_⟩
    rw [hid, hid']
    exact makeJobId_lt hn (hlen.trans_le (hfew cls hcls))

/-! ### Arrivals in turn -/

/-- The arrivals that are still to come are queued in the order of the releases, and those that
were handled come before them. -/
structure InTurn (c : CompiledScenario) (s : RunnerState) : Prop where
  waiting : ∀ i r, c.releases[i]? = some r → s.verdict r.jobId = none →
    s.kernel.queue.Live (arrivalEvent i r)
  event : ∀ e r, s.kernel.queue.Live e → e.payload = .client (.arrival r) →
    ∃ i, c.releases[i]? = some r ∧ e = arrivalEvent i r
  first : ∀ (i j : ℕ) (r r' : JobRelease), i < j → c.releases[i]? = some r → c.releases[j]? = some r' →
    s.verdict r'.jobId ≠ none → s.verdict r.jobId ≠ none

/-- What records no arrival and leaves the arrival events alone keeps the turns. -/
theorem InTurn.of_frame (h : InTurn c s) (hverdict : ∀ a, s'.verdict a = none ↔ s.verdict a = none)
    (hlive : ∀ (e : RunnerEvent) r, e.payload = .client (.arrival r) →
      (s'.kernel.queue.Live e ↔ s.kernel.queue.Live e)) : InTurn c s' where
  waiting i r hr hv := (hlive _ r rfl).mpr (h.waiting i r hr ((hverdict _).mp hv))
  event e r he hpayload := h.event e r ((hlive e r hpayload).mp he) hpayload
  first i j r r' hlt hi hj hv hnone :=
    h.first i j r r' hlt hi hj (fun h => hv ((hverdict _).mpr h)) ((hverdict _).mp hnone)

/-- The release with a given index is listed there only. -/
theorem index_unique (hc : c.WellFormed) {i j : ℕ} {r : JobRelease} (hi : c.releases[i]? = some r)
    (hj : c.releases[j]? = some r) : i = j := by
  obtain ⟨hi', hri⟩ := List.getElem?_eq_some_iff.mp hi
  obtain ⟨hj', hrj⟩ := List.getElem?_eq_some_iff.mp hj
  exact (List.Nodup.getElem_inj_iff (List.Nodup.of_map _ hc.ids_nodup)).mp (hri.trans hrj.symm)

/-- The release whose arrival is handled is listed before all that are still to come. -/
theorem InTurn.popped_first (hc : c.WellFormed) (h : InTurn c s) {ev : RunnerEvent}
    {k : Kernel RunnerPayload} (hadv : Advanced s.toRunnerCore ev k) {i j : ℕ} {r r' : JobRelease}
    (hpayload : ev.payload = .client (.arrival r')) (hi : c.releases[i]? = some r)
    (hj : c.releases[j]? = some r') (hlt : i < j) : s.verdict r.jobId ≠ none := by
  intro hnone
  obtain ⟨j', hj', hev⟩ := h.event ev r' hadv.live hpayload
  obtain rfl := index_unique hc hj hj'
  have hle := hadv.least _ (h.waiting i r hi hnone)
  obtain ⟨hin, rfl⟩ := List.getElem?_eq_some_iff.mp hi
  obtain ⟨hjn, rfl⟩ := List.getElem?_eq_some_iff.mp hj
  have hord := (List.pairwise_iff_getElem.mp hc.ordered i j hin hjn hlt).1
  rw [hev, eventKey_le_iff] at hle
  simp only [arrivalEvent, lt_irrefl, false_or, true_and] at hle
  omega

private theorem InTurn.arrive (hc : c.WellFormed) (h : InTurn c s) {ev : RunnerEvent}
    {k : Kernel RunnerPayload} (hadv : Advanced s.toRunnerCore ev k) {r : JobRelease}
    (hpayload : ev.payload = .client (.arrival r))
    (hr : Received c r { s with kernel := k } s') : InTurn c s' := by
  have hv : ∀ a, s'.verdict a ≠ none ↔ a = r.jobId ∨ s.verdict a ≠ none := hr.verdict_ne_none
  obtain ⟨j, hj, hev⟩ := h.event ev r hadv.live hpayload
  have hlive : ∀ e, s'.kernel.queue.Live e ↔ s.kernel.queue.Live e ∧ e ≠ ev := by
    rw [hr.kernel]
    exact hadv.queue
  refine ⟨fun i a hi hnone => ?_, fun e a he => h.event e a ((hlive e).mp he).1, ?_⟩
  · have hold : ¬(a.jobId = r.jobId ∨ s.verdict a.jobId ≠ none) := fun h => (hv _).mpr h hnone
    rw [not_or, not_not] at hold
    refine (hlive _).mpr ⟨h.waiting i a hi hold.2, fun heq => ?_⟩
    rw [hev] at heq
    simp only [arrivalEvent, Event.mk.injEq, KernelPayload.client.injEq,
      RunnerPayload.arrival.injEq] at heq
    exact hold.1 (by rw [heq.2.2.2])
  · intro i j' a b hlt hi hj' hb
    rw [hv] at hb ⊢
    rcases hb with hb | hb
    · have heq : b = r :=
        List.inj_on_of_nodup_map hc.ids_nodup (List.mem_of_getElem? hj') (List.mem_of_getElem? hj) hb
      rw [heq] at hj'
      exact Or.inr (h.popped_first hc hadv hpayload hi hj' hlt)
    · exact Or.inr (h.first i j' a b hlt hi hj' hb)

/-- Retiring a job takes no time and touches no event. -/
theorem Retired.kernel_eq (ht : Timers c s.toRunnerCore) {ev : RunnerEvent}
    {k : Kernel RunnerPayload} (hpop : Popped c s.toRunnerCore ev k)
    (hpayload : ev.payload = .client (.complete jobId))
    (hr : Retired c jobId { s with kernel := k } s') :
    s'.kernel.queue = k.queue ∧ s'.now = k.nowPs := by
  have hadv := ht.advanced hpop
  obtain ⟨_, _, job, hjob, _, hstate⟩ :=
    (ht.pop hpop).timer _ _ (ht.timer_unique hadv.live hpayload)
  obtain ⟨jobs, completed, hkernel, _⟩ :=
    suppressComplete_spec hadv.quiet hjob (hstate.imp id And.left)
  have hkernel' : s'.kernel = suppressComplete jobId k := hr.kernel
  rw [RunnerCore.now, hkernel', hkernel]
  exact ⟨rfl, rfl⟩

/-- Every step keeps the turns. -/
theorem InTurn.step (hc : c.WellFormed) (hv : Visited c s) (h : InTurn c s)
    (hstep : Step c s s') : InTurn c s' := by
  have ht := hv.timers hc
  have hpopped : ∀ {ev : RunnerEvent} {k : Kernel RunnerPayload}, Popped c s.toRunnerCore ev k →
      (∀ r, ev.payload ≠ .client (.arrival r)) → ∀ (e : RunnerEvent) r,
      e.payload = .client (.arrival r) → (k.queue.Live e ↔ s.kernel.queue.Live e) := by
    intro ev k hpop hother e r he
    rw [(ht.advanced hpop).queue, and_iff_left]
    rintro rfl
    exact hother r he
  have hpass : PassStep c s s' → (∀ a, s'.verdict a = none ↔ s.verdict a = none) → InTurn c s' := by
    intro hstep hverdict
    refine h.of_frame hverdict fun e r he => ?_
    exact (PassSteps.kernel hc hv (.single hstep)).2 e (by simp [he])
  cases hstep with
  | dispatch hpop hpayload => exact h.of_frame (fun _ => Iff.rfl) (hpopped hpop (by simp [hpayload]))
  | stale hpop hpayload _ => exact h.of_frame (fun _ => Iff.rfl) (hpopped hpop (by simp [hpayload]))
  | arrive hpop hpayload _ hr => exact h.arrive hc (ht.advanced hpop) hpayload hr
  | complete hpop hpayload _ hr =>
    refine h.of_frame (fun a => ?_) fun e r he => ?_
    · rw [hr.verdict]
      split_ifs
      · exact Option.map_eq_none_iff
      · exact Iff.rfl
    · rw [(hr.kernel_eq ht hpop hpayload).1]
      exact hpopped hpop (by simp [hpayload]) e r he
  | offer hst => exact hpass (.offer hst) fun _ => Iff.rfl
  | start hst hfits hs => exact hpass (.start hst hfits hs) fun a => by rw [hs.verdict]
  | preempt hrunning hs => exact hpass (.preempt hrunning hs) fun a => by rw [hs.verdict]
  | check _ hch =>
    refine h.of_frame (fun a => by rw [hch.verdict]) fun e r _ => ?_
    rw [hch.kernel]
  | request _ =>
    refine h.of_frame (fun _ => Iff.rfl) fun e r he => ?_
    rw [EventQueue.insert_live ht.cancelled, or_iff_right]
    rintro rfl
    cases he

theorem inTurn_init (h : scheduleArrivals c (init c) = .ok s) : InTurn c s := by
  obtain ⟨k, rfl, _, _, _, _, hlive⟩ := scheduleArrivals_kernel h
  refine ⟨fun i r hr _ => (hlive _).mpr (Or.inr ⟨i, r, hr, rfl⟩), ?_, ?_⟩
  · intro e r he hpayload
    rcases (hlive e).mp he with rfl | ⟨i, r', hr', rfl⟩
    · cases hpayload
    · cases hpayload
      exact ⟨i, hr', rfl⟩
  · intro i j r r' _ _ _ hv
    simp [RunnerCore.verdict, MetricsCollector.verdict, init] at hv

/-- Arrivals are handled in the order of the releases. -/
theorem Visited.inTurn (hc : c.WellFormed) (h : Visited c s) : InTurn c s := by
  induction h with
  | init h => exact inTurn_init h
  | step hs h ih => exact ih.step hc hs h

/-- A job that arrives ranks behind all jobs of its class that arrived before. -/
theorem jobKey_lt_of_arrived (hc : c.WellFormed) (hfew : FewReleases c.scenario) (hv : Visited c s)
    {ev : RunnerEvent} {k : Kernel RunnerPayload} (hpop : Popped c s.toRunnerCore ev k)
    {r : JobRelease} (hpayload : ev.payload = .client (.arrival r))
    (hfresh : s.verdict r.jobId = none) {a : String} (ha : s.verdict a ≠ none)
    (hclass : classFor c a = classFor c r.jobId) : jobKey c a < jobKey c r.jobId := by
  have hturn := hv.inTurn hc
  obtain ⟨j, hj, _⟩ := hturn.event ev r ((hv.timers hc).advanced hpop).live hpayload
  obtain ⟨hmem, hid⟩ := releaseOf_mem hc ((hv.places hc).known a ha)
  obtain ⟨i, hi⟩ := List.getElem?_of_mem hmem
  rw [← hid] at ha hclass ⊢
  rcases lt_trichotomy i j with hlt | rfl | hlt
  · exact jobKey_lt_of_listed hc hfew hlt hi hj hclass
  · rw [hi, Option.some.injEq] at hj
    rw [hj] at ha
    exact absurd hfresh ha
  · exact absurd hfresh (hturn.first j i _ _ hlt hj hi ha)

/-! ### The order of the FIFOs -/

theorem mem_fifoAfterTake_of_ne {key a : String} {t : RunnerCore} (ha : a ∈ t.fifoAt key)
    (hne : a ≠ jobId) : a ∈ fifoAfterTake c jobId key t := by
  unfold fifoAfterTake
  split_ifs with hcond
  · obtain ⟨rest, hrest⟩ := List.head?_eq_some_iff.mp hcond.2.2
    rw [hrest] at ha ⊢
    exact (List.mem_cons.mp ha).resolve_left hne
  · exact ha

/-- The FIFOs are in policy order, and the jobs that were preempted stand before those that never
ran. A running job ranks before all jobs in the FIFO of its class. -/
structure Lined (c : CompiledScenario) (s : RunnerState) : Prop where
  sorted : ∀ key, (s.fifoAt key).Pairwise fun a b => jobKey c a < jobKey c b
  idle : ∀ key, ∀ a ∈ s.fifoAt key, a ∉ s.running.keys
  kept : ∀ a ∈ s.preempted, IsFifo c a → a ∈ fifoOf c a s.toRunnerCore
  resumed : ∀ key, ∀ a ∈ s.fifoAt key, ∀ b ∈ s.fifoAt key, a ∈ s.preempted → b ∉ s.preempted →
    jobKey c a < jobKey c b
  ahead : ∀ a ∈ s.running.keys, IsFifo c a → ∀ b ∈ fifoOf c a s.toRunnerCore,
    jobKey c a < jobKey c b

namespace Lined

/-- The head of a FIFO ranks before all other jobs in it. -/
theorem head_lt (h : Lined c s) {key a b : String} (hhead : (s.fifoAt key).head? = some a)
    (hb : b ∈ s.fifoAt key) (hne : b ≠ a) : jobKey c a < jobKey c b := by
  obtain ⟨rest, hrest⟩ := List.head?_eq_some_iff.mp hhead
  have hsorted := h.sorted key
  rw [hrest] at hb hsorted
  exact (List.pairwise_cons.mp hsorted).1 b ((List.mem_cons.mp hb).resolve_left hne)

/-- A job that ranks before no other job of its FIFO is the head of it. -/
theorem head_of_least (h : Lined c s) {key a : String} (ha : a ∈ s.fifoAt key)
    (hleast : ∀ b ∈ s.fifoAt key, ¬jobKey c b < jobKey c a) : (s.fifoAt key).head? = some a := by
  cases hfifo : s.fifoAt key with
  | nil => simp [hfifo] at ha
  | cons b rest =>
    have hhead : (s.fifoAt key).head? = some b := by rw [hfifo, List.head?_cons]
    by_cases hab : a = b
    · rw [hab, List.head?_cons]
    · exact absurd (h.head_lt hhead ha hab) (hleast b (List.mem_of_mem_head? hhead))

/-- What leaves the FIFOs and the preempted jobs alone and starts no job keeps the order. -/
theorem of_frame (h : Lined c s) (hfifo : ∀ key, s'.fifoAt key = s.fifoAt key)
    (hrunning : s'.running.keys ⊆ s.running.keys) (hpreempted : s'.preempted = s.preempted) :
    Lined c s' where
  sorted key := hfifo key ▸ h.sorted key
  idle key a ha hr := h.idle key a (hfifo key ▸ ha) (hrunning hr)
  kept a ha hF := by
    rw [hpreempted] at ha
    rw [fifoOf, hfifo]
    exact h.kept a ha hF
  resumed key a ha b hb := by
    rw [hfifo] at ha hb
    rw [hpreempted]
    exact h.resumed key a ha b hb
  ahead a ha hF b hb := by
    rw [fifoOf, hfifo] at hb
    exact h.ahead a (hrunning ha) hF b hb

theorem setKernel (h : Lined c s) (k : Kernel RunnerPayload) : Lined c { s with kernel := k } :=
  h.of_frame (fun _ => rfl) (List.Subset.refl _) rfl

theorem check (h : Lined c s) (hch : Checked s s') : Lined c s' := by
  refine h.of_frame (fun key => ?_) ?_ hch.preempted
  · rw [RunnerCore.fifoAt, hch.fifoQueues]
    rfl
  · rw [hch.running]
    exact List.Subset.refl _

/-- The head of its FIFO, or a mailbox job, starts. -/
theorem start (h : Lined c s) (hp : Places c s) {ev : RunnerEvent}
    (hhead : IsFifo c jobId → (fifoOf c jobId s.toRunnerCore).head? = some jobId)
    (hs : Started c jobId s s' ev) : Lined c s' := by
  have hsub : ∀ key, (s'.fifoAt key).Sublist (s.fifoAt key) := by
    intro key
    rw [hs.fifoAt, fifoAfterTake]
    split_ifs
    · exact List.tail_sublist _
    · exact List.Sublist.refl _
  -- the started job has left its FIFO
  have hbehind : ∀ key, ∀ b ∈ s'.fifoAt key, IsFifo c jobId → key = fifoKeyOf c jobId →
      jobKey c jobId < jobKey c b := by
    intro key b hb hF hkey
    subst hkey
    rw [hs.fifoAt, fifoAfterTake, if_pos ⟨hF, rfl, hhead hF⟩] at hb
    obtain ⟨rest, hrest⟩ := List.head?_eq_some_iff.mp (hhead hF)
    have hsorted := h.sorted (fifoKeyOf c jobId)
    rw [fifoOf] at hrest
    rw [hrest] at hb hsorted
    exact (List.pairwise_cons.mp hsorted).1 b hb
  have hgone : ∀ key, ∀ b ∈ s'.fifoAt key, b ≠ jobId := by
    rintro key b hb rfl
    obtain ⟨hF, hkey, _⟩ := hp.queued key b ((hsub key).subset hb)
    exact lt_irrefl _ (hbehind key b hb hF hkey)
  refine ⟨fun key => (h.sorted key).sublist (hsub key), ?_, ?_, ?_, ?_⟩
  · intro key a ha hr
    rw [hs.running, Dict.mem_keys_insert] at hr
    exact hr.elim (hgone key a ha) (h.idle key a ((hsub key).subset ha))
  · intro a ha hF
    rw [hs.preempted, List.mem_filter, decide_eq_true_eq] at ha
    have hm := h.kept a ha.1 hF
    rw [fifoOf, hs.fifoAt]
    exact mem_fifoAfterTake_of_ne hm ha.2
  · intro key a ha b hb hpa hpb
    rw [hs.preempted, List.mem_filter] at hpa hpb
    refine h.resumed key a ((hsub key).subset ha) b ((hsub key).subset hb) hpa.1 fun hb' => ?_
    exact hpb ⟨hb', decide_eq_true (hgone key b hb)⟩
  · intro a ha hF b hb
    rw [hs.running, Dict.mem_keys_insert] at ha
    rcases ha with rfl | ha
    · exact hbehind _ b hb hF rfl
    · exact h.ahead a ha hF b ((hsub _).subset hb)

/-- The lowest-ranked running job is preempted. -/
theorem preempt (hc : c.WellFormed) (h : Lined c s) (hp : Places c s) {ev : RunnerEvent}
    (hrunning : s.running.get? jobId = some ev)
    (hworst : ∀ a ∈ s.running.keys, jobKey c a ≤ jobKey c jobId)
    (hs : Preempted c jobId s s' ev) : Lined c s' := by
  have hm : jobId ∈ s.running.keys := Dict.mem_keys.mpr ⟨ev, hrunning⟩
  have hfifo : ∀ key, s'.fifoAt key =
      if IsFifo c jobId ∧ key = fifoKeyOf c jobId then jobId :: s.fifoAt key
      else s.fifoAt key := by
    intro key
    rw [hs.fifoAt, fifoAfterReturn]
    refine if_congr (and_congr_right fun hF => and_iff_left_of_imp ?_) rfl rfl
    rintro rfl
    have hknown := hp.known jobId (hp.moved jobId (by simp [(hp.running jobId).mp hm]))
    rw [fifoKeyOf, hp.capacity _ (classFor_mem hc hknown) hF]
    rfl
  have hmem : ∀ key a, a ∈ s'.fifoAt key →
      (a = jobId ∧ IsFifo c jobId ∧ key = fifoKeyOf c jobId) ∨ a ∈ s.fifoAt key := by
    intro key a ha
    rw [hfifo] at ha
    split_ifs at ha with hkey
    · exact (List.mem_cons.mp ha).imp (fun heq => ⟨heq, hkey⟩) id
    · exact Or.inr ha
  have hidle : ∀ key a, a ∈ s.fifoAt key → a ≠ jobId := by
    rintro key a ha rfl
    exact h.idle key a ha hm
  refine ⟨?_, ?_, ?_, ?_, ?_⟩
  · intro key
    rw [hfifo]
    split_ifs with hkey
    · refine List.pairwise_cons.mpr ⟨fun b hb => h.ahead jobId hm hkey.1 b ?_, h.sorted key⟩
      rw [fifoOf, ← hkey.2]
      exact hb
    · exact h.sorted key
  · intro key a ha hr
    rw [hs.running, Dict.mem_keys_erase] at hr
    rcases hmem key a ha with ⟨heq, _⟩ | ha
    · exact hr.1 heq
    · exact h.idle key a ha hr.2
  · intro a ha hF
    rw [hs.preempted, List.mem_insert_iff] at ha
    rw [fifoOf, hfifo]
    rcases ha with rfl | ha
    · rw [if_pos ⟨hF, rfl⟩]
      exact List.mem_cons_self
    · have hold := h.kept a ha hF
      split_ifs
      · exact List.mem_cons_of_mem _ hold
      · exact hold
  · intro key a ha b hb hpa hpb
    rw [hs.preempted, List.mem_insert_iff] at hpa
    rw [hs.preempted, List.mem_insert_iff, not_or] at hpb
    have hb := (hmem key b hb).resolve_left fun heq => hpb.1 heq.1
    rcases hmem key a ha with ⟨rfl, hF, rfl⟩ | ha
    · exact h.ahead a hm hF b hb
    · exact h.resumed key a ha b hb (hpa.resolve_left (hidle key a ha)) hpb.2
  · intro a ha hF b hb
    rw [hs.running, Dict.mem_keys_erase] at ha
    rcases hmem _ b hb with ⟨rfl, _⟩ | hb
    · exact lt_of_le_of_ne (hworst a ha.2) fun heq => ha.1 (jobKey_injective heq)
    · exact h.ahead a ha.2 hF b hb

/-- A job arrives that ranks behind all earlier ones of its class. -/
theorem arrive (hc : c.WellFormed) (h : Lined c s) (hp : Places c s) {r : JobRelease}
    (hmem : r ∈ c.releases) (hr : Received c r s s')
    (hlast : ∀ a, s.verdict a ≠ none → classFor c a = classFor c r.jobId →
      jobKey c a < jobKey c r.jobId) : Lined c s' := by
  have hkeep : (∀ key, s'.fifoAt key = s.fifoAt key) → Lined c s' := fun hfifo =>
    h.of_frame hfifo (by rw [hr.running]; exact List.Subset.refl _) hr.preempted
  cases hr.fate with
  | rejected hfifo => exact hkeep hfifo
  | dropped _ hfifo => exact hkeep hfifo
  | posted _ hfifo => exact hkeep hfifo
  | queued hF _ _ _ hfifo =>
    have hidle : ∀ key, r.jobId ∉ s.fifoAt key := fun key hq => (hp.queued key _ hq).2.2 hr.fresh
    have hmoved : r.jobId ∉ s.running.keys ∧ r.jobId ∉ s.preempted := by
      rw [hp.running, hp.preempted]
      constructor
      · exact fun hm => hp.moved r.jobId (by simp [hm]) hr.fresh
      · exact fun hm => hp.moved r.jobId (by simp [hm]) hr.fresh
    have hclass : ∀ a, s.verdict a ≠ none → fifoKeyOf c a = fifoKeyOf c r.jobId →
        classFor c a = classFor c r.jobId := fun a ha hkey =>
      class_eq_of_id hc (classFor_mem hc (hp.known a ha))
        (classFor_mem hc (List.mem_map_of_mem hmem)) (fifoKey_injective hkey)
    have hbefore : ∀ a ∈ s.fifoAt (fifoKeyOf c r.jobId), jobKey c a < jobKey c r.jobId := by
      intro a ha
      obtain ⟨_, hkey, hv⟩ := hp.queued _ a ha
      exact hlast a hv (hclass a hv hkey.symm)
    have hcases : ∀ key a, a ∈ s'.fifoAt key →
        (a = r.jobId ∧ key = fifoKeyOf c r.jobId) ∨ a ∈ s.fifoAt key := by
      intro key a ha
      rw [hfifo] at ha
      split_ifs at ha with hkey
      · rcases List.mem_append.mp ha with ha | ha
        · exact Or.inr ha
        · exact Or.inl ⟨List.mem_singleton.mp ha, hkey⟩
      · exact Or.inr ha
    refine ⟨?_, ?_, ?_, ?_, ?_⟩
    · intro key
      rw [hfifo]
      split_ifs with hkey
      · rw [hkey]
        refine List.pairwise_append.mpr ⟨h.sorted _, List.pairwise_singleton _ _, ?_⟩
        intro a ha b hb
        rw [List.mem_singleton.mp hb]
        exact hbefore a ha
      · exact h.sorted key
    · intro key a ha
      rw [hr.running]
      rcases hcases key a ha with ⟨rfl, _⟩ | ha
      · exact hmoved.1
      · exact h.idle key a ha
    · intro a ha hFa
      rw [hr.preempted] at ha
      have hold := h.kept a ha hFa
      rw [fifoOf, hfifo]
      split_ifs with hkey
      · exact List.mem_append_left _ hold
      · exact hold
    · intro key a ha b hb hpa hpb
      rw [hr.preempted] at hpa hpb
      have ha := (hcases key a ha).resolve_left fun heq => hmoved.2 (heq.1 ▸ hpa)
      rcases hcases key b hb with ⟨rfl, rfl⟩ | hb
      · exact hbefore a ha
      · exact h.resumed key a ha b hb hpa hpb
    · intro a ha hFa b hb
      rw [hr.running] at ha
      rcases hcases _ b hb with ⟨rfl, hkey⟩ | hb
      · have hv := hp.moved a (by simp [(hp.running a).mp ha])
        exact hlast a hv (hclass a hv hkey)
      · exact h.ahead a ha hFa b hb

end Lined

theorem lined_init (hc : c.WellFormed) (h : scheduleArrivals c (init c) = .ok s) : Lined c s := by
  have hp := places_init hc h
  obtain ⟨k, rfl⟩ := scheduleArrivals_spec h
  have hempty : ∀ key a, a ∉ RunnerCore.fifoAt { init c with kernel := k }.toRunnerCore key := by
    intro key a ha
    exact (hp.queued _ a ha).2.2 (by simp [RunnerCore.verdict, MetricsCollector.verdict, init])
  have hnil : ∀ key, RunnerCore.fifoAt { init c with kernel := k }.toRunnerCore key = [] :=
    fun key => List.eq_nil_iff_forall_not_mem.mpr (hempty key)
  refine ⟨fun key => ?_, fun key a ha => absurd ha (hempty key a), fun a ha => ?_,
    fun key a ha => absurd ha (hempty key a), fun a ha => ?_⟩
  · rw [hnil]
    exact List.Pairwise.nil
  · simp [init] at ha
  · simp [init] at ha

end Runner

end NpuArc
