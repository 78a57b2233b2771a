import NpuArc.Library.Maxima
import NpuArc.Scenarios.Compiler
import Mathlib.Data.List.Pairwise

/-!
# What the compiler guarantees

A compiled scenario that passed the schema has releases with unique job ids in order
of arrival, a class for every release, and a fresh queue for every class. These facts
are collected in `CompiledScenario.WellFormed`, which is all that later proofs use.
-/

namespace NpuArc

/-! ### Accepted scenarios -/

/-- The schema accepts only scenarios with unique class ids and accepted classes. -/
theorem Scenario.validate_ok {sc : Scenario} (h : sc.validate = .ok ()) :
    (sc.classes.map (·.id)).Nodup ∧ ∀ cls ∈ sc.classes, cls.validate = .ok () := by
  unfold Scenario.validate at h
  split_ifs at h with _ _ _ _ _ _ _ hunique
  exact ⟨hunique, forM_eq_ok.mp h⟩

/-- An accepted class takes positive time and releases nothing before time zero. -/
theorem WorkloadClass.validate_ok {cls : WorkloadClass} (h : cls.validate = .ok ()) :
    0 ≤ cls.workPs ∧ ∀ t ∈ cls.arrival.releaseTimesPs, 0 ≤ t := by
  unfold WorkloadClass.validate at h
  split_ifs at h with _ hwork
  exact ⟨msToPs_nonneg (not_le.mp hwork).le, ArrivalPattern.releaseTimesPs_nonneg h⟩

/-- Lookup by id finds every class of a scenario with unique class ids. -/
theorem Scenario.getClass_of_mem {sc : Scenario} (hnodup : (sc.classes.map (·.id)).Nodup)
    {cls : WorkloadClass} (h : cls ∈ sc.classes) : sc.getClass cls.id = .ok cls := by
  unfold Scenario.getClass
  cases hfind : sc.classes.find? fun other => decide (other.id = cls.id) with
  | none =>
    have hnone := List.find?_eq_none.mp hfind cls h
    simp at hnone
  | some other =>
    have hid : other.id = cls.id := by simpa using List.find?_some hfind
    rw [List.inj_on_of_nodup_map hnodup (List.mem_of_find?_eq_some hfind) h hid]

/-! ### Job ids -/

private theorem toList_makeJobId (classId : String) (idx : ℕ) :
    (makeJobId classId idx).toList = classId.toList ++ '-' :: paddedDigits 6 idx := by
  have hdash : "-".toList = ['-'] := by decide
  simp [makeJobId, padSix, hdash]

/-- A job id determines its class and its index: its last dash ends the class id. -/
theorem makeJobId_injective {a a' : String} {i i' : ℕ} (h : makeJobId a i = makeJobId a' i') :
    a = a' ∧ i = i' := by
  have hdash : ∀ i, '-' ∉ paddedDigits 6 i := fun i hm => by
    have hdigit := isDigit_of_mem_paddedDigits hm
    revert hdigit
    decide
  have hlist := congrArg String.toList h
  rw [toList_makeJobId, toList_makeJobId, List.append_eq_append_iff] at hlist
  rcases hlist with ⟨e, ha, hd⟩ | ⟨e, ha, hd⟩
  · cases e with
    | nil =>
      rw [List.nil_append, List.cons.injEq] at hd
      exact ⟨String.toList_inj.mp (by simpa using ha.symm), paddedDigits_injective hd.2⟩
    | cons ch e =>
      rw [List.cons_append, List.cons.injEq] at hd
      exact absurd (hd.2 ▸ List.mem_append_right e List.mem_cons_self) (hdash i)
  · cases e with
    | nil =>
      rw [List.nil_append, List.cons.injEq] at hd
      exact ⟨String.toList_inj.mp (by simpa using ha), (paddedDigits_injective hd.2).symm⟩
    | cons ch e =>
      rw [List.cons_append, List.cons.injEq] at hd
      exact absurd (hd.2 ▸ List.mem_append_right e List.mem_cons_self) (hdash i')

theorem makeJobId_ne_empty (classId : String) (idx : ℕ) : makeJobId classId idx ≠ "" := by
  intro h
  have hlist := congrArg String.toList h
  rw [toList_makeJobId] at hlist
  simp at hlist

/-- Up to a million releases, the ids of one class are ordered by index. -/
theorem makeJobId_lt {classId : String} {i i' : ℕ} (h : i < i') (hi' : i' < 10 ^ 6) :
    makeJobId classId i < makeJobId classId i' := by
  rw [String.lt_iff_toList_lt, toList_makeJobId, toList_makeJobId]
  apply List.append_left_lt
  rw [List.cons_lt_cons_iff]
  exact Or.inr ⟨rfl, paddedDigits_lt (by decide) h hi'⟩

/-! ### Releases -/

/-- The release with a given index of a class. -/
def IsReleaseOf (sc : Scenario) (cls : WorkloadClass) (idx : ℕ) (r : JobRelease) : Prop :=
  ∃ (h : idx < cls.arrival.releaseTimesPs.length) (seq : ℕ),
    r = makeRelease sc cls cls.arrival.releaseTimesPs.length idx
      cls.arrival.releaseTimesPs[idx] seq

private theorem mem_classReleases {sc : Scenario} {cls : WorkloadClass} {seq : ℕ}
    {r : JobRelease} (h : r ∈ classReleases sc cls seq) :
    ∃ idx, IsReleaseOf sc cls idx r ∧ r.sequence = seq + idx := by
  obtain ⟨⟨t, idx⟩, hmem, rfl⟩ := List.mem_map.mp h
  obtain ⟨_, hidx, ht⟩ := List.mem_zipIdx hmem
  simp only [Nat.zero_add, Nat.sub_zero] at hidx ht
  exact ⟨idx, ⟨hidx, seq + idx, by rw [ht]⟩, rfl⟩

/-- Every release belongs to a class and follows the numbering. -/
theorem mem_allReleases {sc : Scenario} {classes : List WorkloadClass} {seq : ℕ}
    {r : JobRelease} (h : r ∈ allReleases sc classes seq) :
    seq ≤ r.sequence ∧ ∃ cls ∈ classes, ∃ idx, IsReleaseOf sc cls idx r := by
  induction classes generalizing seq with
  | nil => simp [allReleases] at h
  | cons cls classes ih =>
    rw [allReleases, List.mem_append] at h
    rcases h with h | h
    · obtain ⟨idx, hr, hseq⟩ := mem_classReleases h
      exact ⟨by omega, cls, List.mem_cons_self, idx, hr⟩
    · obtain ⟨hseq, cls', hcls', hr⟩ := ih h
      exact ⟨by omega, cls', List.mem_cons_of_mem cls hcls', hr⟩

/-- The order in which releases are numbered: by class, and by index inside a class. -/
def NumberedBefore (classes : List WorkloadClass) (r r' : JobRelease) : Prop :=
  r.sequence < r'.sequence ∧ r.jobId ≠ r'.jobId ∧
    (r.classId = r'.classId → ∃ i i', i < i' ∧ r.jobId = makeJobId r.classId i ∧
      r'.jobId = makeJobId r.classId i' ∧
      ∃ cls ∈ classes, i' < cls.arrival.releaseTimesPs.length)

private theorem classReleases_pairwise {sc : Scenario} {cls : WorkloadClass} {seq : ℕ} :
    (classReleases sc cls seq).Pairwise (NumberedBefore [cls]) := by
  rw [classReleases, List.pairwise_map, List.pairwise_iff_getElem]
  intro i i' hi hi' hlt
  rw [List.length_zipIdx] at hi hi'
  simp only [List.getElem_zipIdx, Nat.zero_add]
  refine ⟨by simp only [makeRelease]; omega, fun h => ?_, fun _ => ?_⟩
  · exact absurd (makeJobId_injective h).2 hlt.ne
  · exact ⟨i, i', hlt, rfl, rfl, cls, List.mem_singleton_self cls, hi'⟩

private theorem NumberedBefore.mono {classes classes' : List WorkloadClass}
    (h : classes ⊆ classes') {r r' : JobRelease} (hr : NumberedBefore classes r r') :
    NumberedBefore classes' r r' := by
  obtain ⟨hseq, hid, hclass⟩ := hr
  refine ⟨hseq, hid, fun heq => ?_⟩
  obtain ⟨i, i', hlt, hi, hi', cls, hcls, hlen⟩ := hclass heq
  exact ⟨i, i', hlt, hi, hi', cls, h hcls, hlen⟩

/-- The compiler numbers the releases in the order in which it creates them. -/
theorem allReleases_pairwise {sc : Scenario} {classes : List WorkloadClass} {seq : ℕ}
    (hnodup : (classes.map (·.id)).Nodup) :
    (allReleases sc classes seq).Pairwise (NumberedBefore classes) := by
  induction classes generalizing seq with
  | nil => exact List.Pairwise.nil
  | cons cls classes ih =>
    rw [List.map_cons, List.nodup_cons] at hnodup
    rw [allReleases, List.pairwise_append]
    refine ⟨classReleases_pairwise.imp fun h => h.mono (by simp),
      (ih hnodup.2).imp fun h => h.mono (by simp), ?_⟩
    intro r hr r' hr'
    obtain ⟨idx, ⟨hidx, _, hr⟩, hseq⟩ := mem_classReleases hr
    obtain ⟨hseq', cls', hcls', idx', _, _, hr'⟩ := mem_allReleases hr'
    have hne : cls.id ≠ cls'.id := fun heq =>
      hnodup.1 (heq ▸ List.mem_map_of_mem hcls')
    refine ⟨by omega, ?_, ?_⟩
    · rw [hr, hr']
      exact fun h => hne (makeJobId_injective h).1
    · rw [hr, hr']
      exact fun h => absurd h hne

/-! ### Queues -/

/-- The key under which the queue of a class is stored. -/
def queueKey (cls : WorkloadClass) : String :=
  match cls.queuePolicy with
  | .fifo => fifoKey cls.id
  | .mailboxLatest => mailboxKey cls.stream

/-- The queue that a class starts with. -/
inductive FreshQueue (cls : WorkloadClass) : CompiledQueue → Prop
  | fifo (hpolicy : cls.queuePolicy = .fifo) (q : BoundedFIFO String)
      (hcapacity : q.capacity = cls.queueCapacity) (hitems : q.items = []) :
      FreshQueue cls (.fifo q)
  | mailbox (hpolicy : cls.queuePolicy = .mailboxLatest) :
      FreshQueue cls (.mailbox { name := mailboxKey cls.stream })

theorem fifoKey_injective {a b : String} (h : fifoKey a = fifoKey b) : a = b := by
  simpa [fifoKey, ← String.toList_inj] using h

theorem mailboxKey_injective {a b : String} (h : mailboxKey a = mailboxKey b) : a = b := by
  simpa [mailboxKey, ← String.toList_inj] using h

theorem fifoKey_ne_mailboxKey (a b : String) : fifoKey a ≠ mailboxKey b := by
  intro h
  have hlist := congrArg String.toList h
  simp [fifoKey, mailboxKey] at hlist

private theorem buildQueue_ok {queues queues' : Dict String CompiledQueue} {cls : WorkloadClass}
    (h : buildQueue queues cls = .ok queues') :
    (∃ q, queues'.get? (queueKey cls) = some q) ∧
      ∀ key q, queues'.get? key = some q →
        queues.get? key = some q ∨ (key = queueKey cls ∧ FreshQueue cls q) := by
  unfold buildQueue at h
  unfold queueKey
  cases hpolicy : cls.queuePolicy with
  | fifo =>
    simp only [hpolicy, bind_eq_ok] at h ⊢
    obtain ⟨q, hq, heq⟩ := h
    cases heq
    refine ⟨⟨.fifo q, by simp⟩, fun key q' hget => ?_⟩
    have hq' : q.capacity = cls.queueCapacity ∧ q.items = [] := by
      unfold BoundedFIFO.new at hq
      split_ifs at hq
      cases hq
      exact ⟨rfl, rfl⟩
    rw [Dict.get?_insert] at hget
    split_ifs at hget with hkey
    · cases hget
      exact Or.inr ⟨hkey, .fifo hpolicy q hq'.1 hq'.2⟩
    · exact Or.inl hget
  | mailboxLatest =>
    simp only [hpolicy] at h ⊢
    split_ifs at h with hpresent
    · cases h
      obtain ⟨q, hq⟩ := Dict.mem_keys.mp (Dict.contains_iff.mp hpresent)
      exact ⟨⟨q, hq⟩, fun key q hget => Or.inl hget⟩
    · cases h
      refine ⟨⟨_, by rw [Dict.get?_insert, if_pos rfl]⟩, fun key q' hget => ?_⟩
      rw [Dict.get?_insert] at hget
      split_ifs at hget with hkey
      · cases hget
        exact Or.inr ⟨hkey, .mailbox hpolicy⟩
      · exact Or.inl hget

/-- Every class has its queue, and every queue is that of a class. -/
theorem buildQueues_ok {sc : Scenario} {queues : Dict String CompiledQueue}
    (h : buildQueues sc = .ok queues) :
    (∀ cls ∈ sc.classes, ∃ q, queues.get? (queueKey cls) = some q) ∧
      ∀ key q, queues.get? key = some q →
        ∃ cls ∈ sc.classes, key = queueKey cls ∧ FreshQueue cls q := by
  unfold buildQueues at h
  generalize sc.classes = classes at h ⊢
  have hempty : ∀ key q, (Dict.empty : Dict String CompiledQueue).get? key = some q →
      ∃ cls ∈ classes, key = queueKey cls ∧ FreshQueue cls q := by simp
  generalize Dict.empty = d at h hempty
  have hkeep : ∀ (classes : List WorkloadClass) (d queues : Dict String CompiledQueue),
      classes.foldlM buildQueue d = .ok queues → ∀ key ∈ d.keys, key ∈ queues.keys := by
    intro classes d queues h
    refine foldlM_invariant (fun q => ∀ key ∈ d.keys, key ∈ q.keys) h (fun _ h => h) ?_
    intro cls _ b b' hb hstep key hkey
    unfold buildQueue at hstep
    split at hstep
    · obtain ⟨q, _, heq⟩ := bind_eq_ok.mp hstep
      cases heq
      exact Dict.mem_keys_insert.mpr (Or.inr (hb key hkey))
    · dsimp only at hstep
      split_ifs at hstep
      · cases hstep
        exact hb key hkey
      · cases hstep
        exact Dict.mem_keys_insert.mpr (Or.inr (hb key hkey))
  constructor
  · clear hempty
    induction classes generalizing d with
    | nil => simp
    | cons cls classes ih =>
      rw [List.foldlM_cons, bind_eq_ok] at h
      obtain ⟨d', hstep, hrest⟩ := h
      intro cls' hcls'
      rcases List.mem_cons.mp hcls' with rfl | hcls'
      · obtain ⟨q, hq⟩ := (buildQueue_ok hstep).1
        exact Dict.mem_keys.mp (hkeep classes d' queues hrest _ (Dict.mem_keys.mpr ⟨q, hq⟩))
      · exact ih d' hrest cls' hcls'
  · refine foldlM_invariant (fun d : Dict String CompiledQueue => ∀ key q, d.get? key = some q →
      ∃ cls ∈ classes, key = queueKey cls ∧ FreshQueue cls q) h hempty ?_
    intro cls hcls b b' hb hstep key q hget
    rcases (buildQueue_ok hstep).2 key q hget with hold | ⟨hkey, hq⟩
    · exact hb key q hold
    · exact ⟨cls, hcls, hkey, hq⟩

/-! ### Compiled scenarios -/

/-- The guarantees of the compiler that the runner relies on. -/
structure CompiledScenario.WellFormed (c : CompiledScenario) : Prop where
  getClass : ∀ cls ∈ c.scenario.classes, c.scenario.getClass cls.id = .ok cls
  release : ∀ r ∈ c.releases, ∃ cls ∈ c.scenario.classes, ∃ idx, IsReleaseOf c.scenario cls idx r
  arrival_nonneg : ∀ r ∈ c.releases, 0 ≤ r.arrivalPs
  work_nonneg : ∀ r ∈ c.releases, 0 ≤ r.workPs
  ids_nodup : (c.releases.map (·.jobId)).Nodup
  /-- Releases are listed by arrival time, and inside one class by index. -/
  ordered : c.releases.Pairwise fun r r' => r.arrivalPs ≤ r'.arrivalPs ∧
    (r.arrivalPs = r'.arrivalPs → NumberedBefore c.scenario.classes r r')
  queue_of_class : ∀ cls ∈ c.scenario.classes, ∃ q, c.queues.get? (queueKey cls) = some q
  class_of_queue : ∀ key q, c.queues.get? key = some q →
    ∃ cls ∈ c.scenario.classes, key = queueKey cls ∧ FreshQueue cls q

/-- Compiling an accepted scenario gives a well-formed one. -/
theorem compileScenario_wellFormed {sc : Scenario} {plan : Option ℤ} {c : CompiledScenario}
    (hv : sc.validate = .ok ()) (hc : compileScenario sc plan = .ok c) :
    c.scenario = sc ∧ c.WellFormed := by
  obtain ⟨hids, hclasses⟩ := Scenario.validate_ok hv
  simp only [compileScenario, bind_eq_ok] at hc
  obtain ⟨resources, _, queues, hqueues, admission, _, heq⟩ := hc
  cases heq
  obtain ⟨hexists, hfresh⟩ := buildQueues_ok hqueues
  have hperm : (sortedReleases sc).Perm (allReleases sc sc.classes 0) :=
    List.perm_insertionSort _ _
  have hpair : (allReleases sc sc.classes 0).Pairwise (NumberedBefore sc.classes) :=
    allReleases_pairwise hids
  have hnodup : ((sortedReleases sc).map (·.jobId)).Nodup := by
    refine (hperm.map _).nodup_iff.mpr ?_
    rw [List.Nodup, List.pairwise_map]
    exact hpair.imp fun h => h.2.1
  have hrelease : ∀ r ∈ sortedReleases sc, ∃ cls ∈ sc.classes, ∃ idx, IsReleaseOf sc cls idx r :=
    fun r hr => (mem_allReleases (hperm.mem_iff.mp hr)).2
  refine ⟨rfl, fun cls hcls => Scenario.getClass_of_mem hids hcls, hrelease, ?_, ?_, hnodup, ?_,
    hexists, hfresh⟩
  · intro r hr
    obtain ⟨cls, hcls, idx, hidx, _, rfl⟩ := hrelease r hr
    exact (WorkloadClass.validate_ok (hclasses cls hcls)).2 _ (List.getElem_mem hidx)
  · intro r hr
    obtain ⟨cls, hcls, idx, hidx, _, rfl⟩ := hrelease r hr
    exact (WorkloadClass.validate_ok (hclasses cls hcls)).1
  · have hsorted : (sortedReleases sc).Pairwise fun a b => releaseKey a ≤ releaseKey b :=
      List.pairwise_insertionSort _ _
    rw [List.Nodup, List.pairwise_map] at hnodup
    refine (hsorted.and hnodup).imp_of_mem ?_
    intro r r' hr hr' ⟨hkey, hne⟩
    rw [releaseKey, releaseKey, Prod.Lex.toLex_le_toLex] at hkey
    refine ⟨hkey.elim le_of_lt fun h => h.1.le, fun htime => ?_⟩
    have hseq : r.sequence ≤ r'.sequence := (hkey.resolve_left (by simp [htime])).2
    -- the numbering decides ties, whichever of the two releases was created first
    have hsymm : (allReleases sc sc.classes 0).Pairwise fun a b =>
        NumberedBefore sc.classes a b ∨ NumberedBefore sc.classes b a :=
      hpair.imp fun h => Or.inl h
    have hstd : Std.Symm fun a b : JobRelease =>
        NumberedBefore sc.classes a b ∨ NumberedBefore sc.classes b a := ⟨fun _ _ h => h.symm⟩
    have hrr' : r ≠ r' := fun h => hne (congrArg _ h)
    rcases hsymm.forall (hperm.mem_iff.mp hr) (hperm.mem_iff.mp hr') hrr' with h | h
    · exact h
    · exact absurd h.1 (by omega)

/-! ### The measurement window -/

private theorem foldl_min_le (l : List ℤ) (x : ℤ) : l.foldl min x ≤ x := by
  induction l generalizing x with
  | nil => exact le_rfl
  | cons y l ih => exact (ih (min x y)).trans (min_le_left x y)

theorem le_extendWindow (measurementReleases : List JobRelease) (windowEndPs : ℤ)
    (cls : WorkloadClass) : windowEndPs ≤ extendWindow measurementReleases windowEndPs cls := by
  unfold extendWindow
  cases cls.arrival.mode with
  | trace => exact le_rfl
  | periodic =>
    dsimp only
    split
    · exact le_rfl
    · exact le_max_left _ _

/-- The window does not end before it starts. -/
theorem compileScenario_window {sc : Scenario} {plan : Option ℤ} {c : CompiledScenario}
    (hc : compileScenario sc plan = .ok c) : c.windowStartPs ≤ c.windowEndPs := by
  simp only [compileScenario, bind_eq_ok] at hc
  obtain ⟨resources, _, queues, _, admission, _, heq⟩ := hc
  cases heq
  dsimp only
  generalize (sortedReleases sc).filter (·.isMeasurement) = released
  have hextend : ∀ (classes : List WorkloadClass) (stop : ℤ),
      stop ≤ classes.foldl (extendWindow released) stop := by
    intro classes
    induction classes with
    | nil => exact fun stop => le_rfl
    | cons cls classes ih =>
      exact fun stop => (le_extendWindow released stop cls).trans (ih _)
  refine le_trans ?_ (hextend sc.classes _)
  cases released.map (·.arrivalPs) with
  | nil => exact le_rfl
  | cons x arrivals => exact (foldl_min_le arrivals x).trans le_foldl_max

/-- Compiled scenarios have compute units. -/
theorem compileScenario_capacity {sc : Scenario} {plan : Option ℤ}
    {c : CompiledScenario} (hcompile : compileScenario sc plan = .ok c) : 0 < c.scenario.computeCapacity := by
  simp only [compileScenario, bind_eq_ok] at hcompile
  obtain ⟨resources, hresources, queues, _, admission, _, heq⟩ := hcompile
  cases heq
  unfold buildResources at hresources
  obtain ⟨compute, hcompute, _⟩ := bind_eq_ok.mp hresources
  rw [← (CapacityResource.new_ok hcompute).2]
  exact compute.capacity_pos

end NpuArc
