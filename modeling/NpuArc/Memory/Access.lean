import NpuArc.Memory.Safety

/-!
# Access accounting and placement

The planner accounts for accesses in a pass of its own, which reads the spilled bytes of
an item from one tier: the tier of its second part, or the slowest tier if the item does
not start in its first eligible one. Parts that lie elsewhere are strays, read from a tier
that does not hold them.
-/

namespace NpuArc

namespace Residency

variable {py : Builtins} {graph : WorkloadGraph} {hierarchy : MemoryHierarchy}
  {residentModels : ℤ} {queueBuffers : Dict String ℤ} {allowSpill : Bool}
  {plan : MemoryAccessPlan} {ls : List Located} {allocations allocations' : TierBytes}
  {l : Located} {name : String}

/-! ### Bytes read -/

/-- The bytes that the accounting reads from a tier for one placement. -/
def readBytes (hierarchy : MemoryHierarchy) (name : String) (p : TensorPlacement) : ℕ :=
  (if p.destinationTier = name then p.fullBytes + p.partialBytes else 0) +
    if p.spillTier.getD (slowestName hierarchy.tiers) = name then p.spillBytes else 0

/-- The bytes that a plan reads from a tier. -/
def accessBytes (plan : MemoryAccessPlan) (name : String) : ℕ :=
  (plan.totalAccessBytes.get? name).getD 0

private theorem getD_addAccess (access : Dict String ℕ) (other : String) (n : ℕ) :
    ((addAccess access other n).get? name).getD 0 =
      (access.get? name).getD 0 + if other = name then n else 0 := by
  unfold addAccess
  rw [Dict.get?_insert]
  by_cases h : name = other
  · simp [h]
  · simp [h, Ne.symm h]

private theorem getD_account (a : Accounting) (p : TensorPlacement) :
    ((account hierarchy a p).totalAccess.get? name).getD 0 =
      (a.totalAccess.get? name).getD 0 + readBytes hierarchy name p := by
  unfold account readBytes
  dsimp only
  generalize p.fullBytes + p.partialBytes = resident
  generalize p.spillBytes = spilled
  cases resident with
  | zero => cases spilled <;> simp [getD_addAccess]
  | succ resident => cases spilled <;> simp [getD_addAccess, Nat.add_assoc]

private theorem getD_foldl_account (ps : List TensorPlacement) (a : Accounting) :
    ((ps.foldl (account hierarchy) a).totalAccess.get? name).getD 0 =
      (a.totalAccess.get? name).getD 0 + (ps.map (readBytes hierarchy name)).sum := by
  induction ps generalizing a with
  | nil => simp
  | cons p ps ih =>
    rw [List.foldl_cons, ih, getD_account, List.map_cons, List.sum_cons, Nat.add_assoc]

/-- A plan reads from a tier what its items read. -/
theorem accessBytes_eq
    (hcontents : plan.toPlanContents = planContents hierarchy (sortedPlacements ls) allocations) :
    accessBytes plan name = (ls.map fun l => readBytes hierarchy name l.placement).sum := by
  have haccess : plan.totalAccessBytes = _ := congrArg (·.totalAccessBytes) hcontents
  unfold accessBytes
  rw [haccess]
  unfold planContents
  rw [Dict.get?_ofList_perm (List.perm_insertionSort _ _), getD_foldl_account,
    ((sortedPlacements_perm ls).map _).sum_eq, List.map_map]
  simp
  rfl

/-! ### Strays -/

/-- The parts of an item that the accounting reads from a tier they do not lie in. -/
def strayParts (hierarchy : MemoryHierarchy) (l : Located) : List (String × ℕ) :=
  match l.parts with
  | [] => []
  | first :: rest =>
    if (eligibleTiers l.placement.category hierarchy).head?.map (·.name) = some first.1 then
      rest.tail
    else (first :: rest).filter fun part => decide (part.1 ≠ slowestName hierarchy.tiers)

/-- The tier that the accounting reads the strays of an item from. -/
def strayTier (hierarchy : MemoryHierarchy) (l : Located) : String :=
  match l.parts with
  | [] => slowestName hierarchy.tiers
  | first :: rest =>
    if (eligibleTiers l.placement.category hierarchy).head?.map (·.name) = some first.1 then
      (rest.head?.map Prod.fst).getD (slowestName hierarchy.tiers)
    else slowestName hierarchy.tiers

/-- At every tier, the strays that lie in it weigh as much as those read from it. Without
strays this is so: each item lies in its first eligible tier and one other, or in the
slowest tier. -/
def StraysBalance (hierarchy : MemoryHierarchy) (ls : List Located) : Prop :=
  ∀ name ∈ hierarchy.names,
    (ls.map fun l => bytesIn name (strayParts hierarchy l)).sum =
      (ls.map fun l =>
        if strayTier hierarchy l = name then placedBytes (strayParts hierarchy l) else 0).sum

/-- The parts outside a tier. -/
private theorem bytesIn_filter_ne (other : String) (parts : List (String × ℕ)) :
    bytesIn name (parts.filter fun part => decide (part.1 ≠ other)) =
      if name = other then 0 else bytesIn name parts := by
  induction parts with
  | nil => simp
  | cons part parts ih =>
    rw [List.filter_cons]
    by_cases hpart : part.1 = other
    · rw [if_neg (by simpa using hpart), ih, bytesIn_cons]
      by_cases hname : name = other
      · simp [hname]
      · simp [hname, hpart, Ne.symm hname]
    · rw [if_pos (by simpa using hpart), bytesIn_cons, ih, bytesIn_cons]
      by_cases hname : name = other
      · simp [hname, hpart]
      · simp [hname]

private theorem placedBytes_filter_ne (other : String) (parts : List (String × ℕ)) :
    placedBytes (parts.filter fun part => decide (part.1 ≠ other)) + bytesIn other parts =
      placedBytes parts := by
  induction parts with
  | nil => simp
  | cons part parts ih =>
    rw [List.filter_cons]
    by_cases hpart : part.1 = other
    · rw [if_neg (by simpa using hpart), bytesIn_cons, if_pos hpart, placedBytes_cons]
      omega
    · rw [if_pos (by simpa using hpart), bytesIn_cons, if_neg hpart, placedBytes_cons,
        placedBytes_cons]
      omega

/-- For an item whose bytes all found room, the bytes read from a tier differ from the
bytes in it by the strays that come and go. -/
theorem Placed.readBytes_add (h : Placed hierarchy allocations l allocations')
    (hall : placedBytes l.parts = l.placement.effectiveBytes) :
    readBytes hierarchy name l.placement + bytesIn name (strayParts hierarchy l) =
      bytesIn name l.parts +
        if strayTier hierarchy l = name then placedBytes (strayParts hierarchy l) else 0 := by
  obtain ⟨f, hparts, _, hfills, hresidence⟩ := h.filled
  have hsum := hfills.conserved
  rw [hparts, hall] at hsum
  have hread : readBytes hierarchy name l.placement =
      (if l.placement.residence.destination = name then
        l.placement.residence.fullBytes + l.placement.residence.partialBytes else 0) +
      if l.placement.residence.spillTier.getD (slowestName hierarchy.tiers) = name then
        l.placement.residence.spillBytes else 0 := rfl
  rw [hread, hresidence]
  clear hread hresidence
  unfold residenceOf strayParts strayTier
  rw [hparts]
  cases hcase : l.parts with
  | nil =>
    have hzero : l.placement.effectiveBytes = 0 := by
      rw [hcase, placedBytes_nil] at hall
      exact hall.symm
    simp [hzero]
  | cons first rest =>
    rw [hcase, placedBytes_cons] at hall
    by_cases hfirst :
        (eligibleTiers l.placement.category hierarchy).head?.map (·.name) = some first.1
    · cases rest with
      | nil =>
        have hone : first.2 = l.placement.effectiveBytes := by simpa using hall
        simp [hfirst, hone, show f.remaining = 0 by omega]
      | cons second more =>
        rw [placedBytes_cons] at hall
        have hrest : l.placement.effectiveBytes - first.2 = second.2 + placedBytes more := by omega
        by_cases hsecond : second.1 = name
        · simp [hfirst, hrest, hsecond]
          omega
        · simp [hfirst, hrest, hsecond]
    · -- the item lies past its first eligible tier and is read from the slowest one
      have hfilter := placedBytes_filter_ne (slowestName hierarchy.tiers) (first :: rest)
      rw [placedBytes_cons, hall] at hfilter
      simp only [hfirst, if_false, and_false, bytesIn_filter_ne, Option.getD_none, Nat.add_zero,
        ite_self, Nat.zero_add]
      by_cases hname : slowestName hierarchy.tiers = name
      · subst hname
        simp only [if_true]
        omega
      · simp [hname, Ne.symm hname]

/-- When every byte found room, the accesses of each tier equal the bytes allocated in it
exactly when the strays balance. -/
theorem access_follows_placement_iff
    (hplan : buildMemoryAccessPlan py graph hierarchy residentModels queueBuffers allowSpill =
      .ok plan)
    (hlocate : locate py graph hierarchy residentModels queueBuffers = .ok (ls, allocations))
    (hall : ∀ l ∈ ls, placedBytes l.parts = l.placement.effectiveBytes) :
    (∀ s ∈ plan.tierSummaries, accessBytes plan s.name = s.allocatedBytes) ↔
      StraysBalance hierarchy ls := by
  obtain ⟨ls', allocations', hlocate', _, hcontents, _⟩ := buildMemoryAccessPlan_eq_ok.mp hplan
  rw [hlocate] at hlocate'
  cases hlocate'
  have hplaced : PlacedAll hierarchy (fun _ => 0) ls allocations := locate_placed hlocate
  have hbalance : ∀ name, accessBytes plan name +
      (ls.map fun l => bytesIn name (strayParts hierarchy l)).sum = allocations name +
      (ls.map fun l =>
        if strayTier hierarchy l = name then placedBytes (strayParts hierarchy l) else 0).sum := by
    intro name
    rw [accessBytes_eq hcontents, hplaced.allocated, Nat.zero_add, ← List.sum_map_add,
      ← List.sum_map_add]
    refine congrArg List.sum (List.map_congr_left fun l hl => ?_)
    obtain ⟨x, y, h⟩ := hplaced.mem hl
    exact h.readBytes_add (hall l hl)
  obtain ⟨spillIn, spillOut, hperm⟩ := tierSummaries_perm hcontents
  constructor
  · intro haccess name hname
    obtain ⟨tier, hmem, rfl⟩ := List.mem_map.mp hname
    have hsummary := haccess (tierSummary allocations spillIn spillOut tier)
      (hperm.mem_iff.mpr (List.mem_map_of_mem hmem))
    have hsum := hbalance tier.name
    simp only [tierSummary] at hsummary
    omega
  · intro hstrays s hs
    obtain ⟨tier, hmem, hname, _, _, hallocated⟩ := exists_tier_of_mem hcontents hs
    have hsum := hbalance tier.name
    have heven := hstrays tier.name (List.mem_map_of_mem hmem)
    rw [hname, hallocated]
    omega

/-- The first half of the planner on the sample. -/
def sampleLocated : Except Error (List Located × TierBytes) :=
  locate sampleBuiltins sampleGraph sampleHierarchy 1 .empty

/-- On the sample every byte finds room, and the accesses do not follow the bytes. -/
private theorem sample_strays :
    ∃ plan ls allocations, samplePlan = .ok plan ∧ sampleLocated = .ok (ls, allocations) ∧
      (∀ l ∈ ls, placedBytes l.parts = l.placement.effectiveBytes) ∧
      ∃ s ∈ plan.tierSummaries, accessBytes plan s.name ≠ s.allocatedBytes := by
  have htest : (samplePlan.toOption.any fun plan => sampleLocated.toOption.any fun located =>
      decide ((∀ l ∈ located.1, placedBytes l.parts = l.placement.effectiveBytes) ∧
        ∃ s ∈ plan.tierSummaries, accessBytes plan s.name ≠ s.allocatedBytes)) = true := by
    decide +kernel
  obtain ⟨plan, hplan, htest⟩ := (Option.any_eq_true _ _).mp htest
  obtain ⟨⟨ls, allocations⟩, hlocated, htest⟩ := (Option.any_eq_true _ _).mp htest
  obtain ⟨hall, hdiffer⟩ := of_decide_eq_true htest
  exact ⟨plan, ls, allocations, toOption_eq_some.mp hplan, toOption_eq_some.mp hlocated, hall,
    hdiffer⟩

/-- The KV tensor lies in the middle tier and is read from the slowest one. -/
theorem middleTier_unread :
    ∃ plan ls allocations, samplePlan = .ok plan ∧ sampleLocated = .ok (ls, allocations) ∧
      (∀ l ∈ ls, placedBytes l.parts = l.placement.effectiveBytes) ∧
      ¬∀ s ∈ plan.tierSummaries, accessBytes plan s.name = s.allocatedBytes := by
  obtain ⟨plan, ls, allocations, hplan, hlocated, hall, s, hs, hne⟩ := sample_strays
  exact ⟨plan, ls, allocations, hplan, hlocated, hall, fun h => hne (h s hs)⟩

theorem access_follows_placement_iff_sample :
    ∃ plan ls allocations, samplePlan = .ok plan ∧ sampleLocated = .ok (ls, allocations) ∧
      ((∀ s ∈ plan.tierSummaries, accessBytes plan s.name = s.allocatedBytes) ↔
        StraysBalance sampleHierarchy ls) := by
  obtain ⟨plan, ls, allocations, hplan, hlocated, hall, _⟩ := sample_strays
  exact ⟨plan, ls, allocations, hplan, hlocated,
    access_follows_placement_iff hplan hlocated hall⟩

end Residency

end NpuArc
