import NpuArc.Memory.Filling

/-!
# Safety of residency plans

A plan never allocates more of a tier than its capacity minus its reserve, never more
in total than the items need, and never splits weights or KV tensors.
-/

namespace NpuArc

namespace Residency

variable {py : Builtins} {graph : WorkloadGraph} {hierarchy : MemoryHierarchy}
  {residentModels : ℤ} {queueBuffers : Dict String ℤ} {allowSpill : Bool}
  {plan : MemoryAccessPlan} {ls : List Located} {allocations : TierBytes}

/-- A plan is made of the located items of the first half. -/
theorem buildMemoryAccessPlan_eq_ok :
    buildMemoryAccessPlan py graph hierarchy residentModels queueBuffers allowSpill = .ok plan ↔
      ∃ ls allocations,
        locate py graph hierarchy residentModels queueBuffers = .ok (ls, allocations) ∧
        (allowSpill = true ∨ ((sortedPlacements ls).map (·.spillBytes)).sum = 0) ∧
        plan.toPlanContents = planContents hierarchy (sortedPlacements ls) allocations ∧
        plan.digest = py.digestSha256 plan.toPlanContents := by
  unfold buildMemoryAccessPlan
  constructor
  · intro h
    obtain ⟨⟨ls, allocations⟩, hlocate, h⟩ := bind_eq_ok.mp h
    dsimp only at h
    split_ifs at h with hspill
    · cases h
    · cases h
      refine ⟨ls, allocations, hlocate, ?_, rfl, rfl⟩
      by_contra hneither
      apply hspill
      simp only [not_or, Bool.not_eq_true] at hneither
      simp only [hneither.1, Bool.not_false, true_and]
      omega
  · rintro ⟨ls, allocations, hlocate, hspill, hcontents, hdigest⟩
    rw [hlocate, bind_eq_ok_left]
    dsimp only
    have hkept : ¬((!allowSpill) = true ∧ 0 < ((sortedPlacements ls).map (·.spillBytes)).sum) := by
      rintro ⟨hforbid, hpos⟩
      rcases hspill with hspill | hspill
      · simp [hspill] at hforbid
      · omega
    rw [if_neg hkept, ← hcontents, ← hdigest]

theorem sortedPlacements_perm (ls : List Located) :
    (sortedPlacements ls).Perm (ls.map (·.placement)) :=
  List.perm_insertionSort _ _

/-- The summaries of a plan list each tier with its allocations. -/
theorem tierSummaries_perm
    (hcontents : plan.toPlanContents = planContents hierarchy (sortedPlacements ls) allocations) :
    ∃ spillIn spillOut, plan.tierSummaries.Perm
      (hierarchy.tiers.map (tierSummary allocations spillIn spillOut)) := by
  have hsummaries : plan.tierSummaries = _ := congrArg (·.tierSummaries) hcontents
  rw [hsummaries]
  exact ⟨_, _, List.perm_insertionSort _ _⟩

theorem exists_tier_of_mem
    (hcontents : plan.toPlanContents = planContents hierarchy (sortedPlacements ls) allocations)
    {s : TierSummary} (hs : s ∈ plan.tierSummaries) :
    ∃ tier ∈ hierarchy.tiers, s.name = tier.name ∧ s.capacityBytes = tier.capacityBytes ∧
      s.reserveBytes = tier.reserveBytes ∧ s.allocatedBytes = allocations tier.name := by
  obtain ⟨spillIn, spillOut, hperm⟩ := tierSummaries_perm hcontents
  rw [hperm.mem_iff, List.mem_map] at hs
  obtain ⟨tier, hmem, rfl⟩ := hs
  exact ⟨tier, hmem, rfl, rfl, rfl, rfl⟩

/-- The bytes that a plan allocates over all tiers. -/
def totalAllocated (plan : MemoryAccessPlan) : ℕ :=
  (plan.tierSummaries.map (·.allocatedBytes)).sum

/-- The bytes that all items of a plan need. -/
def totalEffective (plan : MemoryAccessPlan) : ℕ :=
  (plan.placements.map (·.effectiveBytes)).sum

private theorem sum_map_eq_iff {ι : Type} {f g : ι → ℕ} {l : List ι} (hle : ∀ i ∈ l, f i ≤ g i) :
    (l.map f).sum = (l.map g).sum ↔ ∀ i ∈ l, f i = g i := by
  induction l with
  | nil => simp
  | cons i l ih =>
    have hfirst := hle i List.mem_cons_self
    have hrest := fun j hj => hle j (List.mem_cons_of_mem i hj)
    have hsum := List.sum_le_sum hrest
    rw [List.map_cons, List.map_cons, List.sum_cons, List.sum_cons, List.forall_mem_cons,
      ← ih hrest]
    omega

theorem totalEffective_eq
    (hcontents : plan.toPlanContents = planContents hierarchy (sortedPlacements ls) allocations) :
    totalEffective plan = (ls.map fun l => l.placement.effectiveBytes).sum := by
  have hplacements : plan.placements = sortedPlacements ls := congrArg (·.placements) hcontents
  unfold totalEffective
  rw [hplacements, ((sortedPlacements_perm ls).map _).sum_eq, List.map_map]
  rfl

/-- Over distinct tiers, the allocated bytes are the bytes of all parts. -/
theorem totalAllocated_eq (hnames : hierarchy.names.Nodup)
    (hplaced : PlacedAll hierarchy (fun _ => 0) ls allocations)
    (hcontents : plan.toPlanContents = planContents hierarchy (sortedPlacements ls) allocations) :
    totalAllocated plan = (ls.map fun l => placedBytes l.parts).sum := by
  obtain ⟨spillIn, spillOut, hperm⟩ := tierSummaries_perm hcontents
  have hsum : totalAllocated plan = (hierarchy.names.map allocations).sum := by
    unfold totalAllocated
    rw [(hperm.map _).sum_eq, List.map_map, MemoryHierarchy.names, List.map_map]
    rfl
  rw [hsum, hplaced.total hnames]
  simp

/-- A plan over distinct tiers is safe: each tier holds its allocations beside its
reserve, no more bytes are allocated than the items need and exactly as many if each
found room for all its bytes, the bytes of each placement add up, and weights and KV
tensors lie in one tier or nowhere. -/
theorem plan_safe (hnames : hierarchy.names.Nodup)
    (hplan : buildMemoryAccessPlan py graph hierarchy residentModels queueBuffers allowSpill =
      .ok plan) :
    (∀ s ∈ plan.tierSummaries, s.allocatedBytes + s.reserveBytes ≤ s.capacityBytes) ∧
    totalAllocated plan ≤ totalEffective plan ∧
    (∀ p ∈ plan.placements, p.fullBytes + p.partialBytes + p.spillBytes = p.effectiveBytes) ∧
    ∃ ls allocations,
      locate py graph hierarchy residentModels queueBuffers = .ok (ls, allocations) ∧
      plan.placements.Perm (ls.map (·.placement)) ∧
      (∀ s ∈ plan.tierSummaries,
        s.allocatedBytes = (ls.map fun l => bytesIn s.name l.parts).sum) ∧
      (totalAllocated plan = totalEffective plan ↔
        ∀ l ∈ ls, placedBytes l.parts = l.placement.effectiveBytes) ∧
      ∀ l ∈ ls, l.placement.category = .weight ∨ l.placement.category = .kv →
        l.parts = [] ∨
          ∃ tier ∈ hierarchy.tiers, l.parts = [(tier.name, l.placement.effectiveBytes)] := by
  obtain ⟨ls, allocations, hlocate, _, hcontents, _⟩ := buildMemoryAccessPlan_eq_ok.mp hplan
  have hplaced : PlacedAll hierarchy (fun _ => 0) ls allocations := locate_placed hlocate
  have hplacements : plan.placements = sortedPlacements ls := congrArg (·.placements) hcontents
  have hempty : Room hierarchy fun _ => 0 := room_zero hnames (locate_eq_ok.mp hlocate).2.1
  have hroom : Room hierarchy allocations := hplaced.room hnames hempty
  have hle : ∀ l ∈ ls, placedBytes l.parts ≤ l.placement.effectiveBytes := by
    intro l hl
    obtain ⟨x, y, hl⟩ := hplaced.mem hl
    exact hl.placed_le
  have halloc := totalAllocated_eq hnames hplaced hcontents
  have heffective := totalEffective_eq hcontents
  refine ⟨?_, ?_, ?_, ls, allocations, hlocate, ?_, ?_, ?_, ?_⟩
  · intro s hs
    obtain ⟨tier, hmem, _, hcapacity, hreserve, hallocated⟩ := exists_tier_of_mem hcontents hs
    have hfree := hroom tier hmem
    simp only [usable, reservesOf_of_mem hnames hmem] at hfree
    omega
  · rw [halloc, heffective]
    exact List.sum_le_sum hle
  · intro p hp
    rw [hplacements, (sortedPlacements_perm ls).mem_iff, List.mem_map] at hp
    obtain ⟨l, hl, rfl⟩ := hp
    obtain ⟨x, y, hl⟩ := hplaced.mem hl
    exact hl.total
  · rw [hplacements]
    exact sortedPlacements_perm ls
  · intro s hs
    obtain ⟨tier, _, hname, _, _, hallocated⟩ := exists_tier_of_mem hcontents hs
    rw [hallocated, hname, hplaced.allocated, Nat.zero_add]
  · rw [halloc, heffective]
    exact sum_map_eq_iff hle
  · intro l hl hcategory
    obtain ⟨x, y, hl⟩ := hplaced.mem hl
    exact hl.whole (by simpa [isAtomic] using hcategory)

/-! ### A sample plan -/

/-- Lower-casing of the sample's ids and the digest of its plan. -/
def sampleBuiltins : Builtins where
  lower s := String.ofList (s.toList.map Char.toLower)
  digestSha256 _ := "7215ea371b6406085ab9023a1f3972ed54415bf379cf1f94d1839a41c96d802b"

/-- Three tiers of 256, 1024, and 4096 bytes. -/
def sampleHierarchy : MemoryHierarchy where
  tiers := [⟨"sram", 256, 0, by decide⟩, ⟨"on_chip_3d_dram", 1024, 0, by decide⟩,
    ⟨"lpddr5", 4096, 0, by decide⟩]
  alignment_pos := defaultAlignment_pos

/-- A weight, a KV tensor that does not fit the fastest tier, and an activation that is
split over all three. -/
def sampleGraph : WorkloadGraph where
  nodes := [⟨"n_gemm", "gemm"⟩]
  tensors := [
    { tensorId := "weight_0", shape := [.fixed 100], bytes := 100, producerNode := "input" },
    { tensorId := "kv_0", shape := [.fixed 512], bytes := 512, producerNode := "input" },
    { tensorId := "act_0", shape := [.fixed 700], bytes := 700, producerNode := "n_gemm" }]
  nodeIds_nodup := by decide
  tensorIds_nodup := by decide
  producer_mem := by decide
  alias_mem := by decide

/-- The plan of the sample. -/
def samplePlan : Except Error MemoryAccessPlan :=
  buildMemoryAccessPlan sampleBuiltins sampleGraph sampleHierarchy 1 .empty true

theorem plan_safe_sample :
    ∃ plan, samplePlan = .ok plan ∧
      (∀ s ∈ plan.tierSummaries, s.allocatedBytes + s.reserveBytes ≤ s.capacityBytes) ∧
      totalAllocated plan ≤ totalEffective plan ∧
      ∀ p ∈ plan.placements, p.fullBytes + p.partialBytes + p.spillBytes = p.effectiveBytes := by
  have hsome : samplePlan.toOption.isSome = true := by decide +kernel
  obtain ⟨plan, hplan⟩ := Option.isSome_iff_exists.mp hsome
  have hok : samplePlan = .ok plan := toOption_eq_some.mp hplan
  obtain ⟨hroom, htotal, hconserved, _⟩ := plan_safe (by decide) hok
  exact ⟨plan, hok, hroom, htotal, hconserved⟩

end Residency

end NpuArc
