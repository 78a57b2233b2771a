import NpuArc.Memory.Order

/-!
# The spill policy

A plan without spill is meant to be refused when some bytes find room in no tier. The
planner refuses it as soon as some item does not lie whole in its home, the first tier
that its category may use, so it also refuses items that lie in a slower tier. Whether
every item lies in its home is a matter of the loads of the homes alone.
-/

namespace NpuArc

namespace Residency

variable {py : Builtins} {graph : WorkloadGraph} {hierarchy : MemoryHierarchy}
  {residentModels : ℤ} {queueBuffers : Dict String ℤ} {allocations : TierBytes}
  {tiers : List MemoryTier} {n : ℕ}

/-! ### Homes -/

/-- What an item asks of the memory: its category and its effective bytes. -/
structure Demand where
  category : Category
  bytes : ℕ

/-- The name of the first tier that a category may use. -/
def homeName (hierarchy : MemoryHierarchy) (category : Category) : Option String :=
  (eligibleTiers category hierarchy).head?.map (·.name)

/-- The first eligible tier with room, for a whole item or for some of its bytes. -/
def taker (hierarchy : MemoryHierarchy) (allocations : TierBytes) (d : Demand) :
    Option MemoryTier :=
  (eligibleTiers d.category hierarchy).find? fun tier =>
    if isAtomic d.category then
      decide ((d.bytes : ℤ) ≤ usable allocations (reservesOf hierarchy) tier)
    else decide (0 < usable allocations (reservesOf hierarchy) tier)

/-- An item takes no bytes, or the first tier with room is called like its home and holds
all of it. -/
def FitsAtHome (hierarchy : MemoryHierarchy) (allocations : TierBytes) (d : Demand) : Prop :=
  d.bytes = 0 ∨ ∃ tier, taker hierarchy allocations d = some tier ∧
    (d.bytes : ℤ) ≤ usable allocations (reservesOf hierarchy) tier ∧
    homeName hierarchy d.category = some tier.name

/-- The bytes of the items with a home. -/
def homeLoads (hierarchy : MemoryHierarchy) (ds : List Demand) : TierBytes := fun name =>
  (ds.map fun d => if homeName hierarchy d.category = some name then d.bytes else 0).sum

/-- Every item fits its home beside the earlier items in theirs. -/
def AtHome (hierarchy : MemoryHierarchy) (allocations : TierBytes) (ds : List Demand) : Prop :=
  ∀ before d after, ds = before ++ d :: after →
    FitsAtHome hierarchy (fun name => allocations name + homeLoads hierarchy before name) d

@[simp] theorem homeLoads_nil (name : String) : homeLoads hierarchy [] name = 0 := rfl

@[simp] theorem homeLoads_cons (d : Demand) (ds : List Demand) (name : String) :
    homeLoads hierarchy (d :: ds) name =
      (if homeName hierarchy d.category = some name then d.bytes else 0) +
        homeLoads hierarchy ds name := by
  simp [homeLoads]

theorem atHome_nil : AtHome hierarchy allocations [] := by
  intro before d after h
  simp at h

/-- The first item fits its home, and the others fit theirs beside it. -/
theorem atHome_cons {d : Demand} {ds : List Demand} :
    AtHome hierarchy allocations (d :: ds) ↔ FitsAtHome hierarchy allocations d ∧
      AtHome hierarchy (fun name => allocations name + homeLoads hierarchy [d] name) ds := by
  constructor
  · intro h
    refine ⟨by simpa using h [] d ds rfl, fun before e after hds => ?_⟩
    have hone := h (d :: before) e after (by rw [hds, List.cons_append])
    simpa [Nat.add_assoc] using hone
  · rintro ⟨hd, hrest⟩ before e after hds
    cases before with
    | nil =>
      cases hds
      simpa using hd
    | cons d' before =>
      rw [List.cons_append] at hds
      cases hds
      simpa [Nat.add_assoc] using hrest before e after rfl

theorem atHome_append {ds es : List Demand} :
    AtHome hierarchy allocations (ds ++ es) ↔ AtHome hierarchy allocations ds ∧
      AtHome hierarchy (fun name => allocations name + homeLoads hierarchy ds name) es := by
  induction ds generalizing allocations with
  | nil => simp [atHome_nil]
  | cons d ds ih =>
    rw [List.cons_append, atHome_cons, atHome_cons, ih, and_assoc]
    simp [Nat.add_assoc]

/-! ### One item -/

/-- How the planner fills tiers with an item. -/
def fill (hierarchy : MemoryHierarchy) (allocations : TierBytes) (d : Demand) : Filling :=
  if isAtomic d.category then
    fillWhole (reservesOf hierarchy) allocations d.bytes (eligibleTiers d.category hierarchy)
  else fillGreedily (reservesOf hierarchy) (eligibleTiers d.category hierarchy) allocations d.bytes

theorem fillWhole_eq_find (reserves : TierBytes) : fillWhole reserves allocations n tiers =
    (tiers.find? fun tier => decide ((n : ℤ) ≤ usable allocations reserves tier)).elim
      ⟨[], allocations, n⟩
      fun tier => ⟨[(tier.name, n)], allocations.add tier.name n, 0⟩ := by
  induction tiers with
  | nil => rfl
  | cons tier tiers ih =>
    unfold fillWhole
    rw [List.find?_cons]
    by_cases hfits : (n : ℤ) ≤ usable allocations reserves tier
    · simp [hfits]
    · simp [hfits, ih]

/-- Greedy filling starts with the first tier that has room. -/
theorem fillGreedily_cases (reserves : TierBytes) (hn : 0 < n) :
    (tiers.find? fun tier => decide (0 < usable allocations reserves tier)) = none ∧
      fillGreedily reserves tiers allocations n = ⟨[], allocations, n⟩ ∨
    ∃ tier, (tiers.find? fun tier => decide (0 < usable allocations reserves tier)) = some tier ∧
      ((n : ℤ) ≤ usable allocations reserves tier ∧ fillGreedily reserves tiers allocations n =
          ⟨[(tier.name, n)], allocations.add tier.name n, 0⟩ ∨
        usable allocations reserves tier < n ∧ ∃ placed rest, placed < n ∧
          (fillGreedily reserves tiers allocations n).parts = (tier.name, placed) :: rest) := by
  induction tiers with
  | nil => exact Or.inl ⟨rfl, rfl⟩
  | cons tier tiers ih =>
    unfold fillGreedily
    dsimp only
    rw [if_neg (by omega), List.find?_cons]
    by_cases hroom : usable allocations reserves tier ≤ 0
    · rw [if_pos hroom, decide_eq_false (by omega)]
      exact ih
    · rw [if_neg hroom, decide_eq_true (by omega)]
      right
      refine ⟨tier, rfl, ?_⟩
      by_cases hfits : (n : ℤ) ≤ usable allocations reserves tier
      · left
        have hplace : min n (usable allocations reserves tier).toNat = n := by omega
        rw [hplace, Nat.sub_self, fillGreedily_zero]
        exact ⟨hfits, rfl⟩
      · right
        exact ⟨by omega, _, _, by omega, rfl⟩

/-- Where the bytes of an item go, by the first tier with room. -/
theorem fill_cases (hierarchy : MemoryHierarchy) (allocations : TierBytes) {d : Demand}
    (hd : 0 < d.bytes) :
    taker hierarchy allocations d = none ∧
      fill hierarchy allocations d = ⟨[], allocations, d.bytes⟩ ∨
    ∃ tier, taker hierarchy allocations d = some tier ∧
      ((d.bytes : ℤ) ≤ usable allocations (reservesOf hierarchy) tier ∧
        fill hierarchy allocations d =
          ⟨[(tier.name, d.bytes)], allocations.add tier.name d.bytes, 0⟩ ∨
      usable allocations (reservesOf hierarchy) tier < d.bytes ∧ ∃ placed rest,
        placed < d.bytes ∧ (fill hierarchy allocations d).parts = (tier.name, placed) :: rest) := by
  unfold fill taker
  by_cases hatomic : isAtomic d.category = true
  · simp only [hatomic, if_true]
    rw [fillWhole_eq_find]
    cases hfind : (eligibleTiers d.category hierarchy).find? fun tier =>
        decide ((d.bytes : ℤ) ≤ usable allocations (reservesOf hierarchy) tier) with
    | none => exact Or.inl ⟨rfl, rfl⟩
    | some tier =>
      have hfits := List.find?_some hfind
      rw [decide_eq_true_iff] at hfits
      exact Or.inr ⟨tier, rfl, Or.inl ⟨hfits, rfl⟩⟩
  · simp only [if_neg hatomic]
    exact fillGreedily_cases _ hd

theorem fill_fills (hierarchy : MemoryHierarchy) (allocations : TierBytes) (d : Demand) :
    Fills hierarchy allocations d.bytes (fill hierarchy allocations d) := by
  unfold fill
  split_ifs
  · exact fillWhole_fills fun _ => mem_of_mem_eligibleTiers
  · exact fillGreedily_fills fun _ => mem_of_mem_eligibleTiers

/-- An item without bytes is nowhere spilled and takes nothing. -/
private theorem fill_zero (hierarchy : MemoryHierarchy) (allocations : TierBytes) {d : Demand}
    (hd : d.bytes = 0) :
    (fill hierarchy allocations d).allocations = allocations ∧
      (residenceOf (eligibleTiers d.category hierarchy) d.bytes
        (fill hierarchy allocations d)).spillBytes = 0 := by
  constructor
  · unfold fill
    rw [hd]
    split_ifs
    · exact fillWhole_zero _ _
    · rw [fillGreedily_zero]
  · unfold residenceOf
    rw [hd]
    split
    · rfl
    · dsimp only
      split_ifs <;> simp

/-- Nothing of an item is spilled exactly when it fits its home, where it then lies. -/
theorem fill_spill (hierarchy : MemoryHierarchy) (allocations : TierBytes) (d : Demand) :
    ((residenceOf (eligibleTiers d.category hierarchy) d.bytes
        (fill hierarchy allocations d)).spillBytes = 0 ↔ FitsAtHome hierarchy allocations d) ∧
      (FitsAtHome hierarchy allocations d → (fill hierarchy allocations d).allocations =
        fun name => allocations name + homeLoads hierarchy [d] name) := by
  by_cases hd : d.bytes = 0
  · obtain ⟨halloc, hspill⟩ := fill_zero hierarchy allocations hd
    refine ⟨⟨fun _ => Or.inl hd, fun _ => hspill⟩, fun _ => ?_⟩
    funext name
    simp [halloc, hd]
  · have hfits : FitsAtHome hierarchy allocations d ↔ ∃ tier,
        taker hierarchy allocations d = some tier ∧
        (d.bytes : ℤ) ≤ usable allocations (reservesOf hierarchy) tier ∧
        homeName hierarchy d.category = some tier.name := or_iff_right hd
    rw [hfits]
    rcases fill_cases hierarchy allocations (Nat.pos_of_ne_zero hd) with ⟨hnone, hfill⟩ | ⟨tier, htaker, hwhole | hpart⟩
    · -- No tier has room, and the item is spilled.
      rw [hfill, hnone]
      simp [residenceOf, hd]
    · obtain ⟨hroom, hfill⟩ := hwhole
      rw [hfill, htaker]
      by_cases hhome : homeName hierarchy d.category = some tier.name
      · have hfirst : (eligibleTiers d.category hierarchy).head?.map (·.name) =
            some tier.name := hhome
        refine ⟨?_, fun _ => ?_⟩
        · simp [residenceOf, hfirst, hroom, hhome]
        · funext name
          by_cases hname : name = tier.name <;>
            simp [TierBytes.add, hhome, hname, eq_comm]
      · have hfirst : (eligibleTiers d.category hierarchy).head?.map (·.name) ≠
            some tier.name := hhome
        simp [residenceOf, hfirst, hhome, hd]
    · obtain ⟨hroom, placed, rest, hplaced, hparts⟩ := hpart
      rw [htaker]
      have hspilled : (residenceOf (eligibleTiers d.category hierarchy) d.bytes
          (fill hierarchy allocations d)).spillBytes ≠ 0 := by
        have hfull : ¬((fill hierarchy allocations d).remaining = 0 ∧ rest = []) := by
          rintro ⟨hremaining, hrest⟩
          have hsum := (fill_fills hierarchy allocations d).conserved
          rw [hparts, hremaining, hrest] at hsum
          simp only [placedBytes_cons, placedBytes_nil] at hsum
          omega
        unfold residenceOf
        rw [hparts]
        dsimp only
        split_ifs with hone htwo
        · exact absurd ⟨hone.1, hone.2.1⟩ hfull
        · dsimp only
          omega
        · exact hd
      constructor
      · refine ⟨fun h => absurd h hspilled, ?_⟩
        rintro ⟨other, hother, hle, -⟩
        cases hother
        omega
      · rintro ⟨other, hother, hle, -⟩
        cases hother
        omega

/-! ### A run of placements -/

/-- Placing an item is filling tiers with its demand. -/
structure Serves (hierarchy : MemoryHierarchy) (d : Demand) (a : TierBytes) (l : Located)
    (b : TierBytes) : Prop where
  spilled : l.placement.spillBytes = (residenceOf (eligibleTiers d.category hierarchy) d.bytes
    (fill hierarchy a d)).spillBytes
  allocated : b = (fill hierarchy a d).allocations

/-- The demand of a classified tensor. -/
def tensorDemand (hierarchy : MemoryHierarchy) (models : ℕ) (item : TensorSpec × Category) :
    Demand :=
  ⟨item.2, effectiveBytes hierarchy.defaultAlignmentBytes models item⟩

/-- The demand of a queue buffer. -/
def bufferDemand (hierarchy : MemoryHierarchy) (item : String × ℤ) : Demand :=
  ⟨.queue, alignUp item.2.toNat hierarchy.defaultAlignmentBytes⟩

theorem placementForTensor_serves {models : ℕ} {item : TensorSpec × Category} {a b : TierBytes}
    {l : Located} (h : placementForTensor hierarchy models item.1 item.2 a = .ok (l, b)) :
    Serves hierarchy (tensorDemand hierarchy models item) a l b := by
  obtain ⟨-, rfl, rfl⟩ := placementForTensor_eq_ok.mp h
  exact ⟨rfl, rfl⟩

theorem placementForBuffer_serves {item : String × ℤ} {a b : TierBytes} {l : Located}
    (h : placementForBuffer hierarchy item.1 item.2 a = .ok (l, b)) :
    Serves hierarchy (bufferDemand hierarchy item) a l b := by
  unfold placementForBuffer at h
  split_ifs at h
  cases h
  exact ⟨rfl, rfl⟩

/-- Nothing is spilled by a run exactly when all items fit their homes. -/
theorem placeAll_spill {ι : Type} (place : ι → TierBytes → Except Error (Located × TierBytes))
    (demand : ι → Demand)
    (hplace : ∀ item a l b, place item a = .ok (l, b) → Serves hierarchy (demand item) a l b)
    {items : List ι} {a b : TierBytes} {ls : List Located}
    (h : placeAll place items a = .ok (ls, b)) :
    ((ls.map fun l => l.placement.spillBytes).sum = 0 ↔ AtHome hierarchy a (items.map demand)) ∧
      (AtHome hierarchy a (items.map demand) →
        b = fun name => a name + homeLoads hierarchy (items.map demand) name) := by
  induction items generalizing a ls with
  | nil =>
    cases h
    simp [atHome_nil]
  | cons item items ih =>
    obtain ⟨l, c, ks, hitem, hitems, rfl⟩ := placeAll_cons.mp h
    obtain ⟨hspill, halloc⟩ := hplace item a l c hitem
    obtain ⟨hfits, hhome⟩ := fill_spill hierarchy a (demand item)
    rw [← hspill] at hfits
    rw [← halloc] at hhome
    rw [List.map_cons, List.map_cons, List.sum_cons, atHome_cons, Nat.add_eq_zero_iff, hfits]
    by_cases hhere : FitsAtHome hierarchy a (demand item)
    · obtain ⟨hrest, hall⟩ := ih hitems
      rw [hhome hhere] at hrest hall
      refine ⟨and_congr_right fun _ => hrest, fun hathome => ?_⟩
      rw [hall hathome.2]
      funext name
      simp [Nat.add_assoc]
    · exact ⟨⟨fun h => absurd h.1 hhere, fun h => absurd h.1 hhere⟩, fun h => absurd h.1 hhere⟩

/-- The demands of a plan in the order of placement: the tensors, and after them the queue
buffers. -/
def demands (py : Builtins) (graph : WorkloadGraph) (hierarchy : MemoryHierarchy)
    (residentModels : ℤ) (queueBuffers : Dict String ℤ) : List Demand :=
  (sortedTensors py graph).map (tensorDemand hierarchy residentModels.toNat) ++
    (queueBuffers.entries.insertionSort fun a b => a.1 ≤ b.1).map (bufferDemand hierarchy)

/-- A located plan spills nothing exactly when all its demands fit their homes. -/
theorem locate_spill {ls : List Located}
    (h : locate py graph hierarchy residentModels queueBuffers = .ok (ls, allocations)) :
    ((sortedPlacements ls).map (·.spillBytes)).sum = 0 ↔
      AtHome hierarchy (fun _ => 0)
        (demands py graph hierarchy residentModels queueBuffers) := by
  obtain ⟨-, -, -, tensors, a, buffers, htensors, hbuffers, rfl⟩ := locate_eq_ok.mp h
  obtain ⟨htensorSpill, htensorHome⟩ := placeAll_spill _
    (tensorDemand hierarchy residentModels.toNat) (fun _ _ _ _ => placementForTensor_serves)
    htensors
  obtain ⟨hbufferSpill, -⟩ := placeAll_spill _ (bufferDemand hierarchy)
    (fun _ _ _ _ => placementForBuffer_serves) hbuffers
  rw [((sortedPlacements_perm _).map _).sum_nat, List.map_map, demands, atHome_append,
    List.map_append, List.sum_append, Nat.add_eq_zero_iff]
  refine (and_congr htensorSpill hbufferSpill).trans (and_congr_right fun hathome => ?_)
  rw [htensorHome hathome]

/-! ### The policy -/

/-- Some bytes of an item of the plan find room in no tier. -/
def SomeUnplaced (py : Builtins) (graph : WorkloadGraph) (hierarchy : MemoryHierarchy)
    (residentModels : ℤ) (queueBuffers : Dict String ℤ) : Prop :=
  ∃ ls allocations, locate py graph hierarchy residentModels queueBuffers =
    .ok (ls, allocations) ∧ ∃ l ∈ ls, placedBytes l.parts < l.placement.effectiveBytes

/-- Planning without spill fails exactly where planning with spill does or some bytes find
no room, and gives the same plan where it succeeds. -/
structure SpillPolicy (py : Builtins) (graph : WorkloadGraph) (hierarchy : MemoryHierarchy)
    (residentModels : ℤ) (queueBuffers : Dict String ℤ) : Prop where
  raises : (∃ e, buildMemoryAccessPlan py graph hierarchy residentModels queueBuffers false =
      .error e) ↔
    (∃ e, buildMemoryAccessPlan py graph hierarchy residentModels queueBuffers true = .error e) ∨
      SomeUnplaced py graph hierarchy residentModels queueBuffers
  same : ∀ plan, buildMemoryAccessPlan py graph hierarchy residentModels queueBuffers false =
      .ok plan →
    buildMemoryAccessPlan py graph hierarchy residentModels queueBuffers true = .ok plan

/-- Planning with spill fails exactly when the items cannot be located. -/
theorem plan_error_iff : (∃ e, buildMemoryAccessPlan py graph hierarchy residentModels
      queueBuffers true = .error e) ↔
    ∃ e, locate py graph hierarchy residentModels queueBuffers = .error e := by
  unfold buildMemoryAccessPlan
  cases hlocate : locate py graph hierarchy residentModels queueBuffers with
  | error e => exact ⟨fun _ => ⟨e, rfl⟩, fun _ => ⟨e, rfl⟩⟩
  | ok r =>
    rw [bind_eq_ok_left]
    simp

/-- Planning without spill also fails when something is spilled. -/
theorem plan_error_iff_spill {ls : List Located}
    (h : locate py graph hierarchy residentModels queueBuffers = .ok (ls, allocations)) :
    (∃ e, buildMemoryAccessPlan py graph hierarchy residentModels queueBuffers false = .error e) ↔
      ((sortedPlacements ls).map (·.spillBytes)).sum ≠ 0 := by
  unfold buildMemoryAccessPlan
  rw [h, bind_eq_ok_left]
  dsimp only
  by_cases hspill : ((sortedPlacements ls).map (·.spillBytes)).sum = 0
  · simp [hspill]
  · rw [if_pos ⟨rfl, Nat.pos_of_ne_zero hspill⟩]
    exact ⟨fun _ => hspill, fun _ => ⟨_, rfl⟩⟩

/-- Bytes that find no room are spilled. -/
theorem spilled_of_unplaced {a b : TierBytes} {l : Located} (h : Placed hierarchy a l b)
    (hunplaced : placedBytes l.parts < l.placement.effectiveBytes) :
    l.placement.spillBytes ≠ 0 := by
  obtain ⟨f, hparts, -, hfills, hresidence⟩ := h.filled
  have hsum := hfills.conserved
  have hspill : l.placement.spillBytes = (residenceOf
      (eligibleTiers l.placement.category hierarchy) l.placement.effectiveBytes f).spillBytes :=
    congrArg (·.spillBytes) hresidence
  rw [hspill]
  rw [← hparts] at hunplaced
  unfold residenceOf
  split
  · next hnil =>
    dsimp only
    omega
  · next name placed rest hcons =>
    rw [hcons, placedBytes_cons] at hunplaced hsum
    dsimp only at hunplaced hsum ⊢
    split_ifs with hfull
    · omega
    · dsimp only
      omega
    · dsimp only
      omega

/-- Something is spilled wherever some bytes find no room. -/
theorem spill_of_someUnplaced {ls : List Located}
    (h : locate py graph hierarchy residentModels queueBuffers = .ok (ls, allocations))
    (hunplaced : SomeUnplaced py graph hierarchy residentModels queueBuffers) :
    ((sortedPlacements ls).map (·.spillBytes)).sum ≠ 0 := by
  obtain ⟨ls', allocations', hlocate, l, hl, hlt⟩ := hunplaced
  rw [h] at hlocate
  cases hlocate
  obtain ⟨x, y, hplaced⟩ := (locate_placed h).mem hl
  have hspilled := spilled_of_unplaced hplaced hlt
  rw [((sortedPlacements_perm ls).map _).sum_nat]
  intro hsum
  rw [List.sum_eq_zero_iff] at hsum
  exact hspilled (hsum _ (List.mem_map_of_mem (List.mem_map_of_mem hl)))

/-- The planner refuses to spill for the right reason exactly on inputs that it rejects
anyway, that leave some bytes without room, or whose items all fit their homes. -/
theorem spillPolicy_iff (py : Builtins) (graph : WorkloadGraph) (hierarchy : MemoryHierarchy)
    (residentModels : ℤ) (queueBuffers : Dict String ℤ) :
    SpillPolicy py graph hierarchy residentModels queueBuffers ↔
      (∃ e, buildMemoryAccessPlan py graph hierarchy residentModels queueBuffers true =
        .error e) ∨
      SomeUnplaced py graph hierarchy residentModels queueBuffers ∨
      AtHome hierarchy (fun _ => 0)
        (demands py graph hierarchy residentModels queueBuffers) := by
  have hsame : ∀ plan, buildMemoryAccessPlan py graph hierarchy residentModels queueBuffers
      false = .ok plan →
      buildMemoryAccessPlan py graph hierarchy residentModels queueBuffers true = .ok plan := by
    intro plan hplan
    obtain ⟨ls, allocations, hlocate, -, hcontents, hdigest⟩ :=
      buildMemoryAccessPlan_eq_ok.mp hplan
    exact buildMemoryAccessPlan_eq_ok.mpr
      ⟨ls, allocations, hlocate, Or.inl rfl, hcontents, hdigest⟩
  have hpolicy : SpillPolicy py graph hierarchy residentModels queueBuffers ↔ _ :=
    ⟨fun h => h.raises, fun h => ⟨h, hsame⟩⟩
  rw [hpolicy, plan_error_iff]
  cases hlocate : locate py graph hierarchy residentModels queueBuffers with
  | error e =>
    have hraises : ∃ e, buildMemoryAccessPlan py graph hierarchy residentModels queueBuffers
        false = .error e := by
      unfold buildMemoryAccessPlan
      rw [hlocate]
      exact ⟨e, rfl⟩
    simp [hraises]
  | ok r =>
    obtain ⟨ls, allocations⟩ := r
    have hunplaced := spill_of_someUnplaced hlocate
    rw [plan_error_iff_spill hlocate, ← locate_spill hlocate]
    have hok : ¬∃ e, (Except.ok (ls, allocations) : Except Error _) = .error e := by simp
    tauto

/-! ### Hierarchies with distinct tiers -/

/-- Over distinct tiers, an item fits its home when the first eligible tier holds it. -/
theorem fitsAtHome_iff (hnames : hierarchy.names.Nodup) (d : Demand) :
    FitsAtHome hierarchy allocations d ↔ d.bytes = 0 ∨ ∃ tier,
      (eligibleTiers d.category hierarchy).head? = some tier ∧
        (d.bytes : ℤ) ≤ usable allocations (reservesOf hierarchy) tier := by
  unfold FitsAtHome homeName taker
  by_cases hd : d.bytes = 0
  · simp [hd]
  rw [or_iff_right hd, or_iff_right hd]
  cases heligible : eligibleTiers d.category hierarchy with
  | nil => simp
  | cons first rest =>
    have htiers : ∀ tier ∈ first :: rest, tier ∈ hierarchy.tiers := by
      intro tier htier
      rw [← heligible] at htier
      exact mem_of_mem_eligibleTiers htier
    simp only [List.head?_cons, Option.map_some, Option.some.injEq]
    constructor
    · rintro ⟨tier, htaker, hroom, hname⟩
      have hmem := htiers tier (List.mem_of_find?_eq_some htaker)
      have hsame : first = tier :=
        List.inj_on_of_nodup_map hnames (htiers first List.mem_cons_self) hmem hname
      exact ⟨tier, hsame, hroom⟩
    · rintro ⟨tier, rfl, hroom⟩
      refine ⟨first, ?_, hroom, rfl⟩
      rw [List.find?_cons_of_pos]
      split <;> rw [decide_eq_true_iff] <;> omega

theorem homeName_of_head {category : Category} {tier : MemoryTier}
    (h : (eligibleTiers category hierarchy).head? = some tier) :
    homeName hierarchy category = some tier.name := by
  rw [homeName, h, Option.map_some]

/-- A loaded home is the home of an item with bytes. -/
theorem exists_of_homeLoads {ds : List Demand} {name : String}
    (h : homeLoads hierarchy ds name ≠ 0) :
    ∃ d ∈ ds, 0 < d.bytes ∧ homeName hierarchy d.category = some name := by
  by_contra hnone
  apply h
  unfold homeLoads
  rw [List.sum_eq_zero_iff]
  intro n hn
  obtain ⟨d, hd, rfl⟩ := List.mem_map.mp hn
  split_ifs with hhome
  · by_contra hbytes
    exact hnone ⟨d, hd, Nat.pos_of_ne_zero hbytes, hhome⟩
  · rfl

/-- Over distinct tiers, all items fit their homes exactly when every home holds the load of
its items. -/
theorem atHome_iff_loads (hnames : hierarchy.names.Nodup) (ds : List Demand) :
    AtHome hierarchy allocations ds ↔ ∀ d ∈ ds, 0 < d.bytes → ∃ tier,
      (eligibleTiers d.category hierarchy).head? = some tier ∧
        (homeLoads hierarchy ds tier.name : ℤ) ≤
          usable allocations (reservesOf hierarchy) tier := by
  induction ds generalizing allocations with
  | nil => simp [atHome_nil]
  | cons d ds ih =>
    have hload : ∀ tier : MemoryTier, ((homeLoads hierarchy ds tier.name : ℤ) ≤
        usable (fun name => allocations name + homeLoads hierarchy [d] name)
          (reservesOf hierarchy) tier) ↔
        (homeLoads hierarchy (d :: ds) tier.name : ℤ) ≤
          usable allocations (reservesOf hierarchy) tier := by
      intro tier
      simp only [usable, homeLoads_cons, homeLoads_nil]
      omega
    rw [atHome_cons, fitsAtHome_iff hnames, ih, List.forall_mem_cons]
    simp only [hload]
    refine and_congr_left fun hrest => ?_
    constructor
    · intro hfits hd
      obtain ⟨tier, hhead, hroom⟩ := hfits.resolve_left (by omega)
      refine ⟨tier, hhead, ?_⟩
      by_cases hother : homeLoads hierarchy ds tier.name = 0
      · rw [homeLoads_cons, if_pos (homeName_of_head hhead), hother, Nat.add_zero]
        exact hroom
      · -- Another item shares the home, and its bound is on the same load.
        obtain ⟨e, he, hbytes, hhome⟩ := exists_of_homeLoads hother
        obtain ⟨tier', hhead', hroom'⟩ := hrest e he hbytes
        rw [homeName_of_head hhead', Option.some.injEq] at hhome
        have hmem := mem_of_mem_eligibleTiers (List.mem_of_mem_head? hhead)
        have hmem' := mem_of_mem_eligibleTiers (List.mem_of_mem_head? hhead')
        rw [← List.inj_on_of_nodup_map hnames hmem' hmem hhome]
        exact hroom'
    · intro hfits
      rcases Nat.eq_zero_or_pos d.bytes with hzero | hd
      · exact Or.inl hzero
      · obtain ⟨tier, hhead, hroom⟩ := hfits hd
        refine Or.inr ⟨tier, hhead, ?_⟩
        rw [homeLoads_cons, if_pos (homeName_of_head hhead)] at hroom
        omega

/-- Every byte of the sample lies in a tier, and yet planning it without spill fails. -/
theorem slowerTier_refused :
    ¬SpillPolicy sampleBuiltins sampleGraph sampleHierarchy 1 .empty := by
  intro h
  have hrefused : (buildMemoryAccessPlan sampleBuiltins sampleGraph sampleHierarchy 1 .empty
      false).toOption = none := by
    decide +kernel
  have hraises : ∃ e, buildMemoryAccessPlan sampleBuiltins sampleGraph sampleHierarchy 1 .empty
      false = .error e := by
    cases hplan : buildMemoryAccessPlan sampleBuiltins sampleGraph sampleHierarchy 1 .empty
      false with
    | error e => exact ⟨e, rfl⟩
    | ok plan =>
      rw [hplan] at hrefused
      cases hrefused
  have hplaced : ((locate sampleBuiltins sampleGraph sampleHierarchy 1 .empty).toOption.map
      fun r => r.1.all fun l => decide (l.placement.effectiveBytes ≤ placedBytes l.parts)) =
      some true := by
    decide +kernel
  rcases h.raises.mp hraises with herror | ⟨ls, allocations, hlocate, l, hl, hlt⟩
  · obtain ⟨e, hlocate⟩ := plan_error_iff.mp herror
    rw [hlocate] at hplaced
    cases hplaced
  · rw [hlocate] at hplaced
    have hall : (ls.all fun l => decide (l.placement.effectiveBytes ≤ placedBytes l.parts)) =
        true := Option.some.inj hplaced
    have hle := List.all_eq_true.mp hall l hl
    rw [decide_eq_true_iff] at hle
    omega

end Residency

end NpuArc
