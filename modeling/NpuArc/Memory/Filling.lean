import NpuArc.Memory.Residency
import Mathlib.Algebra.BigOperators.Group.List.Lemmas
import Mathlib.Algebra.Order.BigOperators.Group.List

/-!
# Where the bytes of an item go

One placement, whether of a tensor or of a queue buffer, allocates its parts and
nothing else, never more than a tier has room for, and describes them by its state. A
run of placements is a chain of such steps, and the totals of a plan are read off it.
-/

namespace NpuArc

namespace Residency

variable {hierarchy : MemoryHierarchy} {allocations reserves : TierBytes}
  {tiers : List MemoryTier} {tier : MemoryTier} {name : String} {n effective : ℕ}

/-! ### Parts -/

/-- The bytes of some parts that lie in a tier. -/
def bytesIn (name : String) (parts : List (String × ℕ)) : ℕ :=
  (parts.map fun part => if part.1 = name then part.2 else 0).sum

/-- All bytes of some parts. -/
def placedBytes (parts : List (String × ℕ)) : ℕ := (parts.map Prod.snd).sum

@[simp] theorem bytesIn_nil : bytesIn name [] = 0 := rfl

@[simp] theorem bytesIn_cons (part : String × ℕ) (parts : List (String × ℕ)) :
    bytesIn name (part :: parts) = (if part.1 = name then part.2 else 0) + bytesIn name parts := by
  simp [bytesIn]

@[simp] theorem placedBytes_nil : placedBytes [] = 0 := rfl

@[simp] theorem placedBytes_cons (part : String × ℕ) (parts : List (String × ℕ)) :
    placedBytes (part :: parts) = part.2 + placedBytes parts := by
  simp [placedBytes]

/-- The bytes of some parts, tier by tier. -/
theorem sum_bytesIn {names : List String} (hnodup : names.Nodup) (parts : List (String × ℕ))
    (hparts : ∀ part ∈ parts, part.1 ∈ names) :
    (names.map fun name => bytesIn name parts).sum = placedBytes parts := by
  induction parts with
  | nil => simp
  | cons part parts ih =>
    have hrest := ih fun p hp => hparts p (List.mem_cons_of_mem _ hp)
    have hone : (names.map fun name => if part.1 = name then part.2 else 0).sum = part.2 := by
      have hmem : part.1 ∈ names := hparts part List.mem_cons_self
      rw [List.sum_map_eq_nsmul_single part.1, hnodup.count, if_pos hmem, if_pos rfl, one_nsmul]
      intro name hne _
      rw [if_neg hne.symm]
    simp only [bytesIn_cons, placedBytes_cons, List.sum_map_add, hone, hrest]

/-- Take parts away from the free space. -/
def TierBytes.addParts (bytes : TierBytes) (parts : List (String × ℕ)) : TierBytes :=
  fun name => bytes name + bytesIn name parts

/-! ### Room -/

/-- No tier is filled beyond the capacity that its reserve leaves. -/
def Room (hierarchy : MemoryHierarchy) (allocations : TierBytes) : Prop :=
  ∀ tier ∈ hierarchy.tiers, 0 ≤ usable allocations (reservesOf hierarchy) tier

/-- Allocating no more bytes of a tier than are usable keeps the room. -/
theorem Room.add (hnames : hierarchy.names.Nodup) (h : Room hierarchy allocations)
    (hmem : tier ∈ hierarchy.tiers)
    (hn : (n : ℤ) ≤ usable allocations (reservesOf hierarchy) tier) :
    Room hierarchy (allocations.add tier.name n) := by
  intro other hother
  have hroom := h other hother
  by_cases hname : other.name = tier.name
  · have heq : other = tier := List.inj_on_of_nodup_map hnames hother hmem hname
    subst heq
    simp only [usable, TierBytes.add, if_true] at hn ⊢
    omega
  · simpa only [usable, TierBytes.add, if_neg hname] using hroom

theorem reservesOf_of_mem (hnames : hierarchy.names.Nodup) (hmem : tier ∈ hierarchy.tiers) :
    reservesOf hierarchy tier.name = tier.reserveBytes := by
  unfold reservesOf
  cases hfind : hierarchy.tiers.reverse.find? fun t => decide (t.name = tier.name) with
  | none =>
    have hnone := List.find?_eq_none.mp hfind tier (List.mem_reverse.mpr hmem)
    simp at hnone
  | some other =>
    have hname : other.name = tier.name := by simpa using List.find?_some hfind
    have hother : other ∈ hierarchy.tiers := List.mem_reverse.mp (List.mem_of_find?_eq_some hfind)
    rw [List.inj_on_of_nodup_map hnames hother hmem hname]
    rfl

/-- Before any placement the tiers have room. -/
theorem room_zero (hnames : hierarchy.names.Nodup) (hvalid : validateTiers hierarchy = .ok ()) :
    Room hierarchy fun _ => 0 := by
  intro tier hmem
  have htier := forM_eq_ok.mp hvalid tier hmem
  split_ifs at htier with hreserve
  simp only [usable, reservesOf_of_mem hnames hmem]
  omega

/-! ### Filling tiers -/

/-- What filling some tiers with a number of bytes has done. -/
structure Fills (hierarchy : MemoryHierarchy) (allocations : TierBytes) (effective : ℕ)
    (f : Filling) : Prop where
  /-- The parts are allocated and nothing else. -/
  allocated : f.allocations = allocations.addParts f.parts
  /-- Every byte is placed or remains. -/
  conserved : placedBytes f.parts + f.remaining = effective
  /-- The parts lie in tiers of the hierarchy. -/
  known : ∀ part ∈ f.parts, part.1 ∈ hierarchy.names
  /-- The tiers keep their room. -/
  room : hierarchy.names.Nodup → Room hierarchy allocations → Room hierarchy f.allocations

private theorem addParts_singleton : allocations.addParts [(name, n)] = allocations.add name n := by
  funext other
  by_cases h : other = name
  · simp [TierBytes.addParts, TierBytes.add, h]
  · simp [TierBytes.addParts, TierBytes.add, h, Ne.symm h]

private theorem addParts_cons (part : String × ℕ) (parts : List (String × ℕ)) :
    allocations.addParts (part :: parts) = (allocations.add part.1 part.2).addParts parts := by
  funext other
  by_cases h : other = part.1
  · simp [TierBytes.addParts, TierBytes.add, h, Nat.add_assoc]
  · simp [TierBytes.addParts, TierBytes.add, h, Ne.symm h]

/-- Placing nothing. -/
private theorem Fills.none : Fills hierarchy allocations effective ⟨[], allocations, effective⟩ where
  allocated := by funext other; simp [TierBytes.addParts]
  conserved := by simp
  known := by simp
  room _ h := h

theorem fillWhole_fills (htiers : ∀ tier ∈ tiers, tier ∈ hierarchy.tiers) :
    Fills hierarchy allocations effective
      (fillWhole (reservesOf hierarchy) allocations effective tiers) := by
  induction tiers with
  | nil => exact Fills.none
  | cons tier tiers ih =>
    have hmem : tier ∈ hierarchy.tiers := htiers tier List.mem_cons_self
    unfold fillWhole
    split_ifs with hfits
    · constructor
      · exact addParts_singleton.symm
      · simp
      · intro part hpart
        rw [List.mem_singleton] at hpart
        subst hpart
        exact List.mem_map_of_mem hmem
      · intro hnames hroom
        exact hroom.add hnames hmem hfits
    · exact ih fun t ht => htiers t (List.mem_cons_of_mem _ ht)

theorem fillGreedily_fills (htiers : ∀ tier ∈ tiers, tier ∈ hierarchy.tiers) :
    Fills hierarchy allocations effective
      (fillGreedily (reservesOf hierarchy) tiers allocations effective) := by
  induction tiers generalizing allocations effective with
  | nil => exact Fills.none
  | cons tier tiers ih =>
    have hmem : tier ∈ hierarchy.tiers := htiers tier List.mem_cons_self
    have htiers' : ∀ t ∈ tiers, t ∈ hierarchy.tiers := fun t ht =>
      htiers t (List.mem_cons_of_mem _ ht)
    unfold fillGreedily
    dsimp only
    split_ifs with hdone hfull
    · exact Fills.none
    · exact ih htiers'
    · generalize hplace : min effective (usable allocations (reservesOf hierarchy) tier).toNat = place
      have hrest : Fills hierarchy (allocations.add tier.name place) (effective - place)
        (fillGreedily (reservesOf hierarchy) tiers (allocations.add tier.name place)
          (effective - place)) := ih htiers'
      constructor
      · rw [addParts_cons]
        exact hrest.allocated
      · have hsum := hrest.conserved
        rw [placedBytes_cons]
        dsimp only
        omega
      · intro part hpart
        rcases List.mem_cons.mp hpart with rfl | hpart
        · exact List.mem_map_of_mem hmem
        · exact hrest.known part hpart
      · intro hnames hroom
        apply hrest.room hnames
        apply hroom.add hnames hmem
        omega

/-! ### One placement -/

/-- The residence that a placement records. -/
def TensorPlacement.residence (p : TensorPlacement) : Residence :=
  ⟨p.state, p.destinationTier, p.spillTier, p.fullBytes, p.partialBytes, p.spillBytes⟩

/-- What placing one item has done to the free space, and what its placement says. -/
structure Placed (hierarchy : MemoryHierarchy) (allocations : TierBytes) (l : Located)
    (allocations' : TierBytes) : Prop where
  /-- The parts come from filling tiers with the effective bytes, and the placement
  describes them. -/
  filled : ∃ f, f.parts = l.parts ∧ f.allocations = allocations' ∧
    Fills hierarchy allocations l.placement.effectiveBytes f ∧
    l.placement.residence = residenceOf (eligibleTiers l.placement.category hierarchy)
      l.placement.effectiveBytes f
  /-- An item of an atomic category lies in one tier or nowhere. -/
  whole : isAtomic l.placement.category = true → l.parts = [] ∨
    ∃ tier ∈ hierarchy.tiers, l.parts = [(tier.name, l.placement.effectiveBytes)]

theorem mem_of_mem_eligibleTiers {category : Category}
    (h : tier ∈ eligibleTiers category hierarchy) : tier ∈ hierarchy.tiers := by
  unfold eligibleTiers at h
  split_ifs at h with hweight
  · cases hdrop : hierarchy.tiers.dropWhile fun tier => decide (tier.name ≠ onChip3dDram) with
    | nil =>
      rw [hdrop] at h
      exact h
    | cons first rest =>
      rw [hdrop] at h
      dsimp only at h
      rw [← hdrop] at h
      exact (List.dropWhile_sublist _).subset h
  · exact h

private theorem residence_placementOf {id : String} {category : Category}
    {size alignment aligned replication : ℕ} (r : Residence) :
    (placementOf id category size alignment aligned replication r).residence = r := rfl

private theorem fillWhole_parts (htiers : ∀ tier ∈ tiers, tier ∈ hierarchy.tiers) :
    (fillWhole reserves allocations effective tiers).parts = [] ∨
      ∃ tier ∈ hierarchy.tiers,
        (fillWhole reserves allocations effective tiers).parts = [(tier.name, effective)] := by
  induction tiers with
  | nil => exact Or.inl rfl
  | cons tier tiers ih =>
    unfold fillWhole
    split_ifs
    · exact Or.inr ⟨tier, htiers tier List.mem_cons_self, rfl⟩
    · exact ih fun t ht => htiers t (List.mem_cons_of_mem _ ht)

/-- The effective bytes of a classified tensor. -/
def effectiveBytes (alignment residentModels : ℕ) (item : TensorSpec × Category) : ℕ :=
  alignUp (tensorFootprintBytes item.1) alignment *
    if item.2 = .weight then residentModels else 1

/-- How the planner fills tiers with a classified tensor. -/
def fillingOf (hierarchy : MemoryHierarchy) (residentModels : ℕ) (item : TensorSpec × Category)
    (allocations : TierBytes) : Filling :=
  let effective := effectiveBytes hierarchy.defaultAlignmentBytes residentModels item
  if isAtomic item.2 then
    fillWhole (reservesOf hierarchy) allocations effective (eligibleTiers item.2 hierarchy)
  else fillGreedily (reservesOf hierarchy) (eligibleTiers item.2 hierarchy) allocations effective

/-- Where a classified tensor is placed by a filling. -/
def locatedOf (hierarchy : MemoryHierarchy) (residentModels : ℕ) (item : TensorSpec × Category)
    (filling : Filling) : Located :=
  ⟨placementOf item.1.tensorId item.2 item.1.bytes hierarchy.defaultAlignmentBytes
      (alignUp (tensorFootprintBytes item.1) hierarchy.defaultAlignmentBytes)
      (if item.2 = .weight then residentModels else 1)
      (residenceOf (eligibleTiers item.2 hierarchy)
        (effectiveBytes hierarchy.defaultAlignmentBytes residentModels item) filling),
    filling.parts⟩

theorem placementForTensor_eq_ok {residentModels : ℕ} {item : TensorSpec × Category} {l : Located}
    {allocations' : TierBytes} :
    placementForTensor hierarchy residentModels item.1 item.2 allocations = .ok (l, allocations') ↔
      eligibleTiers item.2 hierarchy ≠ [] ∧
      l = locatedOf hierarchy residentModels item
        (fillingOf hierarchy residentModels item allocations) ∧
      allocations' = (fillingOf hierarchy residentModels item allocations).allocations := by
  unfold placementForTensor
  dsimp only
  by_cases hnone : eligibleTiers item.2 hierarchy = []
  · rw [if_pos hnone]
    constructor
    · intro h
      cases h
    · rintro ⟨hne, _⟩
      exact absurd hnone hne
  · rw [if_neg hnone]
    constructor
    · intro h
      cases h
      exact ⟨hnone, rfl, rfl⟩
    · rintro ⟨_, rfl, rfl⟩
      rfl

theorem placementForTensor_placed {residentModels : ℕ} {item : TensorSpec × Category}
    {l : Located} {allocations' : TierBytes}
    (h : placementForTensor hierarchy residentModels item.1 item.2 allocations =
      .ok (l, allocations')) : Placed hierarchy allocations l allocations' := by
  have htiers : ∀ tier ∈ eligibleTiers item.2 hierarchy, tier ∈ hierarchy.tiers :=
    fun _ => mem_of_mem_eligibleTiers
  obtain ⟨_, rfl, rfl⟩ := placementForTensor_eq_ok.mp h
  constructor
  · refine ⟨fillingOf hierarchy residentModels item allocations, rfl, rfl, ?_,
      residence_placementOf _⟩
    unfold fillingOf
    dsimp only
    split_ifs
    · exact fillWhole_fills htiers
    · exact fillGreedily_fills htiers
  · intro hatomic
    have hwhole : fillingOf hierarchy residentModels item allocations =
        fillWhole (reservesOf hierarchy) allocations
          (effectiveBytes hierarchy.defaultAlignmentBytes residentModels item)
          (eligibleTiers item.2 hierarchy) := if_pos hatomic
    unfold locatedOf
    rw [hwhole]
    exact fillWhole_parts htiers

theorem placementForBuffer_placed {bufferId : String} {size : ℤ} {l : Located}
    {allocations' : TierBytes}
    (h : placementForBuffer hierarchy bufferId size allocations = .ok (l, allocations')) :
    Placed hierarchy allocations l allocations' := by
  have htiers : ∀ tier ∈ eligibleTiers .queue hierarchy, tier ∈ hierarchy.tiers :=
    fun _ => mem_of_mem_eligibleTiers
  unfold placementForBuffer at h
  split_ifs at h with hneg
  cases h
  constructor
  · refine ⟨fillGreedily (reservesOf hierarchy)
      (eligibleTiers .queue hierarchy) allocations
      (alignUp size.toNat hierarchy.defaultAlignmentBytes), rfl, rfl, ?_, ?_⟩
    · simpa only [placementOf, Nat.mul_one] using fillGreedily_fills htiers
    · simp only [placementOf, Nat.mul_one, TensorPlacement.residence]
  · intro hatomic
    simp [placementOf, isAtomic] at hatomic

namespace Placed

variable {l : Located} {allocations' : TierBytes}

theorem allocated (h : Placed hierarchy allocations l allocations') :
    allocations' = allocations.addParts l.parts := by
  obtain ⟨f, hparts, halloc, hfills, _⟩ := h.filled
  rw [← hparts, ← halloc]
  exact hfills.allocated

theorem placed_le (h : Placed hierarchy allocations l allocations') :
    placedBytes l.parts ≤ l.placement.effectiveBytes := by
  obtain ⟨f, hparts, _, hfills, _⟩ := h.filled
  have hsum := hfills.conserved
  rw [hparts] at hsum
  omega

theorem known (h : Placed hierarchy allocations l allocations') :
    ∀ part ∈ l.parts, part.1 ∈ hierarchy.names := by
  obtain ⟨f, hparts, _, hfills, _⟩ := h.filled
  rw [← hparts]
  exact hfills.known

theorem room (h : Placed hierarchy allocations l allocations') (hnames : hierarchy.names.Nodup)
    (hroom : Room hierarchy allocations) : Room hierarchy allocations' := by
  obtain ⟨f, _, halloc, hfills, _⟩ := h.filled
  rw [← halloc]
  exact hfills.room hnames hroom

/-- The full, partial, and spilled bytes add up. -/
theorem total (h : Placed hierarchy allocations l allocations') :
    l.placement.fullBytes + l.placement.partialBytes + l.placement.spillBytes =
      l.placement.effectiveBytes := by
  obtain ⟨f, hparts, _, hfills, hresidence⟩ := h.filled
  change l.placement.residence.fullBytes + l.placement.residence.partialBytes +
    l.placement.residence.spillBytes = _
  rw [hresidence]
  have hsum := hfills.conserved
  unfold residenceOf
  split
  · simp
  · next name placed rest hcons =>
    rw [hcons, placedBytes_cons] at hsum
    dsimp only at hsum ⊢
    split_ifs
    · simp
    · dsimp only
      omega
    · simp

end Placed

/-! ### A run of placements -/

/-- Placements one after the other. -/
inductive PlacedAll (hierarchy : MemoryHierarchy) : TierBytes → List Located → TierBytes → Prop
  | nil {allocations : TierBytes} : PlacedAll hierarchy allocations [] allocations
  | cons {a b c : TierBytes} {l : Located} {ls : List Located} (first : Placed hierarchy a l b)
      (rest : PlacedAll hierarchy b ls c) : PlacedAll hierarchy a (l :: ls) c

namespace PlacedAll

variable {a b c : TierBytes} {ls ks : List Located}

theorem append (h : PlacedAll hierarchy a ls b) (h' : PlacedAll hierarchy b ks c) :
    PlacedAll hierarchy a (ls ++ ks) c := by
  induction h with
  | nil => exact h'
  | cons first _ ih => exact .cons first (ih h')

/-- The allocations grow by all parts. -/
theorem allocated (h : PlacedAll hierarchy a ls b) (name : String) :
    b name = a name + (ls.map fun l => bytesIn name l.parts).sum := by
  induction h with
  | nil => simp
  | cons first _ ih =>
    rw [ih, first.allocated, List.map_cons, List.sum_cons, TierBytes.addParts, Nat.add_assoc]

/-- Over distinct tiers, the allocations grow by the bytes of all parts. -/
theorem total (h : PlacedAll hierarchy a ls b) (hnames : hierarchy.names.Nodup) :
    (hierarchy.names.map b).sum =
      (hierarchy.names.map a).sum + (ls.map fun l => placedBytes l.parts).sum := by
  induction h with
  | nil => simp
  | @cons a b c l ls first _ ih =>
    have hfirst : (hierarchy.names.map b).sum =
        (hierarchy.names.map a).sum + placedBytes l.parts := by
      rw [first.allocated, ← sum_bytesIn hnames l.parts first.known, ← List.sum_map_add]
      rfl
    rw [ih, hfirst, List.map_cons, List.sum_cons, Nat.add_assoc]

theorem room (h : PlacedAll hierarchy a ls b) (hnames : hierarchy.names.Nodup)
    (hroom : Room hierarchy a) : Room hierarchy b := by
  induction h with
  | nil => exact hroom
  | cons first _ ih => exact ih (first.room hnames hroom)

theorem mem (h : PlacedAll hierarchy a ls b) {l : Located} (hl : l ∈ ls) :
    ∃ x y, Placed hierarchy x l y := by
  induction h with
  | nil => simp at hl
  | cons first _ ih =>
    rcases List.mem_cons.mp hl with rfl | hl
    · exact ⟨_, _, first⟩
    · exact ih hl

end PlacedAll

theorem placeAll_cons {ι : Type} {place : ι → TierBytes → Except Error (Located × TierBytes)}
    {item : ι} {items : List ι} {a b : TierBytes} {ls : List Located} :
    placeAll place (item :: items) a = .ok (ls, b) ↔
      ∃ l c ks, place item a = .ok (l, c) ∧ placeAll place items c = .ok (ks, b) ∧ ls = l :: ks := by
  rw [placeAll]
  constructor
  · intro h
    obtain ⟨⟨l, c⟩, hitem, h⟩ := bind_eq_ok.mp h
    obtain ⟨⟨ks, d⟩, hitems, h⟩ := bind_eq_ok.mp h
    cases h
    exact ⟨l, c, ks, hitem, hitems, rfl⟩
  · rintro ⟨l, c, ks, hitem, hitems, rfl⟩
    simp only [hitem, hitems, bind_eq_ok_left]

theorem placeAll_append {ι : Type} {place : ι → TierBytes → Except Error (Located × TierBytes)}
    {items items' : List ι} {a b : TierBytes} {ls : List Located} :
    placeAll place (items ++ items') a = .ok (ls, b) ↔
      ∃ ks c js, placeAll place items a = .ok (ks, c) ∧ placeAll place items' c = .ok (js, b) ∧
        ls = ks ++ js := by
  induction items generalizing a ls with
  | nil =>
    constructor
    · intro h
      exact ⟨[], a, ls, rfl, h, rfl⟩
    · rintro ⟨ks, c, js, hnil, h, rfl⟩
      cases hnil
      exact h
  | cons item items ih =>
    rw [List.cons_append, placeAll_cons]
    constructor
    · rintro ⟨l, c, ls, hitem, hitems, rfl⟩
      obtain ⟨ks, d, js, hks, hjs, rfl⟩ := ih.mp hitems
      exact ⟨l :: ks, d, js, placeAll_cons.mpr ⟨l, c, ks, hitem, hks, rfl⟩, hjs, rfl⟩
    · rintro ⟨_, d, js, hks, hjs, rfl⟩
      obtain ⟨l, c, ks, hitem, hitems, rfl⟩ := placeAll_cons.mp hks
      exact ⟨l, c, ks ++ js, hitem, ih.mpr ⟨ks, d, js, hitems, hjs, rfl⟩, rfl⟩

theorem placeAll_placed {ι : Type} {place : ι → TierBytes → Except Error (Located × TierBytes)}
    (hplace : ∀ item a l b, place item a = .ok (l, b) → Placed hierarchy a l b)
    {items : List ι} {a b : TierBytes} {ls : List Located}
    (h : placeAll place items a = .ok (ls, b)) : PlacedAll hierarchy a ls b := by
  induction items generalizing a ls with
  | nil =>
    cases h
    exact .nil
  | cons item items ih =>
    obtain ⟨l, c, ks, hitem, hitems, rfl⟩ := placeAll_cons.mp h
    exact .cons (hplace item a l c hitem) (ih hitems)

/-- What each placement records of its item. -/
theorem placeAll_map {ι β : Type} {f : Located → β} {g : ι → β}
    {place : ι → TierBytes → Except Error (Located × TierBytes)}
    (hplace : ∀ item a l b, place item a = .ok (l, b) → f l = g item)
    {items : List ι} {a b : TierBytes} {ls : List Located}
    (h : placeAll place items a = .ok (ls, b)) : ls.map f = items.map g := by
  induction items generalizing a ls with
  | nil =>
    cases h
    rfl
  | cons item items ih =>
    obtain ⟨l, c, ks, hitem, hitems, rfl⟩ := placeAll_cons.mp h
    rw [List.map_cons, List.map_cons, hplace item a l c hitem, ih hitems]

/-- A successful first half has checked its inputs and placed every tensor and then
every queue buffer. -/
theorem locate_eq_ok {py : Builtins} {graph : WorkloadGraph} {residentModels : ℤ}
    {queueBuffers : Dict String ℤ} {ls : List Located} {b : TierBytes} :
    locate py graph hierarchy residentModels queueBuffers = .ok (ls, b) ↔
      0 < residentModels ∧ validateTiers hierarchy = .ok () ∧
      graph.tensors.forM (validateAlias graph) = .ok () ∧
      ∃ tensors a buffers,
        placeAll (fun item => placementForTensor hierarchy residentModels.toNat item.1 item.2)
          (sortedTensors py graph) (fun _ => 0) = .ok (tensors, a) ∧
        placeAll (fun item => placementForBuffer hierarchy item.1 item.2)
          (queueBuffers.entries.insertionSort fun a b => a.1 ≤ b.1) a = .ok (buffers, b) ∧
        ls = tensors ++ buffers := by
  unfold locate
  constructor
  · intro h
    split_ifs at h with hmodels
    · cases h
    · obtain ⟨⟨⟩, htiers, h⟩ := bind_eq_ok.mp h
      obtain ⟨⟨⟩, haliases, h⟩ := bind_eq_ok.mp h
      obtain ⟨⟨tensors, a⟩, htensors, h⟩ := bind_eq_ok.mp h
      obtain ⟨⟨buffers, b'⟩, hbuffers, h⟩ := bind_eq_ok.mp h
      cases h
      exact ⟨by omega, htiers, haliases, tensors, a, buffers, htensors, hbuffers, rfl⟩
  · rintro ⟨hmodels, htiers, haliases, tensors, a, buffers, htensors, hbuffers, rfl⟩
    rw [if_neg (by omega)]
    simp only [htiers, haliases, htensors, hbuffers, bind_eq_ok_left]

theorem locate_placed {py : Builtins} {graph : WorkloadGraph} {residentModels : ℤ}
    {queueBuffers : Dict String ℤ} {ls : List Located} {b : TierBytes}
    (h : locate py graph hierarchy residentModels queueBuffers = .ok (ls, b)) :
    PlacedAll hierarchy (fun _ => 0) ls b := by
  obtain ⟨_, _, _, tensors, a, buffers, htensors, hbuffers, rfl⟩ := locate_eq_ok.mp h
  have hfirst : PlacedAll hierarchy (fun _ => 0) tensors a :=
    placeAll_placed (fun _ _ _ _ => placementForTensor_placed) htensors
  exact hfirst.append (placeAll_placed (fun _ _ _ _ => placementForBuffer_placed) hbuffers)

end Residency

end NpuArc
