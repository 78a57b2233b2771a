import NpuArc.Library.Dict
import NpuArc.Memory.Hierarchy
import NpuArc.Workloads.Graph
import Mathlib.Data.List.Sort

/-!
# Memory residency and spill planning

The planner classifies the tensors of a workload graph, places them in order of
priority and size, places the queue buffers after them, and accounts for the bytes
that are read from each tier. Graphs have unique tensor ids, so a function that looks
up a tensor by id takes the tensor itself here. The dictionary of allocations has
exactly the tier names as keys and is a function.
-/

namespace NpuArc

namespace Residency

/-- A residency category. -/
inductive Category
  | weight
  | kv
  | activation
  | scratch
  | queue
  deriving DecidableEq

/-- The name of a category. -/
def Category.name : Category → String
  | .weight => "weight"
  | .kv => "kv"
  | .activation => "activation"
  | .scratch => "scratch"
  | .queue => "queue"

/-- How a placement resides: full, partial, or spilled. -/
inductive ResidencyState
  | full
  | inPart
  | spill
  deriving DecidableEq

/-- Residency decision for a single tensor or queue buffer. -/
structure TensorPlacement where
  tensorId : String
  category : Category
  sizeBytes : ℕ
  alignmentBytes : ℕ
  alignedBytes : ℕ
  replicationFactor : ℕ
  effectiveBytes : ℕ
  state : ResidencyState
  destinationTier : String
  spillTier : Option String
  fullBytes : ℕ
  partialBytes : ℕ
  spillBytes : ℕ
  evictBytes : ℕ
  reloadBytes : ℕ
  accessBytes : ℕ
  deriving DecidableEq

/-- Capacity accounting for one tier. -/
structure TierSummary where
  name : String
  capacityBytes : ℕ
  reserveBytes : ℕ
  allocatedBytes : ℕ
  freeBytes : ℕ
  spillInBytes : ℕ
  spillOutBytes : ℕ
  deriving DecidableEq

/-- A directed byte stream between two tiers. -/
structure AccessStream where
  streamId : String
  sourceTier : String
  destinationTier : String
  category : Category
  bytes : ℕ
  deriving DecidableEq

/-- The contents of a plan, which its digest is computed from. -/
structure PlanContents where
  hierarchy : MemoryHierarchy
  placements : List TensorPlacement
  tierSummaries : List TierSummary
  accessStreams : List AccessStream
  totalAccessBytes : Dict String ℕ
  spillBytesTotal : ℕ
  residentBytesTotal : ℕ

/-- The output of the residency planner. -/
structure MemoryAccessPlan extends PlanContents where
  digest : String

/-- The functions of the Python library that the planner calls: lower-casing of a
string, and the SHA-256 digest of a canonical plan. -/
structure Builtins where
  lower : String → String
  digestSha256 : PlanContents → String

/-! ### Sizes -/

/-- Element size in bits. -/
def precisionBits : Precision → ℕ
  | .fp32 => 32
  | .fp16 => 16
  | .bf16 => 16
  | .int8 => 8
  | .int4 => 4
  | .int2 => 2
  | .mixedInt8Int4 => 4
  | .mixedInt8Int8 => 8

/-- The number of elements of a shape; `none` if a dimension is symbolic. -/
def elements : List ShapeElement → Option ℕ
  | [] => some 1
  | .fixed size :: shape => (elements shape).map (size * ·)
  | .symbolic _ :: _ => none

/-- Tensor byte footprint, computed from the shape if the size is unset. -/
def tensorFootprintBytes (tensor : TensorSpec) : ℕ :=
  if 0 < tensor.bytes then tensor.bytes
  else
    match elements tensor.shape with
    | some n => n * precisionBits tensor.precision / 8
    | none => 0

/-- The smallest multiple of a positive alignment that is at least a value. -/
def alignUp (value alignment : ℕ) : ℕ := (value + alignment - 1) / alignment * alignment

/-! ### Classification -/

/-- Placement priority of a category: a lower number is placed earlier. -/
def categoryPriority : Category → ℕ
  | .weight => 0
  | .kv => 1
  | .activation => 2
  | .scratch => 2
  | .queue => 3

/-- Whether a category is never split across tiers. -/
def isAtomic (category : Category) : Bool := category = .weight ∨ category = .kv

/-- Whether a string starts with one of some words. -/
def startsWithAny (words : List String) (s : String) : Bool :=
  words.any fun word => word.toList.isPrefixOf s.toList

/-- Whether a word occurs in a string. -/
def occursIn (word s : String) : Bool := s.toList.tails.any fun rest => word.toList.isPrefixOf rest

/-- The lower-cased operator of the node that produces a tensor, empty if there is no
such node. -/
def producerOp (py : Builtins) (graph : WorkloadGraph) (tensor : TensorSpec) : String :=
  ((graph.getNode tensor.producerNode).map fun node => py.lower node.opType).getD ""

/-- Classify a tensor into a residency category. -/
def classifyTensor (py : Builtins) (graph : WorkloadGraph) (tensor : TensorSpec) : Category :=
  let tIdLower := py.lower tensor.tensorId
  if startsWithAny ["weight", "param"] tIdLower then .weight
  else
    let op := producerOp py graph tensor
    if occursIn "kv" tIdLower ∨ op ∈ ["kv_cache", "kv_load", "kv_store"] then .kv
    else if occursIn "queue" tIdLower ∨ occursIn "fifo" tIdLower ∨ op ∈ ["queue", "fifo"] then
      .queue
    else if op ∈ ["constant", "parameter", "weight"] then .weight
    else .activation

/-- The tiers eligible for a category, from fastest to slowest. Weights skip the tiers
before the on-chip DRAM if there is one. -/
def eligibleTiers (category : Category) (hierarchy : MemoryHierarchy) : List MemoryTier :=
  if category = .weight then
    match hierarchy.tiers.dropWhile fun tier => decide (tier.name ≠ onChip3dDram) with
    | [] => hierarchy.tiers
    | tiers => tiers
  else hierarchy.tiers

/-- Check that an alias has a target of the same size. -/
def validateAlias (graph : WorkloadGraph) (tensor : TensorSpec) : Except Error Unit :=
  match tensor.aliasOf with
  | none => .ok ()
  | some aliasOf =>
    if aliasOf = "" then .ok ()
    else
      match graph.getTensor aliasOf with
      | none => .error (.configError ("tensor " ++ reprStr tensor.tensorId ++
          " aliases non-existent tensor " ++ reprStr aliasOf)
          ("tensors." ++ tensor.tensorId ++ ".alias_of"))
      | some target =>
        let targetBytes := tensorFootprintBytes target
        let sourceBytes := tensorFootprintBytes tensor
        if targetBytes ≠ sourceBytes then
          .error (.configError ("alias " ++ reprStr tensor.tensorId ++ " (" ++
            toString sourceBytes ++ " B) must match target " ++ reprStr aliasOf ++ " (" ++
            toString targetBytes ++ " B)") ("tensors." ++ tensor.tensorId ++ ".bytes"))
        else .ok ()

/-! ### Placement -/

/-- Bytes by tier name. -/
abbrev TierBytes := String → ℕ

/-- Add bytes to a tier. -/
def TierBytes.add (bytes : TierBytes) (name : String) (n : ℕ) : TierBytes :=
  fun other => if other = name then bytes other + n else bytes other

/-- The reserve of each tier. A later tier of the same name overrides an earlier one. -/
def reservesOf (hierarchy : MemoryHierarchy) : TierBytes := fun name =>
  ((hierarchy.tiers.reverse.find? fun tier => decide (tier.name = name)).map
    (·.reserveBytes)).getD 0

/-- The bytes of a tier that are neither allocated nor reserved. -/
def usable (allocations reserves : TierBytes) (tier : MemoryTier) : ℤ :=
  tier.capacityBytes - allocations tier.name - reserves tier.name

/-- What filling tiers leaves: the parts with their tiers, the allocations, and the
bytes that found no room. -/
structure Filling where
  parts : List (String × ℕ)
  allocations : TierBytes
  remaining : ℕ

/-- All or nothing: the fastest tier that can hold everything. -/
def fillWhole (reserves allocations : TierBytes) (effective : ℕ) : List MemoryTier → Filling
  | [] => ⟨[], allocations, effective⟩
  | tier :: tiers =>
    if (effective : ℤ) ≤ usable allocations reserves tier then
      ⟨[(tier.name, effective)], allocations.add tier.name effective, 0⟩
    else fillWhole reserves allocations effective tiers

/-- Fill each tier greedily. -/
def fillGreedily (reserves : TierBytes) :
    List MemoryTier → TierBytes → ℕ → Filling
  | [], allocations, remaining => ⟨[], allocations, remaining⟩
  | tier :: tiers, allocations, remaining =>
    if remaining = 0 then ⟨[], allocations, remaining⟩
    else
      let room := usable allocations reserves tier
      if room ≤ 0 then fillGreedily reserves tiers allocations remaining
      else
        let place := min remaining room.toNat
        let rest := fillGreedily reserves tiers (allocations.add tier.name place)
          (remaining - place)
        { rest with parts := (tier.name, place) :: rest.parts }

/-- The fields of a placement that follow from the parts: state, destination, spill
tier, and full, partial, and spilled bytes. -/
structure Residence where
  state : ResidencyState
  destination : String
  spillTier : Option String
  fullBytes : ℕ
  partialBytes : ℕ
  spillBytes : ℕ

/-- Decide how the parts of an allocation reside. -/
def residenceOf (eligible : List MemoryTier) (effective : ℕ) (filling : Filling) : Residence :=
  let firstEligible := eligible.head?.map (·.name)
  match filling.parts with
  | [] => ⟨.spill, slowestName eligible, none, 0, 0, effective⟩
  | (name, placed) :: rest =>
    if filling.remaining = 0 ∧ rest = [] ∧ firstEligible = some name then
      ⟨.full, name, none, effective, 0, 0⟩
    else if firstEligible = some name then
      ⟨.inPart, name, rest.head?.map Prod.fst, 0, placed, effective - placed⟩
    -- resident in a slower tier than the first eligible one
    else ⟨.spill, name, none, 0, 0, effective⟩

/-- A placement together with the parts that the planner allocated for it, a local
variable of the source. -/
structure Located where
  placement : TensorPlacement
  parts : List (String × ℕ)
  deriving DecidableEq

/-- The placement of an item from its residence. -/
def placementOf (tensorId : String) (category : Category) (size alignment aligned replication : ℕ)
    (residence : Residence) : TensorPlacement :=
  let moved := if residence.state = .full then 0 else residence.spillBytes
  { tensorId := tensorId
    category := category
    sizeBytes := size
    alignmentBytes := alignment
    alignedBytes := aligned
    replicationFactor := replication
    effectiveBytes := aligned * replication
    state := residence.state
    destinationTier := residence.destination
    spillTier := residence.spillTier
    fullBytes := residence.fullBytes
    partialBytes := residence.partialBytes
    spillBytes := residence.spillBytes
    evictBytes := moved
    reloadBytes := moved
    accessBytes := aligned * replication }

/-- Place one tensor. -/
def placementForTensor (hierarchy : MemoryHierarchy) (residentModels : ℕ) (tensor : TensorSpec)
    (category : Category) (allocations : TierBytes) : Except Error (Located × TierBytes) :=
  let alignment := hierarchy.defaultAlignmentBytes
  let aligned := alignUp (tensorFootprintBytes tensor) alignment
  let replication := if category = .weight then residentModels else 1
  let effective := aligned * replication
  let eligible := eligibleTiers category hierarchy
  if eligible = [] then
    .error (.coverageError ("no eligible tier for " ++ category.name ++ " tensor " ++
        reprStr tensor.tensorId)
      ["tensors." ++ tensor.tensorId])
  else
    let filling := if isAtomic category then
        fillWhole (reservesOf hierarchy) allocations effective eligible
      else fillGreedily (reservesOf hierarchy) eligible allocations effective
    .ok
      (⟨placementOf tensor.tensorId category tensor.bytes alignment aligned replication
          (residenceOf eligible effective filling), filling.parts⟩,
        filling.allocations)

/-- Place one queue buffer. -/
def placementForBuffer (hierarchy : MemoryHierarchy) (bufferId : String) (sizeBytes : ℤ)
    (allocations : TierBytes) : Except Error (Located × TierBytes) :=
  if sizeBytes < 0 then
    .error (.configError ("queue buffer " ++ reprStr bufferId ++ " has negative size " ++
      toString sizeBytes) ("queue_buffers." ++ bufferId))
  else
    let alignment := hierarchy.defaultAlignmentBytes
    let aligned := alignUp sizeBytes.toNat alignment
    let eligible := eligibleTiers .queue hierarchy
    let filling := fillGreedily (reservesOf hierarchy) eligible allocations aligned
    .ok
      (⟨placementOf bufferId .queue sizeBytes.toNat alignment aligned 1
          (residenceOf eligible aligned filling), filling.parts⟩,
        filling.allocations)

/-- Place items one after the other, from the space that the earlier ones leave. -/
def placeAll {ι : Type} (place : ι → TierBytes → Except Error (Located × TierBytes)) :
    List ι → TierBytes → Except Error (List Located × TierBytes)
  | [], allocations => .ok ([], allocations)
  | item :: items, allocations => do
    let (located, allocations) ← place item allocations
    let (rest, allocations) ← placeAll place items allocations
    .ok (located :: rest, allocations)

/-- The tensors with their categories, by priority and then by declared size, the
largest first. -/
def sortedTensors (py : Builtins) (graph : WorkloadGraph) : List (TensorSpec × Category) :=
  (graph.tensors.map fun tensor => (tensor, classifyTensor py graph tensor)).insertionSort
    fun a b => categoryPriority a.2 < categoryPriority b.2 ∨
      categoryPriority a.2 = categoryPriority b.2 ∧ b.1.bytes ≤ a.1.bytes

/-- Check that the reserve of each tier is within its capacity. -/
def validateTiers (hierarchy : MemoryHierarchy) : Except Error Unit :=
  hierarchy.tiers.forM fun tier =>
    if tier.capacityBytes < tier.reserveBytes then
      .error (.configError ("tier " ++ reprStr tier.name ++ " reserve " ++
        toString tier.reserveBytes ++ " B exceeds capacity " ++ toString tier.capacityBytes ++
        " B") ("hierarchy." ++ tier.name ++ ".reserve_fraction"))
    else .ok ()

/-- The first half of the planner: check the inputs, then place the tensors and after
them the queue buffers in the order of their ids. -/
def locate (py : Builtins) (graph : WorkloadGraph) (hierarchy : MemoryHierarchy)
    (residentModels : ℤ) (queueBuffers : Dict String ℤ) :
    Except Error (List Located × TierBytes) := do
  if residentModels ≤ 0 then
    .error (.configError ("resident_models must be positive, got " ++ toString residentModels)
      "resident_models")
  validateTiers hierarchy
  graph.tensors.forM (validateAlias graph)
  let (tensors, allocations) ←
    placeAll (fun item => placementForTensor hierarchy residentModels.toNat item.1 item.2)
      (sortedTensors py graph) fun _ => 0
  let (buffers, allocations) ←
    placeAll (fun item => placementForBuffer hierarchy item.1 item.2)
      (queueBuffers.entries.insertionSort fun a b => a.1 ≤ b.1) allocations
  .ok (tensors ++ buffers, allocations)

/-! ### Access accounting -/

/-- Bytes read from each tier, spill traffic, and the spill streams. -/
structure Accounting where
  totalAccess : Dict String ℕ := .empty
  spillIn : TierBytes := fun _ => 0
  spillOut : TierBytes := fun _ => 0
  streams : List AccessStream := []

/-- Add bytes to the entry of a tier, creating it if needed. -/
def addAccess (access : Dict String ℕ) (name : String) (n : ℕ) : Dict String ℕ :=
  access.insert name ((access.get? name).getD 0 + n)

/-- Account for one placement: the resident portion is read from its destination tier,
the spilled bytes from the spill tier. -/
def account (hierarchy : MemoryHierarchy) (a : Accounting) (p : TensorPlacement) : Accounting :=
  let resident := p.fullBytes + p.partialBytes
  let a :=
    if 0 < resident then
      { a with totalAccess := addAccess a.totalAccess p.destinationTier resident }
    else a
  if 0 < p.spillBytes then
    let spillTier := p.spillTier.getD (slowestName hierarchy.tiers)
    { totalAccess := addAccess a.totalAccess spillTier p.spillBytes
      spillIn := a.spillIn.add spillTier p.spillBytes
      spillOut := a.spillOut.add p.destinationTier p.spillBytes
      streams := a.streams ++
        [{ streamId := p.tensorId ++ "_spill"
           sourceTier := p.destinationTier
           destinationTier := spillTier
           category := p.category
           bytes := p.spillBytes }] }
  else a

/-- The summary of one tier. -/
def tierSummary (allocations spillIn spillOut : TierBytes) (tier : MemoryTier) : TierSummary :=
  { name := tier.name
    capacityBytes := tier.capacityBytes
    reserveBytes := tier.reserveBytes
    allocatedBytes := allocations tier.name
    freeBytes := tier.capacityBytes - tier.reserveBytes - allocations tier.name
    spillInBytes := spillIn tier.name
    spillOutBytes := spillOut tier.name }

/-- Tier summaries sorted by tier name. -/
def buildTierSummaries (hierarchy : MemoryHierarchy) (allocations spillIn spillOut : TierBytes) :
    List TierSummary :=
  (hierarchy.tiers.map (tierSummary allocations spillIn spillOut)).insertionSort
    fun a b => a.name ≤ b.name

/-- The contents of the plan for some placements and allocations. -/
def planContents (hierarchy : MemoryHierarchy) (placements : List TensorPlacement)
    (allocations : TierBytes) : PlanContents :=
  let accounting := placements.foldl (account hierarchy) {}
  { hierarchy := hierarchy
    placements := placements
    tierSummaries := buildTierSummaries hierarchy allocations accounting.spillIn
      accounting.spillOut
    accessStreams := accounting.streams
    totalAccessBytes := Dict.ofList
      (accounting.totalAccess.entries.insertionSort fun a b => a.1 ≤ b.1)
    spillBytesTotal := (placements.map (·.spillBytes)).sum
    residentBytesTotal := (placements.map fun p => p.fullBytes + p.partialBytes).sum }

/-- The placements in the order of their ids. -/
def sortedPlacements (located : List Located) : List TensorPlacement :=
  (located.map (·.placement)).insertionSort fun a b => a.tensorId ≤ b.tensorId

/-- Build a memory access plan from a workload graph. -/
def buildMemoryAccessPlan (py : Builtins) (graph : WorkloadGraph) (hierarchy : MemoryHierarchy)
    (residentModels : ℤ) (queueBuffers : Dict String ℤ) (allowSpill : Bool) :
    Except Error MemoryAccessPlan := do
  let (located, allocations) ← locate py graph hierarchy residentModels queueBuffers
  let placements := sortedPlacements located
  let spillTotal := (placements.map (·.spillBytes)).sum
  if !allowSpill ∧ 0 < spillTotal then
    .error (.coverageError ("memory hierarchy cannot hold all tensors: " ++ toString spillTotal ++
      " bytes spill beyond the slowest tier") ["hierarchy.capacity_bytes"])
  let contents := planContents hierarchy placements allocations
  .ok { contents with digest := py.digestSha256 contents }

end Residency

end NpuArc
