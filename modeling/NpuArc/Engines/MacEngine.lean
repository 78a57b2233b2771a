import NpuArc.Engines.Config
import NpuArc.Library.Pipeline
import NpuArc.Memory.Residency
import Mathlib.Data.Rat.Floor

/-!
# The common part of the engines

An engine reads its array, its clock and its buffers from a configuration. Its bandwidth for
weights is that of the fastest tier in which all weights of a graph reside, or that of the external
memory. The result of an estimate is checked when it is built. Arithmetic is exact.
-/

namespace NpuArc

namespace Engines

open Residency

/-- The exceptions of the engines. -/
inductive Failure
  | zeroDivisionError
  | valueError (message : String)
  | validationError (message fieldPath : String)
  | keyError (key : String)
  /-- An exception of the planner or of the registry. -/
  | raised (error : Error)

/-- The exceptions of the planner are those of the engine. -/
def ofPlanner {α : Type} : Except Error α → Except Failure α
  | .ok a => .ok a
  | .error e => .error (.raised e)

/-- The bytes per cycle of a bandwidth in gigabytes per second. -/
def bandwidthGbpsToBytesPerCycle (bandwidthGbps frequencyMhz : ℚ) : Except Failure ℚ :=
  if frequencyMhz ≤ 0 then
    .error (.valueError ("frequency_mhz must be > 0, got " ++ toString frequencyMhz))
  else .ok (bandwidthGbps * 1000 / frequencyMhz)

theorem bandwidthGbpsToBytesPerCycle_eq_ok {bandwidthGbps frequencyMhz x : ℚ} :
    bandwidthGbpsToBytesPerCycle bandwidthGbps frequencyMhz = .ok x ↔
      0 < frequencyMhz ∧ bandwidthGbps * 1000 / frequencyMhz = x := by
  rw [bandwidthGbpsToBytesPerCycle]
  split_ifs with h
  · constructor
    · intro hok
      cases hok
    · intro hok
      exact absurd hok.1 (not_lt.mpr h)
  · rw [Except.ok.injEq, and_iff_right (not_le.mp h)]

theorem bytesPerCycle_pos {bandwidthGbps frequencyMhz x : ℚ}
    (h : bandwidthGbpsToBytesPerCycle bandwidthGbps frequencyMhz = .ok x)
    (hbw : 0 < bandwidthGbps) : 0 < x := by
  obtain ⟨hpos, rfl⟩ := bandwidthGbpsToBytesPerCycle_eq_ok.mp h
  positivity

theorem bytesPerCycle_nonneg {bandwidthGbps frequencyMhz x : ℚ}
    (h : bandwidthGbpsToBytesPerCycle bandwidthGbps frequencyMhz = .ok x)
    (hbw : 0 ≤ bandwidthGbps) : 0 ≤ x := by
  obtain ⟨hpos, rfl⟩ := bandwidthGbpsToBytesPerCycle_eq_ok.mp h
  positivity

/-! ### The memory hierarchy of a configuration -/

/-- A tier with its bandwidth. -/
structure BandwidthTier extends MemoryTier where
  readBwGbps : ℚ
  readEfficiency : ℚ
  readBwGbps_pos : 0 < readBwGbps
  readEfficiency_nonneg : 0 ≤ readEfficiency
  readEfficiency_le : readEfficiency ≤ 1

/-- The bandwidth after derating. -/
def BandwidthTier.effectiveReadBwGbps (tier : BandwidthTier) : ℚ :=
  tier.readBwGbps * tier.readEfficiency

theorem BandwidthTier.effectiveReadBwGbps_nonneg (tier : BandwidthTier) :
    0 ≤ tier.effectiveReadBwGbps :=
  mul_nonneg tier.readBwGbps_pos.le tier.readEfficiency_nonneg

/-- The bandwidth of the buffers. -/
def defaultSramBwGbps : ℚ := 1000

/-- The capacity of the external memory. -/
def defaultExternalCapacityGb : ℚ := 32

/-- The bytes of decimal gigabytes. -/
def gbToBytes (gb : ℚ) : ℕ := (truncate (gb * 1000000000)).toNat

/-- The bytes of decimal kilobytes. -/
def kbToBytes (kb : ℕ) : ℕ := kb * 1000

/-- The external tier of a type of memory. -/
def inferExternalTierName (py : Builtins) (memType : String) : String :=
  let memTypeLower := py.lower memType
  if occursIn "lpddr5x" memTypeLower then "lpddr5x"
  else if occursIn "lpddr5" memTypeLower then "lpddr5"
  else if occursIn "hbm3" memTypeLower then "hbm3"
  else if occursIn "hbm2e" memTypeLower ∨ occursIn "hbm2" memTypeLower then "hbm2e"
  else "lpddr5"

theorem inferExternalTierName_supported (py : Builtins) (memType : String) :
    inferExternalTierName py memType ∈ supportedTierNames := by
  unfold inferExternalTierName
  dsimp only
  split_ifs <;> decide

/-- A positive integer, or a default. -/
def orDefault (x : Option ℕ+) (n : ℕ) : ℕ := x.elim n PNat.val

theorem orDefault_pos {x : Option ℕ+} {n : ℕ} (h : 0 < n) : 0 < orDefault x n := by
  cases x with
  | none => exact h
  | some k => exact k.pos

/-- A positive number, or a default. -/
def PosRat.orDefault (x : Option PosRat) (d : ℚ) : ℚ := x.elim d Subtype.val

theorem PosRat.orDefault_pos {x : Option PosRat} {d : ℚ} (h : 0 < d) :
    0 < PosRat.orDefault x d := by
  cases x with
  | none => exact h
  | some r => exact r.2

/-- A number between zero and one, or a default. -/
def UnitRat.orDefault (x : Option UnitRat) (d : ℚ) : ℚ := x.elim d Subtype.val

theorem UnitRat.orDefault_nonneg {x : Option UnitRat} {d : ℚ} (h : 0 ≤ d) :
    0 ≤ UnitRat.orDefault x d := by
  cases x with
  | none => exact h
  | some r => exact r.2.1

theorem UnitRat.orDefault_le {x : Option UnitRat} {d : ℚ} (h : d ≤ 1) :
    UnitRat.orDefault x d ≤ 1 := by
  cases x with
  | none => exact h
  | some r => exact r.2.2

/-- The tier of the buffers. -/
def sramTier (sram : SramSection) : BandwidthTier where
  name := "sram"
  capacityBytes := kbToBytes (orDefault sram.l1PerCoreKb 512 + orDefault sram.l2SharedKb 2048)
  name_supported := sram_supported
  readBwGbps := defaultSramBwGbps
  readEfficiency := 1
  readBwGbps_pos := by norm_num [defaultSramBwGbps]
  readEfficiency_nonneg := zero_le_one
  readEfficiency_le := le_rfl

/-- The tier of the memory on the die. -/
def onChipTier (capacityGb bandwidthGbps : ℚ) (hbw : 0 < bandwidthGbps) : BandwidthTier where
  name := onChip3dDram
  capacityBytes := gbToBytes capacityGb
  name_supported := onChip3dDram_supported
  readBwGbps := bandwidthGbps
  readEfficiency := 1
  readBwGbps_pos := hbw
  readEfficiency_nonneg := zero_le_one
  readEfficiency_le := le_rfl

/-- The tier of the external memory. -/
def externalTier (py : Builtins) (memory : MemorySection) : BandwidthTier where
  name := inferExternalTierName py (memory.type.getD "LPDDR5-6400")
  capacityBytes := gbToBytes (memory.capacityGb.elim defaultExternalCapacityGb (↑))
  name_supported := inferExternalTierName_supported py _
  readBwGbps := PosRat.orDefault memory.bandwidthGbps 51.2
  readEfficiency := UnitRat.orDefault memory.dramEfficiency 0.85
  readBwGbps_pos := PosRat.orDefault_pos (by norm_num)
  readEfficiency_nonneg := UnitRat.orDefault_nonneg (by norm_num)
  readEfficiency_le := UnitRat.orDefault_le (by norm_num)

/-- The tiers of a configuration, from fastest to slowest. -/
def buildHierarchyFromConfig (py : Builtins) (c : HardwareConfig) :
    Except Failure (List BandwidthTier) :=
  let buffers := c.sram.toList.map sramTier
  let onchipCapacityGb : ℚ := c.onChipMemory.capacityGb.elim 0 (↑)
  if 0 < onchipCapacityGb then
    let onchipBw : ℚ := c.onChipMemory.bandwidthGbps.elim 500 (↑)
    if hbw : 0 < onchipBw then
      .ok (buffers ++ [onChipTier onchipCapacityGb onchipBw hbw, externalTier py c.memory])
    else .error (.validationError "Input should be greater than 0" "read_bw_gbps")
  else .ok (buffers ++ [externalTier py c.memory])

/-- The hierarchy of tiers. -/
def hierarchyOf (tiers : List BandwidthTier) : MemoryHierarchy where
  tiers := tiers.map (·.toMemoryTier)
  alignment_pos := defaultAlignment_pos

/-- The fastest tier that holds bytes of a category. -/
def fastestAllocatedTier (plan : MemoryAccessPlan) (category : Category) : Option String :=
  (plan.hierarchy.tiers.find? fun tier => plan.placements.any fun p =>
    decide (p.category = category) && decide (p.destinationTier = tier.name)).map (·.name)

/-! ### Results -/

/-- The fields of a result. -/
structure ResultFields where
  computeCycles : ℤ
  dmaCycles : ℤ
  totalCycles : ℤ
  utilization : ℚ
  macCount : ℕ
  opCount : ℕ
  numTiles : ℕ := 0
  weightBytes : ℕ := 0
  bottleneck : String := ""
  idealComputeCycles : ℤ := 0
  rawDmaCycles : ℤ := 0

/-- The fields that a result is checked for: cycles are not negative and counts are positive. -/
structure ResultFields.Valid (r : ResultFields) : Prop where
  totalCycles : 0 ≤ r.totalCycles
  computeCycles : 0 ≤ r.computeCycles
  dmaCycles : 0 ≤ r.dmaCycles
  idealComputeCycles : 0 ≤ r.idealComputeCycles
  rawDmaCycles : 0 ≤ r.rawDmaCycles
  macCount : 0 < r.macCount
  opCount : 0 < r.opCount

/-- Results whose transfers are what the computation leaves of the total. -/
theorem ResultFields.Valid.of_compute_le {r : ResultFields}
    (hdma : r.dmaCycles = r.totalCycles - r.computeCycles) (hcompute : 0 ≤ r.computeCycles)
    (hle : r.computeCycles ≤ r.totalCycles) (hideal : 0 ≤ r.idealComputeCycles)
    (hraw : 0 ≤ r.rawDmaCycles) (hmacs : 0 < r.macCount) (hops : r.opCount = r.macCount * 2) :
    r.Valid where
  totalCycles := hcompute.trans hle
  computeCycles := hcompute
  dmaCycles := hdma ▸ sub_nonneg.mpr hle
  idealComputeCycles := hideal
  rawDmaCycles := hraw
  macCount := hmacs
  opCount := hops ▸ Nat.mul_pos hmacs two_pos

/-- The result of an engine. -/
structure EngineResult extends ResultFields where
  valid : toResultFields.Valid

/-- The text of the check of a field that is not negative. -/
def nonNegativeText (name : String) (value : ℤ) : String :=
  name ++ " must be non-negative, got " ++ toString value

/-- The text of the check of a field that is positive. -/
def positiveText (name : String) (value : ℕ) : String :=
  name ++ " must be positive, got " ++ toString value

/-- Build a result, with its checks. -/
def EngineResult.new (r : ResultFields) : Except Failure EngineResult :=
  if htotal : 0 ≤ r.totalCycles then
    if hcompute : 0 ≤ r.computeCycles then
      if hdma : 0 ≤ r.dmaCycles then
        if hideal : 0 ≤ r.idealComputeCycles then
          if hraw : 0 ≤ r.rawDmaCycles then
            if hmac : 0 < r.macCount then
              if hop : 0 < r.opCount then
                .ok ⟨r, ⟨htotal, hcompute, hdma, hideal, hraw, hmac, hop⟩⟩
              else .error (.valueError (positiveText "op_count" r.opCount))
            else .error (.valueError (positiveText "mac_count" r.macCount))
          else .error (.valueError (nonNegativeText "raw_dma_cycles" r.rawDmaCycles))
        else .error (.valueError (nonNegativeText "ideal_compute_cycles" r.idealComputeCycles))
      else .error (.valueError (nonNegativeText "dma_cycles" r.dmaCycles))
    else .error (.valueError (nonNegativeText "compute_cycles" r.computeCycles))
  else .error (.valueError (nonNegativeText "total_cycles" r.totalCycles))

/-- The checks accept what is valid. -/
theorem EngineResult.new_of_valid {r : ResultFields} (h : r.Valid) :
    EngineResult.new r = .ok ⟨r, h⟩ := by
  unfold EngineResult.new
  rw [dif_pos h.totalCycles, dif_pos h.computeCycles, dif_pos h.dmaCycles,
    dif_pos h.idealComputeCycles, dif_pos h.rawDmaCycles, dif_pos h.macCount, dif_pos h.opCount]

/-- A result has the fields from which it is built. -/
theorem EngineResult.new_eq_ok {r : ResultFields} {result : EngineResult} :
    EngineResult.new r = .ok result ↔ result.toResultFields = r := by
  constructor
  · intro h
    unfold EngineResult.new at h
    split_ifs at h
    cases h
    rfl
  · rintro rfl
    exact new_of_valid result.valid

/-- An estimate returns a result with these fields. -/
def Returns (x : Except Failure EngineResult) (r : ResultFields) : Prop :=
  ∃ result, x = .ok result ∧ result.toResultFields = r

theorem returns_new {r : ResultFields} (h : r.Valid) : Returns (EngineResult.new r) r :=
  ⟨⟨r, h⟩, EngineResult.new_of_valid h, rfl⟩

/-- What holds of the result holds of its fields. -/
theorem Returns.exists_iff {x : Except Failure EngineResult} {r : ResultFields}
    (h : Returns x r) {P : ResultFields → Prop} :
    (∃ result, x = .ok result ∧ P result.toResultFields) ↔ P r := by
  obtain ⟨result, hx, rfl⟩ := h
  constructor
  · rintro ⟨other, hother, hP⟩
    rw [hx] at hother
    cases hother
    exact hP
  · intro hP
    exact ⟨result, hx, hP⟩

theorem Returns.forall_iff {x : Except Failure EngineResult} {r : ResultFields}
    (h : Returns x r) {P : ResultFields → Prop} :
    (∀ result, x = .ok result → P result.toResultFields) ↔ P r := by
  obtain ⟨result, hx, rfl⟩ := h
  constructor
  · intro hP
    exact hP result hx
  · rintro hP other hother
    rw [hx] at hother
    cases hother
    exact hP

/-- An exception is no result. -/
theorem not_exists_of_error {x : Except Failure EngineResult} {err : Failure}
    (h : x = .error err) {P : ResultFields → Prop} :
    ¬ ∃ result, x = .ok result ∧ P result.toResultFields := by
  rintro ⟨result, hx, -⟩
  rw [h] at hx
  cases hx

/-! ### The engine -/

/-- How bytes are accessed. -/
inductive AccessType
  | sequential
  | random
  deriving DecidableEq

/-- The parameters that all engines share. -/
structure MacEngine where
  height : ℕ
  width : ℕ
  fMhz : ℕ
  wBits : ℕ
  aBits : ℕ
  opsPerMac : ℕ
  bwRaw : ℚ
  dramEfficiency : ℚ
  dramEfficiencyRandomBw : ℚ
  randomLatencyPenaltyCycles : ℕ
  bwMultiplier : ℚ
  effBwWeight : ℚ
  effBwKv : ℚ
  effBw : ℚ
  l2SramKb : ℕ
  wbufKb : ℕ
  kvbufKb : ℕ
  height_pos : 0 < height
  width_pos : 0 < width
  wBits_pos : 0 < wBits
  aBits_pos : 0 < aBits
  opsPerMac_pos : 0 < opsPerMac
  bwRaw_pos : 0 < bwRaw
  dramEfficiency_nonneg : 0 ≤ dramEfficiency
  dramEfficiency_le : dramEfficiency ≤ 1
  bwMultiplier_pos : 0 < bwMultiplier
  effBwWeight_nonneg : 0 ≤ effBwWeight
  /-- The former name of the bandwidth for weights. -/
  effBw_eq : effBw = effBwWeight

namespace MacEngine

/-- The bandwidth of the external memory for weights. -/
def externalBw (e : MacEngine) : ℚ := e.bwRaw * e.dramEfficiency * e.bwMultiplier

/-- The clock of a configuration, in whole megahertz. -/
def frequencyOf (c : HardwareConfig) : ℕ :=
  (truncate (PosRat.orDefault c.mac.frequencyMhz 1000)).toNat

/-- Read the common parameters from a configuration. -/
def parseConfig (c : HardwareConfig) : Except Failure MacEngine :=
  let mac := c.mac
  let fMhz := frequencyOf c
  let bwGbps := PosRat.orDefault c.memory.bandwidthGbps 51.2
  match hraw : bandwidthGbpsToBytesPerCycle bwGbps fMhz with
  | .error e => .error e
  | .ok bwRaw =>
    let dramEfficiency := UnitRat.orDefault c.memory.dramEfficiency 0.90
    let dramEfficiencyRandomBw := UnitRat.orDefault c.memory.dramEfficiencyRandomBw 0.50
    let bwMultiplier := PosRat.orDefault c.optimizations.dmaBwMultiplier 1
    let l2SramKb := (c.sram.map fun sram => orDefault sram.l2SharedKb 2048).getD 2048
    have hbw : 0 < bwRaw := bytesPerCycle_pos hraw (PosRat.orDefault_pos (by norm_num))
    .ok
      { height := orDefault mac.arrayHeight 128
        width := orDefault mac.arrayWidth 128
        fMhz := fMhz
        wBits := orDefault mac.weightPrecisionBits 4
        aBits := orDefault mac.activationPrecisionBits 8
        opsPerMac := orDefault mac.opsPerMac 2
        bwRaw := bwRaw
        dramEfficiency := dramEfficiency
        dramEfficiencyRandomBw := dramEfficiencyRandomBw
        randomLatencyPenaltyCycles := c.memory.randomLatencyPenaltyCycles.getD 40
        bwMultiplier := bwMultiplier
        effBwWeight := bwRaw * dramEfficiency * bwMultiplier
        effBwKv := bwRaw * dramEfficiencyRandomBw * bwMultiplier
        effBw := bwRaw * dramEfficiency * bwMultiplier
        l2SramKb := l2SramKb
        wbufKb := l2SramKb * 6 / 10
        kvbufKb := l2SramKb * 4 / 10
        height_pos := orDefault_pos (by decide)
        width_pos := orDefault_pos (by decide)
        wBits_pos := orDefault_pos (by decide)
        aBits_pos := orDefault_pos (by decide)
        opsPerMac_pos := orDefault_pos (by decide)
        bwRaw_pos := hbw
        dramEfficiency_nonneg := UnitRat.orDefault_nonneg (by norm_num)
        dramEfficiency_le := UnitRat.orDefault_le (by norm_num)
        bwMultiplier_pos := PosRat.orDefault_pos one_pos
        effBwWeight_nonneg := mul_nonneg
          (mul_nonneg hbw.le (UnitRat.orDefault_nonneg (by norm_num)))
          (PosRat.orDefault_pos one_pos).le
        effBw_eq := rfl }

/-- The engine with another bandwidth for weights. -/
def withBandwidth (e : MacEngine) (bw : ℚ) (hbw : 0 ≤ bw) : MacEngine :=
  { e with
    effBwWeight := bw
    effBw := bw
    effBwWeight_nonneg := hbw
    effBw_eq := rfl }

/-- Take the bandwidth of the fastest tier if all weights reside in it. -/
def applyMemoryPlan (e : MacEngine) (tiers : List BandwidthTier) (plan : MemoryAccessPlan) :
    Except Failure MacEngine :=
  let weight := plan.placements.filter fun p => decide (p.category = .weight)
  let totalWeightSpill := (weight.map (·.spillBytes)).sum
  if totalWeightSpill = 0 then
    match fastestAllocatedTier plan .weight with
    | none => .ok e
    | some fastest =>
      match tiers.find? fun tier => decide (tier.name = fastest) with
      | none => .error (.keyError ("tier not found: " ++ reprStr fastest))
      | some tier =>
        match hbw : bandwidthGbpsToBytesPerCycle tier.effectiveReadBwGbps e.fMhz with
        | .error err => .error err
        | .ok bw =>
          .ok (e.withBandwidth bw (bytesPerCycle_nonneg hbw tier.effectiveReadBwGbps_nonneg))
  else .ok e

/-- Plan the memory of a graph and take the bandwidth for weights from the plan. -/
def planMemory (e : MacEngine) (py : Builtins) (c : HardwareConfig) (graph : WorkloadGraph) :
    Except Failure MacEngine := do
  let tiers ← buildHierarchyFromConfig py c
  let plan ← ofPlanner (buildMemoryAccessPlan py graph (hierarchyOf tiers) 1 .empty true)
  e.applyMemoryPlan tiers plan

/-- The common part of an engine for a graph. -/
def init (py : Builtins) (c : HardwareConfig) (graph : WorkloadGraph) :
    Except Failure MacEngine := do
  let e ← parseConfig c
  e.planMemory py c graph

/-- The most multiply-accumulates in a cycle. -/
def peakMacsPerCycle (e : MacEngine) : ℕ := e.height * e.width * e.opsPerMac

/-- The utilization of the external memory for a transfer, zero if the transfer is cached. -/
def dramEffForBytes (e : MacEngine) (transferBytes : ℕ) : ℚ :=
  if transferBytes = 0 then 1
  else
    let wbufMb : ℚ := e.wbufKb / 1024
    let weightMb : ℚ := transferBytes / (1024 * 1024)
    if weightMb ≤ wbufMb then 0
    else
      let ratio := wbufMb / weightMb
      0.55 + 0.40 * ratio / (0.3 + ratio)

/-- The utilization of the external memory for random reads. -/
def kvDramEfficiency (e : MacEngine) (kvBytes : ℕ) : ℚ :=
  if kvBytes = 0 then 1
  else
    let kvbufMb : ℚ := e.kvbufKb / 1024
    let kvMb : ℚ := kvBytes / (1024 * 1024)
    let ratio := kvbufMb / max kvMb 0.001
    0.55 + 0.40 * ratio / (0.3 + ratio)

/-- The bytes per cycle of random reads. -/
def kvEffBw (e : MacEngine) (kvBytes : ℕ) : ℚ := e.effBwKv * e.kvDramEfficiency kvBytes

/-- The cycles of a transfer. -/
def dmaCycles (e : MacEngine) (sizeBytes : ℕ) (accessType : AccessType) (kvBytes : ℕ)
    (isHit : Bool) : ℚ :=
  if sizeBytes = 0 then 0
  else
    match accessType with
    | .random =>
      let effBw := e.kvEffBw kvBytes
      let penalty : ℚ := if isHit then 0 else e.randomLatencyPenaltyCycles
      if 0 < effBw then sizeBytes / effBw + penalty else 0
    | .sequential => if 0 < e.effBwWeight then sizeBytes / e.effBwWeight else 0

/-- The cycles of a sequential transfer. -/
def seqCycles (e : MacEngine) (sizeBytes : ℕ) : ℚ := e.dmaCycles sizeBytes .sequential 0 false

/-- A division that raises when its divisor is zero. -/
def divide (a b : ℚ) : Except Failure ℚ :=
  if b = 0 then .error .zeroDivisionError else .ok (a / b)

/-- The cycles in which weights are loaded, none if they are cached. -/
def weightDmaCycles (e : MacEngine) (weightBytes : ℕ) : Except Failure ℚ :=
  let eff := e.dramEffForBytes weightBytes
  if eff ≤ 0 then .ok 0 else divide weightBytes (e.effBwWeight * eff)

/-- The bytes of the weights and the activations of a product. -/
def rawBytes (e : MacEngine) (m k n : ℕ) : ℕ := k * n * e.wBits / 8 + m * k * e.aBits / 8

/-- The cycles of raw transfers at a bandwidth. -/
def rawCycles (rawBytes : ℕ) (bw : ℚ) : ℤ := if 0 < bw then ⌈rawBytes / bw⌉ else 0

/-- The cycles of multiply-accumulates at the peak. -/
def idealCycles (e : MacEngine) (macs : ℕ) : ℕ := macs ⌈/⌉ e.peakMacsPerCycle

/-- The bytes of the weights of a tile of the array. -/
def tileWeightBytes (e : MacEngine) : ℕ := (e.height * e.width * e.wBits) ⌈/⌉ 8

/-- The bytes of the activations of a tile of the array. -/
def tileActBytes (e : MacEngine) (m : ℕ) : ℕ := (m * e.height * e.aBits) ⌈/⌉ 8

/-- The tiles of the weights of a product. -/
def totalTiles (e : MacEngine) (k n : ℕ) : ℕ := (k ⌈/⌉ e.height) * (n ⌈/⌉ e.width)

/-- The quotient of the ideal cycles and those of an estimate. -/
def utilizationOf (ideal : ℕ) (cycles : ℚ) : ℚ := if 0 < cycles then ideal / cycles else 0

/-- The cycles of tiles with two stages, the first tile cold. -/
def pipelineCycles (tiles : ℕ) (compute dma : ℚ) : ℚ :=
  let bottleneck := max compute dma
  let firstCold := dma + compute
  if 1 < tiles then firstCold + (tiles - 1) * bottleneck else firstCold

end MacEngine

end Engines

end NpuArc
