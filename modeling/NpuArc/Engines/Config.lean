import Mathlib.Data.NNRat.Defs
import Mathlib.Data.PNat.Notation
import Mathlib.Tactic.NormNum

/-!
# Hardware configurations

A configuration is a dictionary of sections, each with optional fields whose defaults stand where
they are read. The numbers of the contract are in the ranges that it accepts: dimensions and
precisions are positive integers, frequencies and external bandwidths are positive, and
efficiencies lie between zero and one. Numbers with a decimal point are rational.
-/

namespace NpuArc

namespace Engines

/-- A positive number. -/
abbrev PosRat := {x : ℚ // 0 < x}

/-- A number between zero and one. -/
abbrev UnitRat := {x : ℚ // 0 ≤ x ∧ x ≤ 1}

/-- The section of the engine. -/
structure MacSection where
  type : Option String := none
  arrayHeight : Option ℕ+ := none
  arrayWidth : Option ℕ+ := none
  frequencyMhz : Option PosRat := none
  weightPrecisionBits : Option ℕ+ := none
  activationPrecisionBits : Option ℕ+ := none
  opsPerMac : Option ℕ+ := none

/-- The section of the external memory. -/
structure MemorySection where
  type : Option String := none
  bandwidthGbps : Option PosRat := none
  dramEfficiency : Option UnitRat := none
  dramEfficiencyRandomBw : Option UnitRat := none
  randomLatencyPenaltyCycles : Option ℕ := none
  capacityGb : Option ℚ≥0 := none

/-- The section of the on-chip buffers. -/
structure SramSection where
  l1PerCoreKb : Option ℕ+ := none
  l2SharedKb : Option ℕ+ := none

/-- The section of the memory on the die. -/
structure OnChipSection where
  capacityGb : Option ℚ≥0 := none
  bandwidthGbps : Option ℚ≥0 := none

/-- The section of the optimizations. -/
structure OptimizationsSection where
  weightCache : Option Bool := none
  dmaBwMultiplier : Option PosRat := none

/-- A configuration. An empty section of the buffers is no section. -/
structure HardwareConfig where
  macEngine : Option MacSection := none
  mxu : Option MacSection := none
  memory : MemorySection := {}
  sram : Option SramSection := none
  onChipMemory : OnChipSection := {}
  optimizations : OptimizationsSection := {}
  /-- The fill and drain of the group engine, relative to a systolic array. -/
  gmmaPipelineScale : Option ℚ := none
  /-- The cycles in which a fragment is dispatched. -/
  wmmaFragmentSerializationCycles : Option ℚ := none
  /-- The cycles of a descriptor. -/
  dmaDescriptorOverheadCycles : Option ℤ := none

/-- The section of the engine, or the one of its former name. -/
def HardwareConfig.mac (c : HardwareConfig) : MacSection := c.macEngine.getD (c.mxu.getD {})

/-- The configuration with a bandwidth of the external memory and a second level of buffers. -/
def HardwareConfig.withMemory (c : HardwareConfig) (bandwidthGbps : PosRat) (l2SharedKb : ℕ+) :
    HardwareConfig :=
  { c with
    memory := { c.memory with bandwidthGbps := some bandwidthGbps }
    sram := some { c.sram.getD {} with l2SharedKb := some l2SharedKb } }

/-- A configuration of the second schema, which requires the engine with its type and array and
has no other sections than those of the engine, the memory and the buffers. -/
structure HardwareConfigV2 where
  type : String
  arrayHeight : ℕ+
  arrayWidth : ℕ+
  frequencyMhz : Option PosRat := none
  weightPrecisionBits : Option ℕ+ := none
  activationPrecisionBits : Option ℕ+ := none
  opsPerMac : Option ℕ+ := none
  memoryType : Option String := none
  bandwidthGbps : Option PosRat := none
  dramEfficiency : Option UnitRat := none
  dramEfficiencyRandomBw : Option UnitRat := none
  randomLatencyPenaltyCycles : Option ℕ := none
  sram : Option SramSection := none

/-- The dictionary of a configuration of the second schema. -/
def HardwareConfigV2.toConfig (v : HardwareConfigV2) : HardwareConfig where
  macEngine := some
    { type := some v.type
      arrayHeight := some v.arrayHeight
      arrayWidth := some v.arrayWidth
      frequencyMhz := v.frequencyMhz
      weightPrecisionBits := v.weightPrecisionBits
      activationPrecisionBits := v.activationPrecisionBits
      opsPerMac := v.opsPerMac }
  memory :=
    { type := v.memoryType
      bandwidthGbps := v.bandwidthGbps
      dramEfficiency := v.dramEfficiency
      dramEfficiencyRandomBw := v.dramEfficiencyRandomBw
      randomLatencyPenaltyCycles := v.randomLatencyPenaltyCycles }
  sram := v.sram

/-- An integer as a number with a decimal point is read. -/
def truncate (x : ℚ) : ℤ := if 0 ≤ x then x.floor else x.ceil

end Engines

end NpuArc
