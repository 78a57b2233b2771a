import Mathlib.Algebra.BigOperators.Group.List.Basic
import Mathlib.Data.List.Nodup
import Mathlib.Tactic.Common

/-!
# The memory hierarchy

Tiers with a capacity and a reserve, ordered from fastest to slowest. Bandwidths,
latencies, and efficiencies play no part in residency planning.
-/

namespace NpuArc

/-- Canonical memory tier names. -/
def supportedTierNames : List String :=
  ["sram", "on_chip_3d_dram", "lpddr5", "lpddr5x", "hbm2e", "hbm3"]

/-- The name of the on-chip DRAM tier. -/
def onChip3dDram : String := "on_chip_3d_dram"

theorem onChip3dDram_supported : onChip3dDram ∈ supportedTierNames := by decide

theorem sram_supported : "sram" ∈ supportedTierNames := by decide

theorem lpddr5_supported : "lpddr5" ∈ supportedTierNames := by decide

/-- A memory tier. The reserve is the integer part of the reserved fraction of the
capacity, as the tier's property of that name computes it. -/
structure MemoryTier where
  name : String
  capacityBytes : ℕ
  reserveBytes : ℕ := 0
  name_supported : name ∈ supportedTierNames
  deriving DecidableEq

/-- The capacity available for tensor placement after the reserve. -/
def MemoryTier.usableBytes (tier : MemoryTier) : ℕ := tier.capacityBytes - tier.reserveBytes

theorem defaultAlignment_pos : 0 < 256 := by decide

/-- Tiers from fastest to slowest with the default alignment of allocations. -/
structure MemoryHierarchy where
  tiers : List MemoryTier
  defaultAlignmentBytes : ℕ := 256
  alignment_pos : 0 < defaultAlignmentBytes := by decide

/-- The tier names in order. -/
def MemoryHierarchy.names (hierarchy : MemoryHierarchy) : List String :=
  hierarchy.tiers.map (·.name)

/-- The name of the slowest of some tiers, or the host if there is none. -/
def slowestName (tiers : List MemoryTier) : String :=
  (tiers.getLast?.map (·.name)).getD "host"

end NpuArc
