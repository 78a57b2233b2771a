import NpuArc.Contracts.Identity
import NpuArc.Dse.Space

/-!
# Hardware configurations

A combination is merged into the base configuration, section by section. A section that the
base configuration lacks is created; one that it has is a mapping.
-/

namespace NpuArc

namespace Dse

/-- A mapping as a dictionary; anything else is none. -/
def Tree.asDict : Tree → Option (Dict String Tree)
  | .dict l => if h : (l.map Prod.fst).Nodup then some ⟨l, h⟩ else none
  | .leaf _ | .list _ => none

/-- The sections that the builder writes. -/
def sectionNames : List String :=
  ["mac_engine", "memory", "sram", "on_chip_memory", "optimizations", "area_model"]

/-- A base hardware configuration. -/
structure BaseConfig where
  entries : Dict String Tree
  /-- The sections are mappings. -/
  sections : ∀ name ∈ sectionNames, ∀ t, entries.get? name = some t → (Tree.asDict t).isSome

/-- The labels of memory types. -/
def memoryTypeLabels : Dict String String :=
  .ofList [("lpddr5", "LPDDR5-6400"), ("lpddr5x", "LPDDR5X-8533"), ("hbm2e", "HBM2e"),
    ("hbm3", "HBM3"), ("on_chip_3d_dram", "OnChip3D")]

/-- The efficiencies of memory types. -/
def memoryEfficiencies : Dict String ℚ :=
  .ofList [("lpddr5", 85 / 100), ("lpddr5x", 85 / 100), ("hbm2e", 85 / 100),
    ("hbm3", 85 / 100), ("on_chip_3d_dram", 1)]

/-- The label of a memory type, which is the type itself if it has none. -/
def memoryLabel : Scalar → Scalar
  | .str name => .str ((memoryTypeLabels.get? name).getD name)
  | other => other

/-- The efficiency of a memory type. -/
def memoryEfficiency : Scalar → Scalar
  | .str name => .float ((memoryEfficiencies.get? name).getD (85 / 100))
  | _ => .float (85 / 100)

/-- The dataflow of an engine. -/
def dataflow (engine : Scalar) : String :=
  if engine == .str "os_systolic" then "output_stationary" else "weight_stationary"

/-- A section of a configuration, empty if it is missing. -/
def sectionOf (cfg : Dict String Tree) (name : String) : Dict String Tree :=
  ((cfg.get? name).bind Tree.asDict).getD .empty

/-- The axes that the builder reads, in the order of the reads. -/
def hardwareAxes : List String :=
  ["memory_type", "engine", "array_height", "array_width", "frequency_mhz",
    "weight_precision_bits", "activation_precision_bits", "bandwidth_gbps", "dram_width_bits",
    "sram_l2_kb", "on_chip_capacity_gb", "on_chip_bandwidth_gbps", "weight_cache"]

/-- The engine section of a combination. -/
def macEngine (cfg : Dict String Tree) (combo : Combo Scalar) : Dict String Tree :=
  (sectionOf cfg "mac_engine").update
    [("type", .leaf (combo.value "engine")),
      ("array_height", .leaf (combo.value "array_height")),
      ("array_width", .leaf (combo.value "array_width")),
      ("frequency_mhz", .leaf (combo.value "frequency_mhz")),
      ("weight_precision_bits", .leaf (combo.value "weight_precision_bits")),
      ("activation_precision_bits", .leaf (combo.value "activation_precision_bits")),
      ("dataflow", .leaf (.str (dataflow (combo.value "engine")))),
      ("double_buffer", .leaf (.bool true)), ("ops_per_mac", .leaf (.int 2))]

/-- The external memory section of a combination. -/
def memory (cfg : Dict String Tree) (combo : Combo Scalar) : Dict String Tree :=
  ((sectionOf cfg "memory").update
    [("type", .leaf (memoryLabel (combo.value "memory_type"))),
      ("bandwidth_gbps", .leaf (combo.value "bandwidth_gbps")),
      ("dram_efficiency", .leaf (memoryEfficiency (combo.value "memory_type"))),
      ("dram_width_bits", .leaf (combo.value "dram_width_bits"))]).setDefaults
    [("tRC_cycles", .leaf (.int 48)), ("tRAS_cycles", .leaf (.int 42)),
      ("refresh_overhead_percent", .leaf (.float 3))]

/-- The SRAM section of a combination. -/
def sram (cfg : Dict String Tree) (combo : Combo Scalar) : Dict String Tree :=
  ((sectionOf cfg "sram").update [("l2_shared_kb", .leaf (combo.value "sram_l2_kb"))]).setDefaults
    [("l1_per_core_kb", .leaf (.int 512)), ("banks", .leaf (.int 16)),
      ("read_width_bits", .leaf (.int 256)), ("write_width_bits", .leaf (.int 256))]

/-- The on-chip memory section of a combination. -/
def onChipMemory (cfg : Dict String Tree) (combo : Combo Scalar) : Dict String Tree :=
  (sectionOf cfg "on_chip_memory").update
    [("capacity_gb", .leaf (combo.value "on_chip_capacity_gb")),
      ("bandwidth_gbps", .leaf (combo.value "on_chip_bandwidth_gbps"))]

/-- The optimizations section of a combination. -/
def optimizations (cfg : Dict String Tree) (combo : Combo Scalar) : Dict String Tree :=
  ((sectionOf cfg "optimizations").update
    [("weight_cache", .leaf (combo.value "weight_cache"))]).setDefaults
    [("dma_bw_multiplier", .leaf (.float 1))]

/-- Write the process node of a combination to the area section, if it has one. -/
def writeProcessNode (cfg : Dict String Tree) (combo : Combo Scalar) : Dict String Tree :=
  (combo.get? "process_node").elim cfg fun node =>
    cfg.insert "area_model"
      (.dict ((sectionOf cfg "area_model").insert "process_node" (.leaf node)).entries)

/-- Merge axis values into the base hardware configuration. A missing axis is an error. -/
def buildHardwareConfig (base : BaseConfig) (combo : Combo Scalar) :
    Except Error (Dict String Tree) := do
  hardwareAxes.forM fun axis => (combo.read axis).map fun _ => ()
  let cfg := base.entries.update
    [("mac_engine", .dict (macEngine base.entries combo).entries),
      ("memory", .dict (memory base.entries combo).entries),
      ("sram", .dict (sram base.entries combo).entries),
      ("on_chip_memory", .dict (onChipMemory base.entries combo).entries),
      ("optimizations", .dict (optimizations base.entries combo).entries)]
  .ok ((writeProcessNode cfg combo).setDefault "version" (.leaf (.str "2")))

/-- What the digest of a design point is taken of, as a mapping. -/
def idSourceTree (source : IdSource Scalar (Dict String Tree)) : Dict String Tree :=
  .ofList
    [("hardware", .dict source.hardware.entries),
      ("scenario_ref", .leaf (.str source.scenarioRef)),
      ("workload_ref", .leaf (source.workloadRef.elim .null .str)),
      ("temporal", .dict (source.temporal.mapValues fun _ v => .leaf v).entries)]

/-- The builder of the design space over a base configuration. -/
def hardwareBuilder (py : Hashing) (base : BaseConfig) : Builder Scalar (Dict String Tree) where
  buildHardwareConfig := buildHardwareConfig base
  digestSha256 source := py.digestSha256 (idSourceTree source)

/-! ### A sample configuration -/

/-- The hash of a sample is the text itself, and a float is written as a fraction. -/
def sampleHashing : Hashing := ⟨fun q => toString q.num ++ "/" ++ toString q.den, id⟩

/-- A base configuration without sections. -/
def sampleBase : BaseConfig := ⟨.empty, by intro name _ t h; cases h⟩

/-- One value for every axis that the builder reads. -/
def sampleDefaults : Combo Scalar :=
  .ofList [("memory_type", .str "lpddr5"), ("engine", .str "block"), ("array_height", .int 64),
    ("array_width", .int 64), ("frequency_mhz", .int 1000), ("weight_precision_bits", .int 8),
    ("activation_precision_bits", .int 8), ("bandwidth_gbps", .int 51),
    ("dram_width_bits", .int 64), ("sram_l2_kb", .int 2048), ("on_chip_capacity_gb", .int 0),
    ("on_chip_bandwidth_gbps", .int 0), ("weight_cache", .bool false), ("process_node", .int 7)]

/-- An axes configuration with these values, where some axes are given more of them. -/
def sampleConfig (axes : List (String × List Scalar))
    (constraints : List (RawConstraint Scalar)) : AxesConfig Scalar :=
  { axes := (sampleDefaults.mapValues fun _ v => [v]).update axes
    defaults := sampleDefaults
    constraints }

def sampleScenario : ScenarioBinding Scalar := ⟨"edge", some "llm", none⟩

end Dse

end NpuArc
