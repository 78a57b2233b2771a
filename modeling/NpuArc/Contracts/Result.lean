import NpuArc.Library.PyFloat

/-!
# Typed run outcomes

The result of evaluating one design point: its status, its trust level, the engine it ran
on, and its metrics. Metrics are looked up by field name, so they are listed under the
names of their fields.
-/

namespace NpuArc

/-- Per-design-point run status. -/
inductive RunStatus
  | complete
  | inPart
  | failed
  | filtered
  deriving DecidableEq

def RunStatus.value : RunStatus → String
  | .complete => "complete"
  | .inPart => "partial"
  | .failed => "failed"
  | .filtered => "filtered"

/-- Trust level of a design-point result. -/
inductive RunTrustLevel
  | authoritative
  | calibratedEstimate
  | exploratory
  | nonAuthoritative
  deriving DecidableEq

def RunTrustLevel.value : RunTrustLevel → String
  | .authoritative => "authoritative"
  | .calibratedEstimate => "calibrated_estimate"
  | .exploratory => "exploratory"
  | .nonAuthoritative => "non_authoritative"

/-- Latency and throughput metrics for a single engine evaluation. -/
structure EngineMetrics where
  tokPerS : PyFloat
  areaMm2 : PyFloat
  powerW : PyFloat
  ttftMs : PyFloat := .ofRat 0
  efficiencyTokPerWatt : PyFloat := .ofRat 0
  efficiencyTokPerMm2 : PyFloat := .ofRat 0
  completedThroughputHz : Option PyFloat := none
  macCount : Option ℤ := none
  opCount : Option ℤ := none
  totalCycles : Option ℤ := none
  utilization : Option PyFloat := none
  sramSpillMb : Option PyFloat := none
  depthwiseUtilPct : Option PyFloat := none
  avgLatencyS : Option PyFloat := none
  p50LatencyS : Option PyFloat := none
  p99LatencyS : Option PyFloat := none
  maxLatencyS : Option PyFloat := none
  deadlineMissCount : Option ℤ := none
  dropCount : Option ℤ := none
  memoryFootprintGib : Option PyFloat := none
  spillBytes : Option ℤ := none
  energyJoules : Option PyFloat := none

namespace EngineMetrics

/-- The metrics under the names of their fields, `none` for the value `None`. -/
def fields (m : EngineMetrics) : List (String × Option PyFloat) :=
  [("tok_per_s", some m.tokPerS), ("area_mm2", some m.areaMm2), ("power_w", some m.powerW),
    ("ttft_ms", some m.ttftMs), ("efficiency_tok_per_watt", some m.efficiencyTokPerWatt),
    ("efficiency_tok_per_mm2", some m.efficiencyTokPerMm2),
    ("completed_throughput_hz", m.completedThroughputHz),
    ("mac_count", m.macCount.map .ofInt), ("op_count", m.opCount.map .ofInt),
    ("total_cycles", m.totalCycles.map .ofInt), ("utilization", m.utilization),
    ("sram_spill_mb", m.sramSpillMb), ("depthwise_util_pct", m.depthwiseUtilPct),
    ("avg_latency_s", m.avgLatencyS), ("p50_latency_s", m.p50LatencyS),
    ("p99_latency_s", m.p99LatencyS), ("max_latency_s", m.maxLatencyS),
    ("deadline_miss_count", m.deadlineMissCount.map .ofInt),
    ("drop_count", m.dropCount.map .ofInt), ("memory_footprint_gib", m.memoryFootprintGib),
    ("spill_bytes", m.spillBytes.map .ofInt), ("energy_joules", m.energyJoules)]

/-- No metric is NaN. -/
def NoNaN (m : EngineMetrics) : Prop := ∀ e ∈ m.fields, e.2 ≠ some .nan

end EngineMetrics

/-- Single design-point result, with the fields that the frontier reads. -/
structure DesignPointResult where
  designPointId : String
  status : RunStatus
  engineType : String := ""
  trustLevel : RunTrustLevel := .exploratory
  metrics : Option EngineMetrics := none

end NpuArc
