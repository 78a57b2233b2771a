import NpuArc.Engines.Config
import NpuArc.Library.Dict

/-!
# Configurations of the simulator

The simulator reads sections of its own besides those of the engines. The widths of its units are
positive and their latencies are natural numbers.
-/

namespace NpuArc

namespace Simulator

/-- The section of the unit of special functions, with latencies by operation. -/
structure SfuSection where
  width : ℕ+
  pipelineCycles : Dict String ℕ := .empty

/-- The section of the vector unit, with latencies by operation. -/
structure VectorSection where
  width : Option ℕ+ := none
  ops : Dict String ℕ := .empty

/-- The section of the KV cache. -/
structure KvCacheSection where
  sramKb : ℕ
  dramRegionMb : ℕ
  precisionBits : ℕ

/-- The section of the network. -/
structure InterconnectSection where
  type : Option String := none
  ports : Option ℕ+ := none
  hopLatencyCycles : Option ℕ := none
  flitWidthBits : Option ℕ := none
  bufferDepth : Option ℕ := none
  arbitration : Option String := none

/-- A configuration of the simulator. -/
structure SimulatorConfig extends Engines.HardwareConfig where
  sfu : SfuSection
  vector : VectorSection := {}
  kvCache : KvCacheSection
  interconnect : InterconnectSection := {}

end Simulator

end NpuArc
