import NpuArc.Engines.MacEngine
import NpuArc.Simulator.Config

/-!
# The units beside the matrix unit

The unit of special functions and the vector unit process elements in batches of their width, with
a latency for each operation. Refreshing the memory takes a share of all cycles.
-/

namespace NpuArc

namespace Simulator

open Engines Residency

/-- The batches in which a unit of some width processes elements. -/
def batches (numElements : ℕ) (width : ℕ+) : ℕ := (numElements + width - 1) / width

/-! ### Special functions -/

/-- The unit of special functions. -/
structure SfuModel where
  width : ℕ+
  latencyMap : Dict String ℕ

namespace SfuModel

/-- The latencies of the operations that a configuration may change. -/
def configurable : List (String × ℕ) :=
  [("exp", 12), ("div", 16), ("sqrt", 20), ("log", 18), ("tanh", 14), ("gelu", 4), ("silu", 4),
    ("layernorm", 6), ("rmsnorm", 6), ("rope", 12), ("softmax", 8), ("maxpool", 3), ("avgpool", 3)]

/-- The latencies of the other operations. -/
def fixedLatencies : List (String × ℕ) :=
  [("relu", 1), ("h_swish", 4), ("hard_sigmoid", 3), ("global_avg_pool", 8)]

/-- The unit of a configuration. -/
def create (c : SimulatorConfig) : SfuModel where
  width := c.sfu.width
  latencyMap := .ofList (configurable.map (fun op =>
    (op.1, (c.sfu.pipelineCycles.get? op.1).getD op.2)) ++ fixedLatencies)

/-- The cycles of an operation on some elements. -/
def estimate (sfu : SfuModel) (py : Builtins) (opType : String) (numElements : ℕ) : ℕ :=
  batches numElements sfu.width * (sfu.latencyMap.get? (py.lower opType)).getD 4

/-- The cycles of an operation of the softmax. -/
def softmaxPart (sfu : SfuModel) (op : String) (numElements : ℕ) : ℕ :=
  batches numElements sfu.width * (sfu.latencyMap.get? op).getD 0

/-- The exponentials and the divisions of a softmax. -/
def estimateSoftmaxDecomposed (sfu : SfuModel) (numElements : ℕ) : ℕ × ℕ :=
  (sfu.softmaxPart "exp" numElements, sfu.softmaxPart "div" numElements)

end SfuModel

/-! ### Vectors -/

/-- The vector unit. -/
structure VectorModel where
  width : ℕ+
  opLatency : Dict String ℕ

/-- The vector parts of a softmax. -/
structure SoftmaxVectorParts where
  maxReduce : ℕ
  scaleSub : ℕ
  sumReduce : ℕ

namespace VectorModel

/-- The latencies of the operations. -/
def latencies : List (String × ℕ) :=
  [("add", 1), ("mul", 1), ("scale", 1), ("bias", 1), ("relu", 1), ("mask", 1), ("max", 12),
    ("sum", 12), ("reduce", 12), ("conv_f16_i32", 260), ("resid", 5)]

/-- The unit of a configuration, whose clock is that of the matrix unit in whole megahertz. -/
def create (c : SimulatorConfig) : Except Failure VectorModel := do
  let frequencyMhz : ℕ := (truncate (PosRat.orDefault (c.mxu.getD {}).frequencyMhz 1000)).toNat
  let _ ← bandwidthGbpsToBytesPerCycle (PosRat.orDefault c.memory.bandwidthGbps 51.2) frequencyMhz
  .ok
    { width := c.vector.width.getD (Nat.succPNat 127)
      opLatency := .ofList (latencies.map fun op =>
        (op.1, (c.vector.ops.get? op.1).getD op.2)) }

/-- The cycles of an operation on some elements. -/
def estimate (vec : VectorModel) (py : Builtins) (opType : String) (numElements : ℕ) : ℕ :=
  batches numElements vec.width * (vec.opLatency.get? (py.lower opType)).getD 1

/-- The cycles of an operation of the softmax. -/
def softmaxPart (vec : VectorModel) (op : String) (numElements : ℕ) : ℕ :=
  batches numElements vec.width * (vec.opLatency.get? op).getD 0

/-- The vector parts of a softmax on some elements. -/
def estimateSoftmaxVectorParts (vec : VectorModel) (numElements : ℕ) : SoftmaxVectorParts where
  maxReduce := vec.softmaxPart "max" numElements
  scaleSub := vec.softmaxPart "scale" numElements
  sumReduce := vec.softmaxPart "sum" numElements

/-- The cycles of a residual connection. -/
def estimateResidualAdd (vec : VectorModel) (py : Builtins) (numElements : ℕ) : ℕ :=
  vec.estimate py "add" numElements

end VectorModel

/-! ### Refreshing the memory -/

/-- The memory as far as it is refreshed. -/
structure DramModel where
  refreshOverheadPct : ℚ

namespace DramModel

/-- The memory of a configuration, which must give the clock of the matrix unit and the bandwidth of
the memory. -/
def create (c : SimulatorConfig) : Except Failure DramModel :=
  match c.mxu with
  | none => .error (.keyError "mxu")
  | some mxu =>
    match mxu.frequencyMhz with
    | none => .error (.keyError "frequency_mhz")
    | some fMhz =>
      match c.memory.bandwidthGbps with
      | none => .error (.keyError "bandwidth_gbps")
      | some _ =>
        let nsPerCycle : ℚ := 1000 / fMhz.val
        .ok { refreshOverheadPct := 210 / nsPerCycle / (3900 / nsPerCycle) * 100 }

/-- The cycles in which the memory is refreshed. -/
def addRefreshOverhead (dram : DramModel) (totalCycles : ℕ) : ℕ :=
  (truncate (totalCycles * (dram.refreshOverheadPct / 100))).toNat

end DramModel

end Simulator

end NpuArc
