import NpuArc.Memory.Residency
import NpuArc.Simulator.Config
import Mathlib.Algebra.Order.Floor.Div
import Mathlib.Data.Nat.Sqrt
import NpuArc.Library.Maxima
import NpuArc.Memory.Safety
import Mathlib.Algebra.Order.Floor.Semifield
import Mathlib.Data.Rat.Floor
import Mathlib.Tactic.FieldSimp

/-!
# The network

Transfers cross a crossbar or a mesh whose nodes are numbered by rows. A transfer takes a cycle for
each flit, the latency of its hops and the stall of their buffers, and on a crossbar an arbitration.
-/

namespace NpuArc

namespace Simulator

open Residency

/-- The network. -/
structure NocModel where
  topology : String
  ports : ℕ+
  hopLatencyCycles : ℕ
  flitWidthBits : ℕ
  bufferDepth : ℕ
  arbitration : String
  rows : ℕ
  cols : ℕ

namespace NocModel

/-- The square root of a number, rounded up. -/
def ceilSqrt (n : ℕ) : ℕ := if n.sqrt * n.sqrt = n then n.sqrt else n.sqrt + 1

/-- The rows and columns of a mesh, as close to a square as the number of nodes allows. -/
def computeDims (ports : ℕ) : ℕ × ℕ :=
  let limit := ceilSqrt ports
  match (List.range' 1 limit).reverse.find? fun c => decide (ports % c = 0) with
  | some c => (min (ports / c) c, max (ports / c) c)
  | none => (ports ⌈/⌉ limit, limit)

/-- The network of a configuration. -/
def create (c : SimulatorConfig) : NocModel :=
  let ports := c.interconnect.ports.getD (Nat.succPNat 3)
  let dims := computeDims ports
  { topology := c.interconnect.type.getD "crossbar"
    ports := ports
    hopLatencyCycles := c.interconnect.hopLatencyCycles.getD 3
    flitWidthBits := c.interconnect.flitWidthBits.getD 256
    bufferDepth := c.interconnect.bufferDepth.getD 4
    arbitration := c.interconnect.arbitration.getD "round_robin"
    rows := dims.1
    cols := dims.2 }

/-- The row and the column of a node. -/
def nodeCoords (noc : NocModel) (nodeId : ℕ) : ℕ × ℕ := (nodeId / noc.cols, nodeId % noc.cols)

/-- The hops between two nodes of a mesh. -/
def meshHops (noc : NocModel) (srcId dstId : ℕ) : ℕ :=
  let src := noc.nodeCoords srcId
  let dst := noc.nodeCoords dstId
  ((src.1 : ℤ) - dst.1).natAbs + ((src.2 : ℤ) - dst.2).natAbs

/-- The cycles of an arbitration. -/
def arbitrationCycles (noc : NocModel) (py : Builtins) : ℕ :=
  if py.lower noc.arbitration ∈ ["fixed_priority", "priority"] then 1 else 3

/-- The cycles of a transfer. -/
def estimateTransfer (noc : NocModel) (py : Builtins) (sizeBytes srcId dstId : ℕ) : ℕ :=
  if sizeBytes = 0 then 0
  else
    let bytesPerFlit := max 1 (noc.flitWidthBits / 8)
    let serialCycles := sizeBytes ⌈/⌉ bytesPerFlit
    if noc.topology = "crossbar" then
      noc.hopLatencyCycles + serialCycles + noc.arbitrationCycles py + noc.bufferDepth
    else
      let hopCount := noc.meshHops srcId dstId
      hopCount * noc.hopLatencyCycles + serialCycles + noc.bufferDepth * hopCount

end NocModel

/-! ### Batches of transfers on the network

The transfers of a batch run in parallel, and the costliest one is slowed by contention. Each
transfer counts as an active port, also one that shares its ports or is empty. -/

/-- A transfer on the network. -/
structure NoCTransfer where
  srcId : ℕ
  dstId : ℕ
  sizeBytes : ℕ
  priority : ℤ := 0

namespace NocModel

/-- The contention of active ports. -/
def estimateContention (numActivePorts totalPorts : ℤ) : ℚ :=
  if totalPorts ≤ 0 then 0 else max 0 ((numActivePorts - 1 : ℤ) : ℚ) / totalPorts

/-- The cycles of the transfers of a batch, one by one. -/
def individual (noc : NocModel) (py : Builtins) (transfers : List NoCTransfer) : List ℕ :=
  transfers.map fun t => noc.estimateTransfer py t.sizeBytes t.srcId t.dstId

/-- The cycles of a batch. -/
def estimateTotal (noc : NocModel) (py : Builtins) (transfers : List NoCTransfer) : ℕ :=
  if transfers.isEmpty then 0
  else
    let base := (noc.individual py transfers).foldl max 0
    let contention := estimateContention transfers.length (noc.ports : ℕ)
    ⌊base * (1 + contention)⌋₊

/-! ### The contention of a batch -/

/-- The costliest transfer of a batch. -/
def costliest (noc : NocModel) (py : Builtins) (transfers : List NoCTransfer) : ℕ :=
  (noc.individual py transfers).foldl max 0

/-- The cycles that contention adds to the costliest of some transfers. -/
def surcharge (noc : NocModel) (py : Builtins) (transfers : List NoCTransfer) (active : ℕ) : ℕ :=
  noc.costliest py transfers * (active - 1) / (noc.ports : ℕ)

/-- The bounds of a batch: its contention is a share, its cycles lie between those of the costliest
transfer and of all together, and an empty transfer does not add to them. -/
structure BatchBounded (noc : NocModel) (py : Builtins) (transfers : List NoCTransfer) : Prop where
  contention_nonneg : 0 ≤ estimateContention transfers.length (noc.ports : ℕ)
  contention_le : estimateContention transfers.length (noc.ports : ℕ) ≤ 1
  le_total : ∀ cycles ∈ noc.individual py transfers, cycles ≤ noc.estimateTotal py transfers
  total_le : noc.estimateTotal py transfers ≤ (noc.individual py transfers).sum
  empty_le : ∀ before after empty, transfers = before ++ after → empty.sizeBytes = 0 →
    noc.estimateTotal py (before ++ empty :: after) ≤ noc.estimateTotal py transfers

/-- A batch with at most one transfer more than ports, whose contention adds no more than the other
transfers take, and no more if one more is active. -/
structure LittleContention (noc : NocModel) (py : Builtins) (transfers : List NoCTransfer) :
    Prop where
  length_le : transfers.length ≤ (noc.ports : ℕ) + 1
  surcharge_le : noc.costliest py transfers + noc.surcharge py transfers transfers.length ≤
    (noc.individual py transfers).sum
  surcharge_succ : noc.surcharge py transfers (transfers.length + 1) =
    noc.surcharge py transfers transfers.length

variable {noc : NocModel} {py : Builtins} {transfers : List NoCTransfer}

theorem estimateContention_eq (active ports : ℕ) (hports : 0 < ports) :
    estimateContention active ports = ((active - 1 : ℕ) : ℚ) / ports := by
  rw [estimateContention, if_neg (by omega)]
  congr 1
  rcases Nat.eq_zero_or_pos active with rfl | hactive
  · norm_num
  · rw [Nat.cast_sub hactive]
    have hle : (1 : ℚ) ≤ active := by exact_mod_cast hactive
    push_cast
    exact max_eq_right (sub_nonneg.mpr hle)

/-- The cycles of a batch are those of its costliest transfer and its contention. -/
theorem estimateTotal_eq (noc : NocModel) (py : Builtins) (transfers : List NoCTransfer) :
    noc.estimateTotal py transfers =
      noc.costliest py transfers + noc.surcharge py transfers transfers.length := by
  unfold estimateTotal surcharge
  cases transfers with
  | nil => simp [costliest, individual]
  | cons t transfers =>
    rw [if_neg (by simp)]
    dsimp only
    rw [estimateContention_eq _ _ noc.ports.pos]
    change ⌊(noc.costliest py (t :: transfers) : ℚ) * _⌋₊ = _
    have hsplit : ∀ base : ℕ, (base : ℚ) * (1 + (((t :: transfers).length - 1 : ℕ) : ℚ) /
        (noc.ports : ℕ)) =
          ((base * ((t :: transfers).length - 1) : ℕ) : ℚ) / (noc.ports : ℕ) + base := by
      intro base
      push_cast
      ring
    rw [hsplit, Nat.floor_add_natCast (by positivity), Nat.floor_div_eq_div, Nat.add_comm]

theorem estimateTransfer_empty (noc : NocModel) (py : Builtins) (srcId dstId : ℕ) :
    noc.estimateTransfer py 0 srcId dstId = 0 := if_pos rfl

/-- An empty transfer is never costlier than the others. -/
theorem costliest_insert_empty (before after : List NoCTransfer) {empty : NoCTransfer}
    (h : empty.sizeBytes = 0) :
    noc.costliest py (before ++ empty :: after) = noc.costliest py (before ++ after) := by
  refine eq_of_forall_ge_iff fun bound => ?_
  unfold costliest individual
  rw [foldl_max_le_iff, foldl_max_le_iff, List.map_append, List.map_cons, List.map_append, h,
    estimateTransfer_empty, List.forall_mem_append, List.forall_mem_cons, List.forall_mem_append]
  exact and_congr_right fun _ => and_congr_right fun _ => and_iff_right (Nat.zero_le bound)

/-- A crossbar with four ports. -/
def smallCrossbar : NocModel where
  topology := "crossbar"
  ports := Nat.succPNat 3
  hopLatencyCycles := 3
  flitWidthBits := 256
  bufferDepth := 4
  arbitration := "round_robin"
  rows := 2
  cols := 2

end NocModel

end Simulator

end NpuArc
