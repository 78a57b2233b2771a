import NpuArc.Engines.MacEngine
import NpuArc.Library.StableSort
import Mathlib.Algebra.Order.Floor.Div
import Mathlib.Data.Fintype.Basic

/-!
# The memory transfers

Requests for transfers are queued on channels by their type, in the order of their arrival or by a
fixed priority of their types. The cycles of a channel are those of its requests with the overheads
of their descriptors, and a stall if they exceed its buffer. Channels work in parallel.
-/

namespace NpuArc

namespace Simulator

open Engines

/-- The section of the memory transfers. -/
structure DmaSection where
  burstSizeBytes : ℕ
  descriptorOverheadCycles : ℕ
  numChannels : Option ℕ := none
  perChannelFifoDepth : Option ℕ := none
  multiBlockMode : Option String := none
  llPrefetchEn : Option Bool := none
  arbitration : Option String := none

/-- The priorities of the types of requests for a fixed priority. -/
def requestTypePriority : List (String × ℕ) :=
  [("weight_load", 2), ("kv_access", 1), ("output_store", 0)]

/-- A transfer that is queued on a channel. -/
structure DMARequest where
  requestType : String
  sizeBytes : ℕ
  direction : String
  blockCount : ℕ := 1
  priority : ℤ := 0
  deriving DecidableEq

/-- The priority of the type of a request. -/
def DMARequest.typePriority (request : DMARequest) : ℕ :=
  (requestTypePriority.lookup request.requestType).getD 0

/-- The transfers of a configuration, with a queue for each channel. -/
structure DMAModel where
  burstSize : ℕ
  descriptorOverhead : ℕ
  numChannels : ℕ
  fifoDepth : ℕ
  multiBlockMode : String
  llPrefetchEn : Bool
  arbitration : String
  channelQueues : Fin numChannels → List DMARequest
  effBwWeight : ℚ
  effBwKv : ℚ
  randomLatencyPenaltyCycles : ℕ

namespace DMAModel

/-- The transfers of a configuration, with empty queues. -/
def create (c : HardwareConfig) (dma : DmaSection) : Except Failure DMAModel := do
  let freqMhz := PosRat.orDefault c.mac.frequencyMhz 1000
  let bwGbps := PosRat.orDefault c.memory.bandwidthGbps 51.2
  let bwBytesPerCycle ← bandwidthGbpsToBytesPerCycle bwGbps freqMhz
  return {
    burstSize := dma.burstSizeBytes
    descriptorOverhead := dma.descriptorOverheadCycles
    numChannels := dma.numChannels.getD 2
    fifoDepth := dma.perChannelFifoDepth.getD 64
    multiBlockMode := dma.multiBlockMode.getD "linked_list"
    llPrefetchEn := dma.llPrefetchEn.getD true
    arbitration := dma.arbitration.getD "round_robin"
    channelQueues := fun _ => []
    effBwWeight := bwBytesPerCycle * UnitRat.orDefault c.memory.dramEfficiency 0.85
    effBwKv := bwBytesPerCycle * UnitRat.orDefault c.memory.dramEfficiencyRandomBw 0.50
    randomLatencyPenaltyCycles := c.memory.randomLatencyPenaltyCycles.getD 40 }

variable (m : DMAModel)

/-- The cycles of a transfer, with the overhead of its descriptor and of its bursts. -/
def estimateTransfer (sizeBytes : ℕ) (accessType : AccessType) : Except Failure ℕ :=
  if sizeBytes = 0 then .ok 0
  else if m.burstSize = 0 then .error .zeroDivisionError
  else
    let numBursts := sizeBytes ⌈/⌉ m.burstSize
    let effBw := if accessType = .random then m.effBwKv else m.effBwWeight
    let latencyPenalty := if accessType = .random then m.randomLatencyPenaltyCycles else 0
    let transferCycles := if 0 < effBw then sizeBytes / effBw else 0
    .ok ⌈m.descriptorOverhead + transferCycles + numBursts + latencyPenalty⌉.toNat

/-- The channel of a type of requests. -/
def allocateChannel (requestType : String) : Except Failure (Fin m.numChannels) :=
  let mapping := [("weight_load", 0), ("kv_access", 1), ("output_store", 2)]
  let base := (mapping.lookup requestType).getD 0
  if h : 0 < m.numChannels then .ok ⟨base % m.numChannels, Nat.mod_lt base h⟩
  else .error .zeroDivisionError

/-- The place before the first request with a smaller priority, or else behind all of them. -/
def insertPosition (reqPrio insertAt : ℕ) : List (DMARequest × ℕ) → ℕ
  | [] => insertAt
  | (existing, i) :: rest =>
    if existing.typePriority < reqPrio then i else insertPosition reqPrio (i + 1) rest

/-- A queue with a further request. -/
def queueWith (queue : List DMARequest) (request : DMARequest) : List DMARequest :=
  if m.arbitration = "fixed_priority" then
    queue.insertIdx (insertPosition request.typePriority 0 queue.zipIdx) request
  else queue ++ [request]

/-- The queues with another one in the place of that of a channel. -/
def setQueue (ch : Fin m.numChannels) (queue : List DMARequest) : DMAModel :=
  { m with channelQueues := Function.update m.channelQueues ch queue }

/-- Queue a request on the channel of its type. -/
def enqueue (request : DMARequest) : Except Failure DMAModel := do
  let ch ← m.allocateChannel request.requestType
  return m.setQueue ch (m.queueWith (m.channelQueues ch) request)

/-- The cycles of the descriptors of a request and of the pointers that link its blocks. -/
def blockOverhead (req : DMARequest) : ℕ :=
  req.blockCount * m.descriptorOverhead +
    if m.multiBlockMode = "linked_list" then
      let llCycles := req.blockCount * 2
      if m.llPrefetchEn then max 1 (llCycles / 2) else llCycles
    else 0

/-- The stall of a channel whose bytes exceed its buffer. -/
def stallCycles (totalQueuedBytes : ℕ) : Except Failure ℕ :=
  let fifoCapacity := m.fifoDepth * m.burstSize
  if fifoCapacity < totalQueuedBytes then
    if m.burstSize = 0 then .error .zeroDivisionError
    else .ok ((totalQueuedBytes - fifoCapacity) ⌈/⌉ m.burstSize)
  else .ok 0

/-- The cycles of all requests of a channel. -/
def estimateChannelCycles (ch : Fin m.numChannels) : Except Failure ℕ := do
  let queue := m.channelQueues ch
  if queue.isEmpty then return 0
  let totalCycles ← queue.foldlM (fun totalCycles req => do
    -- The access type is left at its default.
    let transfer ← m.estimateTransfer req.sizeBytes .sequential
    return totalCycles + transfer + m.blockOverhead req) 0
  let totalQueuedBytes := (queue.map (·.sizeBytes)).sum
  let stall ← m.stallCycles totalQueuedBytes
  return totalCycles + stall

/-- The cycles of the busiest channel. -/
def estimateTotalCycles : Except Failure ℕ := do
  let cycles ← (List.finRange m.numChannels).mapM m.estimateChannelCycles
  return cycles.foldl max 0

/-- The request for the weights of a matrix. -/
def weightRequest (k n weightBits : ℕ) : DMARequest where
  requestType := "weight_load"
  sizeBytes := (k * n * weightBits) ⌈/⌉ 8
  direction := "load"

/-- The cycles to load a matrix behind what is queued, and the queues afterwards. The request is
queued for the estimate, and the last request of its channel is removed. -/
def estimateWeightLoad (k n weightBits : ℕ) : Except Failure ℕ × DMAModel :=
  match m.enqueue (weightRequest k n weightBits) with
  | .error failure => (.error failure, m)
  | .ok queued =>
    match queued.estimateTotalCycles with
    | .error failure => (.error failure, queued)
    | .ok cycles =>
      match queued.allocateChannel "weight_load" with
      | .error failure => (.error failure, queued)
      | .ok ch => (.ok cycles, queued.setQueue ch (queued.channelQueues ch).dropLast)

end DMAModel

/-! ### The queues of the channels

A request is queued on the channel of its type. With a fixed priority it is inserted before the
first request with a smaller priority, and so a queue is the stable sort of the requests that
arrived on its channel. -/

namespace DMAModel

/-! ### Insertion by priority -/

private theorem insertPosition_zipIdx (reqPrio i : ℕ) (queue : List DMARequest) :
    insertPosition reqPrio i (queue.zipIdx i) =
      i + (queue.takeWhile (StableSort.hasKeyFrom DMARequest.typePriority reqPrio)).length := by
  induction queue generalizing i with
  | nil => rfl
  | cons existing queue ih =>
    rw [List.zipIdx_cons, insertPosition]
    by_cases hprio : existing.typePriority < reqPrio
    · have hnot : ¬StableSort.hasKeyFrom DMARequest.typePriority reqPrio existing = true :=
        mt StableSort.hasKeyFrom_iff.mp (not_le.mpr hprio)
      rw [if_pos hprio, List.takeWhile_cons_of_neg hnot, List.length_nil, Nat.add_zero]
    · rw [if_neg hprio, ih,
        List.takeWhile_cons_of_pos (StableSort.hasKeyFrom_iff.mpr (not_lt.mp hprio)),
        List.length_cons]
      omega

private theorem insertIdx_length_append {α : Type} (before after : List α) (a : α) :
    (before ++ after).insertIdx before.length a = before ++ a :: after := by
  induction before with
  | nil => rfl
  | cons b before ih =>
    rw [List.cons_append, List.length_cons, List.insertIdx_succ_cons, ih, List.cons_append]

/-- With a fixed priority a request is queued before the first one with a smaller priority. -/
theorem queueWith_fixedPriority {m : DMAModel} (harb : m.arbitration = "fixed_priority")
    (queue : List DMARequest) (request : DMARequest) :
    m.queueWith queue request = StableSort.insert DMARequest.typePriority request queue := by
  rw [queueWith, if_pos harb, insertPosition_zipIdx, Nat.zero_add]
  conv_lhs =>
    arg 1
    rw [← List.takeWhile_append_dropWhile
      (p := StableSort.hasKeyFrom DMARequest.typePriority request.typePriority) (l := queue)]
  exact insertIdx_length_append _ _ _

/-- A queue gains its new request. -/
theorem queueWith_perm (m : DMAModel) (queue : List DMARequest) (request : DMARequest) :
    (m.queueWith queue request).Perm (request :: queue) := by
  by_cases harb : m.arbitration = "fixed_priority"
  · rw [queueWith_fixedPriority harb, StableSort.insert]
    refine List.perm_middle.trans (.cons _ ?_)
    rw [List.takeWhile_append_dropWhile]
  · rw [queueWith, if_neg harb]
    exact List.perm_append_singleton _ _

/-! ### Channels -/

/-- Whether the requests of a type are queued on a channel. -/
def mapsTo (m : DMAModel) (ch : Fin m.numChannels) (request : DMARequest) : Bool :=
  decide ((m.allocateChannel request.requestType).toOption = some ch)

theorem mapsTo_iff {m : DMAModel} {ch ch' : Fin m.numChannels} {request : DMARequest}
    (h : m.allocateChannel request.requestType = .ok ch') :
    m.mapsTo ch request = true ↔ ch' = ch := by
  rw [mapsTo, h, decide_eq_true_iff]
  exact Option.some_inj

/-- Every type has a channel if there is one. -/
theorem allocateChannel_ok {m : DMAModel} (hpos : 0 < m.numChannels) (requestType : String) :
    ∃ ch, m.allocateChannel requestType = .ok ch :=
  ⟨_, dif_pos hpos⟩

theorem enqueue_eq_ok {m m' : DMAModel} {request : DMARequest} :
    m.enqueue request = .ok m' ↔ ∃ ch, m.allocateChannel request.requestType = .ok ch ∧
      m' = m.setQueue ch (m.queueWith (m.channelQueues ch) request) := by
  rw [enqueue, bind_eq_ok]
  refine exists_congr fun ch => and_congr_right fun _ => ?_
  constructor
  · intro h
    cases h
    rfl
  · rintro rfl
    rfl

@[simp] theorem setQueue_same (m : DMAModel) (ch : Fin m.numChannels) (queue : List DMARequest) :
    (m.setQueue ch queue).channelQueues ch = queue := by
  simp [setQueue]

theorem setQueue_ne (m : DMAModel) {ch ch' : Fin m.numChannels} (queue : List DMARequest)
    (h : ch' ≠ ch) : (m.setQueue ch queue).channelQueues ch' = m.channelQueues ch' := by
  simp [setQueue, Function.update_of_ne h]

theorem setQueue_setQueue (m : DMAModel) (ch : Fin m.numChannels)
    (queue queue' : List DMARequest) :
    (m.setQueue ch queue).setQueue ch queue' = m.setQueue ch queue' := by
  unfold setQueue
  dsimp only
  rw [Function.update_idem]

/-- Setting a queue changes nothing if it is the one that is there. -/
theorem setQueue_eq_self_iff {m : DMAModel} {ch : Fin m.numChannels} {queue : List DMARequest} :
    m.setQueue ch queue = m ↔ queue = m.channelQueues ch := by
  constructor
  · intro h
    cases m
    simpa [setQueue] using h
  · rintro rfl
    rw [setQueue, Function.update_eq_self]

/-! ### Runs -/

/-- Every queue is the stable sort of the requests that arrived on its channel. -/
def SortedQueues (m : DMAModel) (arrived : List DMARequest) : Prop :=
  ∀ ch, StableSort.IsStableSort DMARequest.typePriority (arrived.filter (m.mapsTo ch))
    (m.channelQueues ch)

/-- A further request is sorted into the queue of its channel. -/
theorem SortedQueues.enqueue {m m' : DMAModel} {arrived : List DMARequest} {request : DMARequest}
    (hsorted : m.SortedQueues arrived) (harb : m.arbitration = "fixed_priority")
    (h : m.enqueue request = .ok m') : m'.SortedQueues (arrived ++ [request]) := by
  obtain ⟨ch, hch, rfl⟩ := enqueue_eq_ok.mp h
  change ∀ ch' : Fin m.numChannels, StableSort.IsStableSort DMARequest.typePriority
    ((arrived ++ [request]).filter (m.mapsTo ch')) ((m.setQueue ch _).channelQueues ch')
  intro ch'
  rw [List.filter_append]
  by_cases hsame : ch' = ch
  · subst hsame
    rw [setQueue_same, queueWith_fixedPriority harb, List.filter_cons_of_pos
      ((mapsTo_iff hch).mpr rfl), List.filter_nil]
    exact (hsorted ch').insert request
  · rw [setQueue_ne m _ hsame, List.filter_cons_of_neg, List.filter_nil, List.append_nil]
    · exact hsorted ch'
    · rw [mapsTo_iff hch]
      exact Ne.symm hsame

theorem SortedQueues.foldlM_enqueue {m m' : DMAModel} {arrived requests : List DMARequest}
    (hsorted : m.SortedQueues arrived) (harb : m.arbitration = "fixed_priority")
    (h : requests.foldlM DMAModel.enqueue m = .ok m') : m'.SortedQueues (arrived ++ requests) := by
  induction requests generalizing m arrived with
  | nil =>
    cases h
    rwa [List.append_nil]
  | cons request requests ih =>
    obtain ⟨queued, hstep, hrest⟩ := bind_eq_ok.mp h
    have harb' : queued.arbitration = "fixed_priority" := by
      obtain ⟨ch, -, rfl⟩ := enqueue_eq_ok.mp hstep
      exact harb
    rw [← List.singleton_append, ← List.append_assoc]
    exact ih (hsorted.enqueue harb hstep) harb' hrest

/-- Every request can be queued if there is a channel. -/
theorem exists_foldlM_enqueue {m : DMAModel} (hpos : 0 < m.numChannels)
    (requests : List DMARequest) : ∃ m', requests.foldlM DMAModel.enqueue m = .ok m' := by
  induction requests generalizing m with
  | nil => exact ⟨m, rfl⟩
  | cons request requests ih =>
    obtain ⟨ch, hch⟩ := allocateChannel_ok hpos request.requestType
    obtain ⟨m', hrest⟩ := ih (m := m.setQueue ch (m.queueWith (m.channelQueues ch) request)) hpos
    exact ⟨m', bind_eq_ok.mpr ⟨_, enqueue_eq_ok.mpr ⟨ch, hch, rfl⟩, hrest⟩⟩

/-- The queues are those of new transfers. -/
def NewQueues (m : DMAModel) : Prop := ∀ ch, m.channelQueues ch = []

theorem create_newQueues {c : Engines.HardwareConfig} {dma : DmaSection} {m : DMAModel}
    (h : create c dma = .ok m) : m.NewQueues := by
  obtain ⟨bw, -, h⟩ := bind_eq_ok.mp h
  cases h
  exact fun _ => rfl

/-- With a fixed priority, every sequence of requests is queued, and each queue is the stable sort
of the requests of its channel by descending priority. -/
theorem enqueue_fixedPriority {c : Engines.HardwareConfig} {dma : DmaSection} {m : DMAModel}
    (h : create c dma = .ok m) (harb : m.arbitration = "fixed_priority")
    (requests : List DMARequest) :
    (0 < m.numChannels → ∃ m', requests.foldlM DMAModel.enqueue m = .ok m') ∧
    ∀ m', requests.foldlM DMAModel.enqueue m = .ok m' → ∀ ch : Fin m'.numChannels,
      m'.channelQueues ch = (requests.filter (m'.mapsTo ch)).insertionSort
        fun a b => b.typePriority ≤ a.typePriority := by
  refine ⟨fun hpos => exists_foldlM_enqueue hpos requests, fun m' hrun ch => ?_⟩
  have hnew : m.SortedQueues [] := by
    intro ch
    rw [create_newQueues h ch]
    exact .nil
  exact (hnew.foldlM_enqueue harb hrun ch).unique (StableSort.isStableSort_insertionSort _)

/-- Every configuration can be used. -/
theorem create_ok (c : Engines.HardwareConfig) (dma : DmaSection) : ∃ m, create c dma = .ok m ∧
    m.arbitration = dma.arbitration.getD "round_robin" := by
  have hfreq : 0 < Engines.PosRat.orDefault c.mac.frequencyMhz 1000 :=
    Engines.PosRat.orDefault_pos (by norm_num)
  have hbw := Engines.bandwidthGbpsToBytesPerCycle_eq_ok.mpr
    ⟨hfreq, (rfl : Engines.PosRat.orDefault c.memory.bandwidthGbps 51.2 * 1000 / _ = _)⟩
  exact ⟨_, bind_eq_ok.mpr ⟨_, hbw, rfl⟩, rfl⟩

/-- Transfers with a fixed priority on two channels. -/
def fixedPriorityDma : DmaSection where
  burstSizeBytes := 256
  descriptorOverheadCycles := 5
  arbitration := some "fixed_priority"

/-- A result to store and weights to load. -/
def storeAndLoad : List DMARequest :=
  [{ requestType := "output_store", sizeBytes := 64, direction := "store" },
    { requestType := "weight_load", sizeBytes := 64, direction := "load" }]

/-- The weights overtake the result. -/
theorem enqueue_storeAndLoad : ∃ m, create {} fixedPriorityDma = .ok m ∧
    (0 < m.numChannels → ∃ m', storeAndLoad.foldlM DMAModel.enqueue m = .ok m') ∧
    ∀ m', storeAndLoad.foldlM DMAModel.enqueue m = .ok m' → ∀ ch : Fin m'.numChannels,
      m'.channelQueues ch = (storeAndLoad.filter (m'.mapsTo ch)).insertionSort
        fun a b => b.typePriority ≤ a.typePriority := by
  obtain ⟨m, hm, harb⟩ := create_ok {} fixedPriorityDma
  exact ⟨m, hm, enqueue_fixedPriority hm harb storeAndLoad⟩

end DMAModel

end Simulator

end NpuArc
