import NpuArc.Library.Maxima
import NpuArc.Simulator.Dma

/-!
# The cycles of the channels

The cycles of a channel are those of its requests, their overheads and a stall, whatever their
order. All transfers are estimated as sequential ones, also accesses of keys and values, which are
random. An estimate for weights queues a request and removes the last one of the channel, which is
another one if a request with a smaller priority is queued there.
-/

namespace NpuArc

namespace Simulator

open Engines

namespace DMAModel

/-! ### Cycles without failures -/

/-- The cycles of a transfer where the bursts have a size. -/
def transferCycles (m : DMAModel) (sizeBytes : ℕ) (accessType : AccessType) : ℕ :=
  if sizeBytes = 0 then 0
  else
    let effBw := if accessType = .random then m.effBwKv else m.effBwWeight
    let latencyPenalty := if accessType = .random then m.randomLatencyPenaltyCycles else 0
    let transfer := if 0 < effBw then sizeBytes / effBw else 0
    ⌈m.descriptorOverhead + transfer + (sizeBytes ⌈/⌉ m.burstSize : ℕ) + latencyPenalty⌉.toNat

/-- The cycles of a queued request as a sequential transfer with its overheads. -/
def requestCycles (m : DMAModel) (req : DMARequest) : ℕ :=
  m.transferCycles req.sizeBytes .sequential + m.blockOverhead req

/-- The bytes of a queue. -/
def queuedBytes (queue : List DMARequest) : ℕ := (queue.map (·.sizeBytes)).sum

/-- The stall of a queue. -/
def queueStall (m : DMAModel) (queue : List DMARequest) : ℕ :=
  (queuedBytes queue - m.fifoDepth * m.burstSize) ⌈/⌉ m.burstSize

/-- The cycles of a queue. -/
def queueCycles (m : DMAModel) (queue : List DMARequest) : ℕ :=
  (queue.map m.requestCycles).sum + m.queueStall queue

/-- Whether there is nothing to divide in a queue, or the bursts have a size to divide by. -/
def QueueEstimable (m : DMAModel) (queue : List DMARequest) : Prop :=
  m.burstSize ≠ 0 ∨ ∀ req ∈ queue, req.sizeBytes = 0

theorem estimateTransfer_eq_ok {m : DMAModel} {sizeBytes : ℕ}
    (h : m.burstSize ≠ 0 ∨ sizeBytes = 0) (accessType : AccessType) :
    m.estimateTransfer sizeBytes accessType = .ok (m.transferCycles sizeBytes accessType) := by
  unfold estimateTransfer transferCycles
  by_cases hsize : sizeBytes = 0
  · rw [if_pos hsize, if_pos hsize]
  · rw [if_neg hsize, if_neg hsize, if_neg (h.resolve_right hsize)]

theorem estimateTransfer_eq_error {m : DMAModel} {sizeBytes : ℕ} (hburst : m.burstSize = 0)
    (hsize : sizeBytes ≠ 0) (accessType : AccessType) :
    m.estimateTransfer sizeBytes accessType = .error .zeroDivisionError := by
  unfold estimateTransfer
  rw [if_neg hsize, if_pos hburst]

/-- The cycles of the requests of a queue are added up. -/
theorem foldlM_estimateTransfer {m : DMAModel} {queue : List DMARequest}
    (h : m.QueueEstimable queue) (total : ℕ) :
    queue.foldlM (fun total req => do
      let transfer ← m.estimateTransfer req.sizeBytes .sequential
      return total + transfer + m.blockOverhead req) total =
        (.ok (total + (queue.map m.requestCycles).sum) : Except Failure ℕ) := by
  induction queue generalizing total with
  | nil => rfl
  | cons req queue ih =>
    have hreq : m.burstSize ≠ 0 ∨ req.sizeBytes = 0 := h.imp_right fun h => h req List.mem_cons_self
    have hrest : m.QueueEstimable queue :=
      h.imp_right fun h r hr => h r (List.mem_cons_of_mem req hr)
    rw [List.foldlM_cons, estimateTransfer_eq_ok hreq, bind_eq_ok_left, List.map_cons,
      List.sum_cons, requestCycles, ← Nat.add_assoc, ← Nat.add_assoc]
    exact ih hrest _

theorem foldlM_estimateTransfer_ne_ok {m : DMAModel} {queue : List DMARequest}
    (h : ¬m.QueueEstimable queue) (total cycles : ℕ) :
    queue.foldlM (fun total req => do
      let transfer ← m.estimateTransfer req.sizeBytes .sequential
      return total + transfer + m.blockOverhead req) total ≠ (.ok cycles : Except Failure ℕ) := by
  obtain ⟨hburst, req, hreq, hsize⟩ : m.burstSize = 0 ∧ ∃ req ∈ queue, req.sizeBytes ≠ 0 := by
    simpa [QueueEstimable] using h
  clear h
  induction queue generalizing total with
  | nil => cases hreq
  | cons first queue ih =>
    intro hok
    rw [List.foldlM_cons] at hok
    obtain ⟨total', hfirst, hrest⟩ := bind_eq_ok.mp hok
    rcases List.mem_cons.mp hreq with rfl | hreq
    · rw [estimateTransfer_eq_error hburst hsize] at hfirst
      cases hfirst
    · exact ih total' hreq hrest

theorem stallCycles_eq_ok {m : DMAModel} {queue : List DMARequest} (h : m.QueueEstimable queue) :
    m.stallCycles (queuedBytes queue) = .ok (m.queueStall queue) := by
  rw [stallCycles, queueStall]
  split_ifs with hover hburst
  · -- Without a size of the bursts, nothing exceeds the empty buffer.
    have hnone := h.resolve_left (not_not.mpr hburst)
    have hzero : queuedBytes queue = 0 :=
      List.sum_eq_zero fun x hx => by
        obtain ⟨req, hreq, rfl⟩ := List.mem_map.mp hx
        exact hnone req hreq
    omega
  · rfl
  · rw [Nat.sub_eq_zero_of_le (not_lt.mp hover), zero_ceilDiv]

/-- The cycles of a channel are those of its queue. -/
theorem estimateChannelCycles_eq_ok {m : DMAModel} {ch : Fin m.numChannels}
    (h : m.QueueEstimable (m.channelQueues ch)) :
    m.estimateChannelCycles ch = .ok (m.queueCycles (m.channelQueues ch)) := by
  unfold estimateChannelCycles
  cases hqueue : m.channelQueues ch with
  | nil =>
    have hnone : m.queueCycles [] = 0 := by
      rw [queueCycles, queueStall, queuedBytes, List.map_nil, List.map_nil, List.sum_nil,
        Nat.zero_sub, zero_ceilDiv, Nat.add_zero]
    rw [hnone]
    rfl
  | cons req queue =>
    rw [hqueue] at h
    dsimp only
    rw [if_neg (by simp), foldlM_estimateTransfer h, bind_eq_ok_left, Nat.zero_add]
    exact bind_eq_ok.mpr ⟨_, stallCycles_eq_ok h, rfl⟩

theorem estimateChannelCycles_ne_ok {m : DMAModel} {ch : Fin m.numChannels}
    (h : ¬m.QueueEstimable (m.channelQueues ch)) (cycles : ℕ) :
    m.estimateChannelCycles ch ≠ .ok cycles := by
  intro hok
  unfold estimateChannelCycles at hok
  dsimp only at hok
  by_cases hempty : (m.channelQueues ch).isEmpty = true
  · refine h (.inr fun req hreq => ?_)
    rw [List.isEmpty_iff.mp hempty] at hreq
    cases hreq
  · rw [if_neg hempty] at hok
    obtain ⟨total, htotal, -⟩ := bind_eq_ok.mp hok
    exact foldlM_estimateTransfer_ne_ok h 0 total htotal

/-- Whether the cycles of all queues can be estimated. -/
def Estimable (m : DMAModel) : Prop := ∀ ch, m.QueueEstimable (m.channelQueues ch)

/-- The cycles of the busiest channel. -/
def busiestCycles (m : DMAModel) : ℕ :=
  ((List.finRange m.numChannels).map fun ch => m.queueCycles (m.channelQueues ch)).foldl max 0

theorem estimateTotalCycles_eq_ok {m : DMAModel} (h : m.Estimable) :
    m.estimateTotalCycles = .ok m.busiestCycles := by
  have hcycles : (List.finRange m.numChannels).mapM m.estimateChannelCycles =
      .ok ((List.finRange m.numChannels).map fun ch => m.queueCycles (m.channelQueues ch)) := by
    refine mapM_eq_ok.mpr (List.forall₂_map_right_iff.mpr (List.forall₂_same.mpr fun ch _ => ?_))
    exact estimateChannelCycles_eq_ok (h ch)
  rw [estimateTotalCycles, hcycles]
  rfl

theorem estimateTotalCycles_ne_ok {m : DMAModel} (h : ¬m.Estimable) (cycles : ℕ) :
    m.estimateTotalCycles ≠ .ok cycles := by
  intro hok
  obtain ⟨ch, hch⟩ := not_forall.mp h
  obtain ⟨costs, hcosts, -⟩ := bind_eq_ok.mp hok
  obtain ⟨cost, -, hcost⟩ :=
    exists_mem_of_forall₂ (mapM_eq_ok.mp hcosts) (List.mem_finRange ch)
  exact estimateChannelCycles_ne_ok hch cost hcost

/-- The busiest channel takes at most some cycles if each channel does. -/
theorem busiestCycles_le_iff {m : DMAModel} {cycles : ℕ} :
    m.busiestCycles ≤ cycles ↔ ∀ ch, m.queueCycles (m.channelQueues ch) ≤ cycles := by
  rw [busiestCycles, foldl_max_le_iff, and_iff_right (Nat.zero_le _), List.forall_mem_map]
  exact ⟨fun h ch => h ch (List.mem_finRange ch), fun h ch _ => h ch⟩

/-! ### Queued and direct costs -/

/-- The kind of access of a request. -/
def accessTypeOf (req : DMARequest) : AccessType :=
  if req.requestType = "kv_access" then .random else .sequential

/-- The cycles of a request that is estimated by itself. -/
def directTransfer (m : DMAModel) (req : DMARequest) : Except Failure ℕ :=
  m.estimateTransfer req.sizeBytes (accessTypeOf req)

/-- The cycles of the transfers of a queue, all taken as sequential. -/
def sequentialCycles (m : DMAModel) (queue : List DMARequest) : ℕ :=
  (queue.map fun req => m.transferCycles req.sizeBytes .sequential).sum

/-- The cycles that random access adds to the accesses of keys and values in a queue. -/
def randomSurcharge (m : DMAModel) (queue : List DMARequest) : ℤ :=
  (queue.map fun req => if req.requestType = "kv_access" then
    (m.transferCycles req.sizeBytes .random : ℤ) - m.transferCycles req.sizeBytes .sequential
    else 0).sum

/-- The cycles of the descriptors and pointers of a queue, and its stall. -/
def queueOverhead (m : DMAModel) (queue : List DMARequest) : ℕ :=
  (queue.map m.blockOverhead).sum + m.queueStall queue

/-- Whether what random access adds in a queue is covered by its overheads, or by a busier
channel. -/
def SurchargeCovered (m : DMAModel) : Prop :=
  ∀ ch, ∃ ch', m.sequentialCycles (m.channelQueues ch) + m.randomSurcharge (m.channelQueues ch) ≤
    m.sequentialCycles (m.channelQueues ch') + m.queueOverhead (m.channelQueues ch')

/-- The estimate of all channels is at least the direct costs of each, and queueing a request does
not lower it. -/
def QueuedCostCovers (m : DMAModel) : Prop :=
  ∃ total, m.estimateTotalCycles = .ok total ∧
    (∀ ch, ∃ costs, (m.channelQueues ch).mapM m.directTransfer = .ok costs ∧ costs.sum ≤ total) ∧
    ∀ request m', m.enqueue request = .ok m' →
      ∃ total', m'.estimateTotalCycles = .ok total' ∧ total ≤ total'

theorem queueCycles_eq (m : DMAModel) (queue : List DMARequest) :
    m.queueCycles queue = m.sequentialCycles queue + m.queueOverhead queue := by
  rw [queueCycles, queueOverhead, sequentialCycles, ← Nat.add_assoc, ← List.sum_map_add]
  rfl

/-- The cycles of a queue do not depend on its order. -/
theorem queueCycles_perm {m : DMAModel} {queue queue' : List DMARequest}
    (h : queue.Perm queue') : m.queueCycles queue = m.queueCycles queue' := by
  have hbytes : queuedBytes queue = queuedBytes queue' := (h.map _).sum_eq
  rw [queueCycles, queueCycles, queueStall, queueStall, hbytes, (h.map _).sum_eq]

/-- A further request lowers no cycles of a queue. -/
theorem queueCycles_le_queueWith (m : DMAModel) (queue : List DMARequest) (request : DMARequest) :
    m.queueCycles queue ≤ m.queueCycles (m.queueWith queue request) := by
  rw [queueCycles_perm (m.queueWith_perm queue request), queueCycles, queueCycles, List.map_cons,
    List.sum_cons]
  have hbytes : queuedBytes queue ≤ queuedBytes (request :: queue) := by
    rw [queuedBytes, queuedBytes, List.map_cons, List.sum_cons]
    exact Nat.le_add_left _ _
  have hstall : m.queueStall queue ≤ m.queueStall (request :: queue) := by
    rw [queueStall, queueStall]
    rcases Nat.eq_zero_or_pos m.burstSize with hburst | hburst
    · rw [hburst, ceilDiv_zero, ceilDiv_zero]
    · exact ceilDiv_mono hburst (Nat.sub_le_sub_right hbytes _)
  omega

/-- The direct costs of a queue. -/
theorem mapM_directTransfer {m : DMAModel} {queue : List DMARequest} (h : m.QueueEstimable queue) :
    queue.mapM m.directTransfer =
      .ok (queue.map fun req => m.transferCycles req.sizeBytes (accessTypeOf req)) := by
  refine mapM_eq_ok.mpr (List.forall₂_map_right_iff.mpr (List.forall₂_same.mpr fun req hreq => ?_))
  exact estimateTransfer_eq_ok (h.imp_right fun h => h req hreq) _

/-- The direct costs are those of sequential transfers with what random access adds. -/
theorem sum_direct (m : DMAModel) (queue : List DMARequest) :
    ((queue.map fun req => m.transferCycles req.sizeBytes (accessTypeOf req)).sum : ℤ) =
      m.sequentialCycles queue + m.randomSurcharge queue := by
  rw [sequentialCycles, randomSurcharge]
  induction queue with
  | nil => rfl
  | cons req queue ih =>
    rw [List.map_cons, List.sum_cons, List.map_cons, List.sum_cons, List.map_cons, List.sum_cons,
      Nat.cast_add, Nat.cast_add, ih, accessTypeOf]
    split_ifs
    · ring
    · ring

/-- A queued request can be estimated only if the bursts have a size. -/
theorem not_estimable_enqueue {m m' : DMAModel} {request : DMARequest} (hburst : m.burstSize = 0)
    (hsize : request.sizeBytes ≠ 0) (h : m.enqueue request = .ok m') : ¬m'.Estimable := by
  obtain ⟨ch, -, rfl⟩ := enqueue_eq_ok.mp h
  intro hestimable
  have hqueue : m.QueueEstimable ((m.setQueue ch _).channelQueues ch) := hestimable ch
  rw [setQueue_same] at hqueue
  refine hsize (hqueue.resolve_left (not_not.mpr hburst) request ?_)
  exact (m.queueWith_perm _ request).mem_iff.mpr List.mem_cons_self

/-- A further request makes no channel less busy. -/
theorem busiestCycles_le_enqueue {m m' : DMAModel} {request : DMARequest}
    (h : m.enqueue request = .ok m') : m.busiestCycles ≤ m'.busiestCycles := by
  obtain ⟨ch, -, rfl⟩ := enqueue_eq_ok.mp h
  let queued := m.setQueue ch (m.queueWith (m.channelQueues ch) request)
  have hbusiest : ∀ ch', queued.queueCycles (queued.channelQueues ch') ≤ queued.busiestCycles :=
    busiestCycles_le_iff.mp le_rfl
  refine busiestCycles_le_iff.mpr fun ch' => le_trans ?_ (hbusiest ch')
  change m.queueCycles _ ≤ m.queueCycles (queued.channelQueues ch')
  by_cases hsame : ch' = ch
  · subst hsame
    rw [setQueue_same]
    exact m.queueCycles_le_queueWith _ request
  · rw [setQueue_ne m _ hsame]

/-- An access of keys and values on the default channels. -/
def kvRequest : DMARequest where
  requestType := "kv_access"
  sizeBytes := 64
  direction := "load"

/-- Transfers with the default arbitration. -/
def defaultDma : DmaSection where
  burstSizeBytes := 256
  descriptorOverheadCycles := 5

/-- Whether an estimate with a further request divides by a positive size of the bursts, or has
nothing to divide. -/
def EstimateReturns (m : DMAModel) (request : DMARequest) : Prop :=
  m.burstSize ≠ 0 ∨
    (request.sizeBytes = 0 ∧ ∀ ch, ∀ queued ∈ m.channelQueues ch, queued.sizeBytes = 0)

/-- Whether a fixed priority lets weights overtake nothing that is queued on their channel. -/
def NothingOvertaken (m : DMAModel) : Prop :=
  m.arbitration = "fixed_priority" → ∀ ch, m.allocateChannel "weight_load" = .ok ch →
    ∀ queued ∈ m.channelQueues ch, queued.requestType = "weight_load"

/-- Whether an estimate for weights finds no channel, or returns and overtakes nothing. -/
def EstimateUndone (m : DMAModel) (k n weightBits : ℕ) : Prop :=
  m.numChannels = 0 ∨ (m.EstimateReturns (weightRequest k n weightBits) ∧ m.NothingOvertaken)

/-- Only weights have the highest priority. -/
theorem two_le_typePriority_iff {request : DMARequest} :
    2 ≤ request.typePriority ↔ request.requestType = "weight_load" := by
  rw [DMARequest.typePriority, requestTypePriority]
  constructor
  · intro h
    by_contra hne
    by_cases hkv : request.requestType = "kv_access"
    · rw [hkv] at h
      exact absurd h (by decide)
    · by_cases hstore : request.requestType = "output_store"
      · rw [hstore] at h
        exact absurd h (by decide)
      · simp only [List.lookup_cons, beq_false_of_ne hne, beq_false_of_ne hkv,
          beq_false_of_ne hstore, List.lookup_nil] at h
        exact absurd h (by decide)
  · intro h
    rw [h]
    decide

/-- The last request of a queue is the new one if it has overtaken none. -/
theorem dropLast_queueWith {m : DMAModel} {queue : List DMARequest} {request : DMARequest} :
    (m.queueWith queue request).dropLast = queue ↔
      (m.arbitration = "fixed_priority" →
        ∀ queued ∈ queue, request.typePriority ≤ queued.typePriority) := by
  by_cases harb : m.arbitration = "fixed_priority"
  · rw [queueWith_fixedPriority harb, StableSort.insert, imp_iff_right harb]
    have hsplit := List.takeWhile_append_dropWhile (l := queue)
      (p := StableSort.hasKeyFrom DMARequest.typePriority request.typePriority)
    have hdrop : queue.dropWhile (StableSort.hasKeyFrom DMARequest.typePriority
        request.typePriority) = [] ↔
          ∀ queued ∈ queue, request.typePriority ≤ queued.typePriority := by
      rw [List.dropWhile_eq_nil_iff]
      exact forall₂_congr fun queued _ => StableSort.hasKeyFrom_iff
    rw [← hdrop]
    cases hrest : queue.dropWhile (StableSort.hasKeyFrom DMARequest.typePriority
        request.typePriority) with
    | nil =>
      rw [hrest, List.append_nil] at hsplit
      rw [List.dropLast_concat, hsplit]
      exact iff_of_true rfl rfl
    | cons overtaken rest =>
      refine iff_of_false (fun h => ?_) (List.cons_ne_nil _ _)
      rw [hrest] at hsplit
      rw [List.dropLast_append_cons, List.dropLast_cons_cons] at h
      have hsame := List.append_cancel_left (h.trans hsplit.symm)
      have hnot : ¬StableSort.hasKeyFrom DMARequest.typePriority request.typePriority
          overtaken = true := by
        have hhead := List.head?_dropWhile_not
          (StableSort.hasKeyFrom DMARequest.typePriority request.typePriority) queue
        rw [hrest] at hhead
        simpa using hhead
      rw [← (List.cons.inj hsame).1] at hnot
      exact hnot (StableSort.hasKeyFrom_iff.mpr le_rfl)
  · rw [queueWith, if_neg harb, List.dropLast_concat]
    exact iff_of_true rfl fun h => absurd h harb

/-- Queues are restored exactly if the estimate finds no channel, or returns and overtakes
nothing. -/
theorem estimateWeightLoad_undone_iff (m : DMAModel) (k n weightBits : ℕ) :
    (m.estimateWeightLoad k n weightBits).2 = m ↔ m.EstimateUndone k n weightBits := by
  unfold EstimateUndone
  rcases Nat.eq_zero_or_pos m.numChannels with hnone | hpos
  · have henqueue : m.enqueue (weightRequest k n weightBits) = .error .zeroDivisionError := by
      rw [enqueue, allocateChannel, dif_neg (by omega)]
      rfl
    refine iff_of_true ?_ (.inl hnone)
    rw [estimateWeightLoad, henqueue]
  obtain ⟨ch, hch⟩ := allocateChannel_ok hpos "weight_load"
  have hch' : m.allocateChannel (weightRequest k n weightBits).requestType = .ok ch := hch
  let queued := m.setQueue ch (m.queueWith (m.channelQueues ch) (weightRequest k n weightBits))
  have henqueue : m.enqueue (weightRequest k n weightBits) = .ok queued :=
    enqueue_eq_ok.mpr ⟨ch, hch', rfl⟩
  have hqueue : queued.channelQueues ch =
      m.queueWith (m.channelQueues ch) (weightRequest k n weightBits) := setQueue_same m ch _
  have hperm := m.queueWith_perm (m.channelQueues ch) (weightRequest k n weightBits)
  have hestimable : queued.Estimable ↔ m.EstimateReturns (weightRequest k n weightBits) := by
    change (∀ ch' : Fin m.numChannels, m.QueueEstimable (queued.channelQueues ch')) ↔ _
    constructor
    · intro h
      by_cases hburst : m.burstSize = 0
      swap
      · exact .inl hburst
      have hzero := (h ch).resolve_left (not_not.mpr hburst)
      rw [hqueue] at hzero
      refine .inr ⟨hzero _ (hperm.mem_iff.mpr List.mem_cons_self), fun ch' req hreq => ?_⟩
      by_cases hsame : ch' = ch
      · subst hsame
        exact hzero req (hperm.mem_iff.mpr (List.mem_cons_of_mem _ hreq))
      · have hother := (h ch').resolve_left (not_not.mpr hburst)
        rw [setQueue_ne m _ hsame] at hother
        exact hother req hreq
    · rintro (hburst | ⟨hrequest, hzero⟩) ch'
      · exact .inl hburst
      refine .inr fun req hreq => ?_
      by_cases hsame : ch' = ch
      · subst hsame
        rw [hqueue] at hreq
        rcases List.mem_cons.mp (hperm.mem_iff.mp hreq) with rfl | hreq
        · exact hrequest
        · exact hzero ch' req hreq
      · rw [setQueue_ne m _ hsame] at hreq
        exact hzero ch' req hreq
  have hpriority : (weightRequest k n weightBits).typePriority = 2 := rfl
  have hovertaken : m.NothingOvertaken ↔
      (queued.channelQueues ch).dropLast = m.channelQueues ch := by
    rw [hqueue, dropLast_queueWith, NothingOvertaken, hpriority]
    refine imp_congr_right fun _ => ?_
    constructor
    · intro h queued hmem
      exact two_le_typePriority_iff.mpr (h ch hch queued hmem)
    · intro h ch' hch' queued hmem
      obtain rfl := Except.ok.inj (hch.symm.trans hch')
      exact two_le_typePriority_iff.mp (h queued hmem)
  have hlater : queued.allocateChannel "weight_load" = .ok ch := hch
  rw [or_iff_right hpos.ne', ← hestimable, hovertaken]
  by_cases h : queued.Estimable
  · have hresult : (m.estimateWeightLoad k n weightBits).2 =
        queued.setQueue ch (queued.channelQueues ch).dropLast := by
      rw [estimateWeightLoad, henqueue]
      simp only [estimateTotalCycles_eq_ok h, hlater]
    rw [hresult, and_iff_right h, ← setQueue_eq_self_iff]
    exact Eq.congr_left (setQueue_setQueue m ch _ _)
  · have hresult : (m.estimateWeightLoad k n weightBits).2 = queued := by
      rw [estimateWeightLoad, henqueue]
      dsimp only
      cases htotal : queued.estimateTotalCycles with
      | error failure => rfl
      | ok cycles => exact absurd htotal (estimateTotalCycles_ne_ok h cycles)
    rw [hresult]
    refine iff_of_false (fun hsame => ?_) fun hboth => h hboth.1
    have hlength := hperm.length_eq
    rw [setQueue_eq_self_iff.mp hsame, List.length_cons] at hlength
    omega

/-! ### Runs with estimates -/

/-- A call that may change the queues. -/
inductive QueueCall
  | enqueue (request : DMARequest)
  | estimate (k n weightBits : ℕ)

/-- Whether a call queues a request. -/
def QueueCall.isEnqueue : QueueCall → Bool
  | .enqueue _ => true
  | .estimate _ _ _ => false

/-- The transfers after a call. A request without a channel leaves them as they are. -/
def QueueCall.run (m : DMAModel) : QueueCall → DMAModel
  | .enqueue request => (m.enqueue request).toOption.getD m
  | .estimate k n weightBits => (m.estimateWeightLoad k n weightBits).2

/-- Whether all estimates of a run find no channel, or return and overtake nothing. -/
def RunUndone : DMAModel → List QueueCall → Prop
  | _, [] => True
  | m, .enqueue request :: calls => RunUndone (QueueCall.run m (.enqueue request)) calls
  | m, .estimate k n weightBits :: calls => m.EstimateUndone k n weightBits ∧
      RunUndone (QueueCall.run m (.estimate k n weightBits)) calls

/-- Such a run leaves the queues that the requests alone leave. -/
theorem foldl_run_of_runUndone {m : DMAModel} {calls : List QueueCall} (h : RunUndone m calls) :
    calls.foldl QueueCall.run m = (calls.filter (·.isEnqueue)).foldl QueueCall.run m := by
  induction calls generalizing m with
  | nil => rfl
  | cons call calls ih =>
    cases call with
    | enqueue request =>
      rw [List.foldl_cons, List.filter_cons_of_pos rfl, List.foldl_cons]
      exact ih h
    | estimate k n weightBits =>
      obtain ⟨hundone, hrest⟩ := h
      have hsame : QueueCall.run m (.estimate k n weightBits) = m :=
        (m.estimateWeightLoad_undone_iff k n weightBits).mpr hundone
      rw [hsame] at hrest
      rw [List.foldl_cons, hsame, List.filter_cons_of_neg Bool.false_ne_true]
      exact ih hrest

/-- An estimate for weights leaves all queues as they were exactly if it finds no channel, or
returns and overtakes nothing, and a run of such estimates and of requests leaves the queues that
the requests alone leave. -/
theorem estimateWeightLoad_pure (m : DMAModel) (k n weightBits : ℕ) :
    ((m.estimateWeightLoad k n weightBits).2 = m ↔ m.EstimateUndone k n weightBits) ∧
    ∀ calls : List QueueCall, RunUndone m calls →
      calls.foldl QueueCall.run m = (calls.filter (·.isEnqueue)).foldl QueueCall.run m :=
  ⟨m.estimateWeightLoad_undone_iff k n weightBits, fun _ h => foldl_run_of_runUndone h⟩

/-- A result to store. -/
def storeRequest : DMARequest where
  requestType := "output_store"
  sizeBytes := 64
  direction := "store"

/-- An estimate for weights removes the result to store in its place. -/
theorem storeRequest_removed : ∃ new m, create {} fixedPriorityDma = .ok new ∧
    new.enqueue storeRequest = .ok m ∧ (m.estimateWeightLoad 8 8 4).2 ≠ m := by
  have htest : ((create {} fixedPriorityDma).toOption.any fun new =>
      (new.enqueue storeRequest).toOption.any fun m =>
        !((List.finRange m.numChannels).all fun ch =>
          !decide (storeRequest ∈ m.channelQueues ch)) &&
          (List.finRange (m.estimateWeightLoad 8 8 4).2.numChannels).all fun ch =>
            !decide (storeRequest ∈ (m.estimateWeightLoad 8 8 4).2.channelQueues ch)) = true := by
    decide +kernel
  obtain ⟨new, hnew, htest⟩ := (Option.any_eq_true _ _).mp htest
  obtain ⟨m, hm, htest⟩ := (Option.any_eq_true _ _).mp htest
  refine ⟨new, m, toOption_eq_some.mp hnew, toOption_eq_some.mp hm, fun hsame => ?_⟩
  obtain ⟨hthere, hgone⟩ := Bool.and_eq_true_iff.mp htest
  rw [hsame] at hgone
  rw [hgone] at hthere
  cases hthere

end DMAModel

end Simulator

end NpuArc
