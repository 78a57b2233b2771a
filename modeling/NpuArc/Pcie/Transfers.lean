import NpuArc.Pcie.EndpointFrame
import NpuArc.Pcie.Headers
import Mathlib.Data.Finset.Max

/-!
# Transfers of the engine

A packet takes a tag and gives it back, so a transfer leaves the pool as it was. A write changes
the memory of the host chunk by chunk and gives one header for each chunk. A read gives the bytes
of the range, unless an error is injected for the tag of one of its packets.
-/

namespace NpuArc

namespace Pcie

theorem mpsBytes_pos (encoding : ℤ) : 0 < mpsBytes encoding := by
  unfold mpsBytes
  split_ifs <;> decide

theorem mpsBytes_mod (encoding : ℤ) : mpsBytes encoding % 4 = 0 := by
  unfold mpsBytes
  split_ifs <;> decide

theorem mpsBytes_le (encoding : ℤ) : mpsBytes encoding ≤ 4096 := by
  unfold mpsBytes
  split_ifs <;> decide

namespace DmaEngine

/-- No tag is in use, as between the calls. -/
def Idle (d : DmaEngine) : Prop := d.tagFree = Finset.univ

/-- The number of packets of a transfer. -/
def packets (d : DmaEngine) (len : ℕ) : ℕ := (partSizes d.maxPayloadBytes len).length

/-- The tag that the pool gives after some others, while all of them come back. -/
def tagAfter (order : PopOrder) (d : DmaEngine) (k : ℕ) : Tag := order.pop (d.pops + k) d.tagFree

end DmaEngine

/-- The memory of the host after chunks. -/
def hostAfter (hostMem : List UInt8) (curAddr : ℤ) : List (List UInt8) → List UInt8
  | [] => hostMem
  | chunk :: chunks => hostAfter (DmaEngine.writeHost hostMem curAddr (padded chunk))
      (curAddr + (padded chunk).length) chunks

section HostBytes

variable {hostMem : List UInt8} {addr : ℤ} {n k : ℕ}

/-- The bytes of a range of the memory of the host, with zeros beyond the end. -/
def hostBytes (hostMem : List UInt8) (addr : ℤ) (n : ℕ) : List UInt8 :=
  (List.range n).map fun i => (hostMem[addr.toNat + i]?).getD 0

theorem getElem?_hostBytes (hostMem : List UInt8) (addr : ℤ) (n i : ℕ) :
    (hostBytes hostMem addr n)[i]? =
      if i < n then some ((hostMem[addr.toNat + i]?).getD 0) else none := by
  rw [hostBytes, List.getElem?_map]
  split_ifs with h
  · rw [List.getElem?_range h]
    rfl
  · rw [List.getElem?_eq_none (by rw [List.length_range]; omega)]
    rfl

theorem length_hostBytes : (hostBytes hostMem addr n).length = n := by
  rw [hostBytes, List.length_map, List.length_range]

theorem hostBytes_add (h0 : 0 ≤ addr) :
    hostBytes hostMem addr (k + n) =
      hostBytes hostMem addr k ++ hostBytes hostMem (addr + k) n := by
  rw [hostBytes, List.range_add, List.map_append, List.map_map, hostBytes, hostBytes]
  congr 1
  refine List.map_congr_left fun i _ => ?_
  rw [Function.comp, show addr.toNat + (k + i) = (addr + k).toNat + i by omega]

/-- The bytes of a slice, followed by zeros. -/
theorem slice_append_zeros (h0 : 0 ≤ addr) (hk : k ≤ n) (hin : addr + k ≤ hostMem.length ∨ k = 0)
    (hend : k < n → hostMem.length ≤ addr + k) :
    sliceList hostMem addr (addr + k) ++ List.replicate (n - k) 0 = hostBytes hostMem addr n := by
  have hlen : (sliceList hostMem addr (addr + k)).length = k := by
    rcases hin with hin | rfl
    · rw [length_sliceList h0 (by omega) hin]
      omega
    · rw [sliceList, Nat.cast_zero, Int.add_zero, Nat.sub_self, List.take_zero]
      rfl
  refine List.ext_getElem? fun i => ?_
  rw [getElem?_hostBytes]
  rcases Nat.lt_or_ge i k with hi | hi
  · rw [List.getElem?_append_left (by rwa [hlen]), getElem?_sliceList h0, if_pos hi,
      if_pos (by omega), List.getElem?_eq_getElem (by omega)]
    rfl
  · rw [List.getElem?_append_right (by rwa [hlen]), hlen, List.getElem?_replicate]
    split_ifs with h1 h2 h2
    · rw [List.getElem?_eq_none (by omega)]
      rfl
    · omega
    · omega
    · rfl

/-- The bytes of a range inside the memory of the host. -/
theorem hostBytes_eq_sliceList (h0 : 0 ≤ addr) (hend : addr + n ≤ hostMem.length) :
    hostBytes hostMem addr n = sliceList hostMem addr (addr + n) := by
  have h := slice_append_zeros h0 (Nat.le_refl n) (Or.inl hend) (fun h => absurd h (by omega))
  rwa [Nat.sub_self, List.replicate_zero, List.append_nil, eq_comm] at h

theorem readHost_eq_hostBytes (h0 : 0 ≤ addr) :
    DmaEngine.readHost hostMem addr n = hostBytes hostMem addr n := by
  rw [DmaEngine.readHost]
  dsimp only
  split_ifs with hend
  · exact (hostBytes_eq_sliceList h0 hend).symm
  · have havail : max 0 ((hostMem.length : ℤ) - addr) =
        ((hostMem.length - addr.toNat : ℕ) : ℤ) := by omega
    have hlen : (sliceList hostMem addr (addr + (hostMem.length - addr.toNat : ℕ))).length =
        hostMem.length - addr.toNat := by
      rw [sliceList, List.length_take, List.length_drop, sliceBound_of_nonneg h0,
        sliceBound_of_nonneg (by omega)]
      omega
    rw [havail, hlen]
    exact slice_append_zeros h0 (by omega) (by omega) (by omega)

theorem splitHost_eq_hostBytes (h0 : 0 ≤ addr) :
    DmaEngine.splitHost hostMem addr n = hostBytes hostMem addr n := by
  rw [DmaEngine.splitHost]
  dsimp only
  split_ifs with hend havail
  · exact (hostBytes_eq_sliceList h0 hend).symm
  · have hnat : max 0 ((hostMem.length : ℤ) - addr) = ((hostMem.length - addr.toNat : ℕ) : ℤ) := by
      omega
    rw [hnat, show ((n : ℤ) - (hostMem.length - addr.toNat : ℕ)).toNat =
      n - (hostMem.length - addr.toNat) by omega]
    exact slice_append_zeros h0 (by omega) (by omega) (by omega)
  · obtain rfl : n = 0 := by omega
    rw [show max 0 ((hostMem.length : ℤ) - addr) = 0 by omega, sliceList, Int.add_zero,
      Nat.sub_self, List.take_zero]
    rfl

end HostBytes

section Packets

variable {order : PopOrder} {d : DmaEngine} {curAddr : ℤ} {chunk data : List UInt8}
  {headers : List (List UInt8)} {chunks : List (List UInt8)}

theorem DmaEngine.maxPayloadBytes_pos (d : DmaEngine) : 0 < d.maxPayloadBytes :=
  mpsBytes_pos d.mpsEncoding

theorem allocTag_eq_ok (hfree : d.tagFree.Nonempty) : d.allocTag order =
    .ok ({ d with tagFree := d.tagFree.erase (d.tagAfter order 0), pops := d.pops + 1 },
      d.tagAfter order 0) :=
  if_neg hfree.ne_empty

/-- One packet of a write. -/
theorem writeTlps_cons (hfree : d.tagFree.Nonempty) :
    d.writeTlps order curAddr headers (chunk :: chunks) =
      DmaEngine.writeTlps order
        { d with
          pops := d.pops + 1
          hostMem := DmaEngine.writeHost d.hostMem curAddr (padded chunk) }
        (curAddr + (padded chunk).length)
        (headers ++ [d.memHeader true curAddr chunk.length (d.tagAfter order 0)]) chunks := by
  have hback : insert (d.tagAfter order 0) (d.tagFree.erase (d.tagAfter order 0)) = d.tagFree :=
    Finset.insert_erase (order.pop_mem _ _ hfree)
  rw [DmaEngine.writeTlps, allocTag_eq_ok hfree]
  dsimp only [DmaEngine.freeTag]
  rw [hback]
  rfl

/-- A write gives the headers of its requests and changes only the memory of the host. -/
theorem writeTlps_eq_ok (curAddr : ℤ) (headers : List (List UInt8)) {mps : ℕ} (hmps : 0 < mps)
    (h4 : mps % 4 = 0) (hmax : mps ≤ 4096) (hfree : d.tagFree.Nonempty) :
    ∃ hs, d.writeTlps order curAddr headers (splitEvery mps data) =
        ({ d with
          pops := d.pops + (partSizes mps data.length).length
          hostMem := hostAfter d.hostMem curAddr (splitEvery mps data) }, .ok (headers ++ hs)) ∧
      hs.map readHeader = (requests true curAddr (partSizes mps data.length)).map some := by
  induction data using splitEvery_induction hmps generalizing d curAddr headers with
  | nil =>
    refine ⟨[], ?_, ?_⟩
    · rw [splitEvery_nil hmps, DmaEngine.writeTlps, List.append_nil, hostAfter, List.length_nil,
        partSizes_zero hmps]
      rfl
    · rw [List.length_nil, partSizes_zero hmps]
      rfl
  | part l hne ih =>
    have hlen := List.length_pos_iff.mpr hne
    have hfirst : readHeader (d.memHeader true curAddr (l.take mps).length (d.tagAfter order 0)) =
        some (request true curAddr (min mps l.length)) := by
      rw [List.length_take]
      exact readHeader_memHeader _ _ _ true (by omega) (by omega)
    obtain ⟨hs, hrun, hheaders⟩ := ih (d := { d with
        pops := d.pops + 1
        hostMem := DmaEngine.writeHost d.hostMem curAddr (padded (l.take mps)) })
      (curAddr + (padded (l.take mps)).length)
      (headers ++ [d.memHeader true curAddr (l.take mps).length (d.tagAfter order 0)]) hfree
    refine ⟨d.memHeader true curAddr (l.take mps).length (d.tagAfter order 0) :: hs, ?_, ?_⟩
    · rw [splitEvery_of_ne_nil hmps hne, writeTlps_cons hfree, hrun, partSizes_of_pos hmps hlen,
        List.length_cons, List.length_drop, List.append_assoc, Nat.add_assoc, Nat.add_comm 1]
      rfl
    · rw [List.map_cons, hheaders, hfirst, partSizes_of_pos hmps hlen, requests, List.map_cons,
        List.length_drop]
      congr 2
      rcases Nat.lt_or_ge mps l.length with hmore | hlast
      · rw [length_padded, List.length_take, lengthDw]
        congr 1
        omega
      · rw [Nat.sub_eq_zero_of_le hlast, partSizes_zero hmps]
        rfl

/-- A write of the engine does not fail. -/
theorem DmaEngine.tlpWrite_eq_ok (order : PopOrder) (pcieAddr : ℤ) (data : List UInt8)
    (hfree : d.tagFree.Nonempty) :
    ∃ hs, d.tlpWrite order pcieAddr data =
        ({ d with
          pops := d.pops + d.packets data.length
          hostMem := hostAfter d.hostMem pcieAddr (splitEvery d.maxPayloadBytes data) },
          .ok hs) ∧
      hs.map readHeader =
        (requests true pcieAddr (partSizes d.maxPayloadBytes data.length)).map some := by
  have hmps := d.maxPayloadBytes_pos
  rw [DmaEngine.tlpWrite]
  split_ifs with hnil
  · refine ⟨[], ?_, ?_⟩
    · rw [hnil, splitEvery_nil hmps, hostAfter, DmaEngine.packets, List.length_nil,
        partSizes_zero hmps]
      rfl
    · rw [hnil, List.length_nil, partSizes_zero hmps]
      rfl
  · exact writeTlps_eq_ok pcieAddr [] hmps (mpsBytes_mod _) (mpsBytes_le _) hfree

end Packets

section Reads

variable {order : PopOrder} {d : DmaEngine} {curAddr : ℤ} {fuel n : ℕ} {allData : List UInt8}
  {headers : List (List UInt8)}

/-- No error is injected for the tags that a read of some bytes takes. -/
def DmaEngine.Quiet (order : PopOrder) (d : DmaEngine) (n : ℕ) : Prop :=
  ∀ k < d.packets n, d.statusOf (d.tagAfter order k).val = cplStatusSc

/-- The engine after the tag of a packet of a read. -/
def DmaEngine.afterTag (order : PopOrder) (d : DmaEngine) : DmaEngine :=
  { d with
    pops := d.pops + 1
    completionErrors := d.completionErrors.erase (d.tagAfter order 0).val }

theorem statusOf_afterTag (h : d.statusOf (d.tagAfter order 0).val = cplStatusSc) (t : ℤ) :
    (d.afterTag order).statusOf t = d.statusOf t := by
  rw [DmaEngine.statusOf, DmaEngine.afterTag, Dict.get?_erase]
  split_ifs with ht
  · rw [ht, h]
    rfl
  · rfl

theorem packets_succ (hpos : 0 < n) : d.packets n = d.packets (n - d.maxPayloadBytes) + 1 := by
  rw [DmaEngine.packets, partSizes_of_pos d.maxPayloadBytes_pos hpos, List.length_cons,
    DmaEngine.packets]

/-- A read is quiet if its first packet is, and what follows. -/
theorem quiet_succ (hpos : 0 < n) (h : d.statusOf (d.tagAfter order 0).val = cplStatusSc) :
    d.Quiet order n ↔ (d.afterTag order).Quiet order (n - d.maxPayloadBytes) := by
  have htag : ∀ k, (d.afterTag order).tagAfter order k = d.tagAfter order (k + 1) := by
    intro k
    rw [DmaEngine.tagAfter, DmaEngine.tagAfter, Nat.add_comm k, ← Nat.add_assoc]
    rfl
  have hpackets : (d.afterTag order).packets (n - d.maxPayloadBytes) =
      d.packets (n - d.maxPayloadBytes) := rfl
  rw [DmaEngine.Quiet, DmaEngine.Quiet, packets_succ hpos, hpackets]
  simp only [htag, statusOf_afterTag h]
  constructor
  · intro hall k hk
    exact hall (k + 1) (by omega)
  · intro hall k hk
    cases k with
    | zero => exact h
    | succ k => exact hall k (by omega)

theorem quiet_zero : d.Quiet order 0 := by
  intro k hk
  rw [DmaEngine.packets, partSizes_zero d.maxPayloadBytes_pos] at hk
  exact absurd hk (Nat.not_lt_zero k)

theorem readTlps_zero : DmaEngine.readTlps order fuel d curAddr 0 allData headers =
    (d, .ok (allData, headers)) := by
  cases fuel with
  | zero => rfl
  | succ fuel => rw [DmaEngine.readTlps, if_pos rfl]

/-- One packet of a read. -/
theorem readTlps_succ (fuel : ℕ) (curAddr : ℤ) (allData : List UInt8)
    (headers : List (List UInt8)) (hfree : d.tagFree.Nonempty) (hpos : 0 < n) :
    (d.statusOf (d.tagAfter order 0).val ≠ cplStatusSc ∧ ∃ message,
      DmaEngine.readTlps order (fuel + 1) d curAddr n allData headers =
        (d.afterTag order, .error (.runtimeError message))) ∨
    (d.statusOf (d.tagAfter order 0).val = cplStatusSc ∧
      DmaEngine.readTlps order (fuel + 1) d curAddr n allData headers =
        DmaEngine.readTlps order fuel (d.afterTag order)
          (curAddr + (min n d.maxPayloadBytes : ℕ)) (n - d.maxPayloadBytes)
          (allData ++ DmaEngine.readHost d.hostMem curAddr (min n d.maxPayloadBytes))
          (headers ++ [d.memHeader false curAddr (min n d.maxPayloadBytes)
            (d.tagAfter order 0)])) := by
  have hback : insert (d.tagAfter order 0) (d.tagFree.erase (d.tagAfter order 0)) = d.tagFree :=
    Finset.insert_erase (order.pop_mem _ _ hfree)
  rw [DmaEngine.readTlps, if_neg (by omega)]
  dsimp only
  rw [allocTag_eq_ok hfree]
  dsimp only [DmaEngine.freeTag, DmaEngine.popStatus]
  rw [hback]
  by_cases h : d.statusOf (d.tagAfter order 0).val = cplStatusSc
  · right
    refine ⟨h, (if_neg (not_not_intro h)).trans ?_⟩
    rw [show n - min n d.maxPayloadBytes = n - d.maxPayloadBytes by omega]
    rfl
  · exact Or.inl ⟨h, _, if_pos h⟩

/-- A read leaves the pool as it was, also when it fails. -/
theorem tagFree_readTlps (hfree : d.tagFree.Nonempty) :
    (DmaEngine.readTlps order fuel d curAddr n allData headers).1.tagFree = d.tagFree := by
  induction fuel generalizing d n curAddr allData headers with
  | zero => rfl
  | succ fuel ih =>
    rcases Nat.eq_zero_or_pos n with rfl | hpos
    · rw [readTlps_zero]
    rcases readTlps_succ fuel curAddr allData headers hfree hpos with
      ⟨-, message, hrun⟩ | ⟨-, hrun⟩
    · rw [hrun]
      rfl
    · rw [hrun]
      exact ih (d := d.afterTag order) hfree

/-- A read of nothing. -/
theorem readTlps_nothing (curAddr : ℤ) (allData : List UInt8) (headers : List (List UInt8)) :
    ∃ errors data hs, DmaEngine.readTlps order fuel d curAddr 0 allData headers =
        ({ d with pops := d.pops + d.packets 0, completionErrors := errors },
          .ok (allData ++ data, headers ++ hs)) ∧
      (∀ t, (errors.get? t).getD cplStatusSc = d.statusOf t) ∧
      hs.map readHeader = (requests false curAddr (partSizes d.maxPayloadBytes 0)).map some ∧
      (0 ≤ curAddr → data = hostBytes d.hostMem curAddr 0) := by
  have hmps := d.maxPayloadBytes_pos
  refine ⟨d.completionErrors, [], [], ?_, fun _ => rfl, ?_, fun _ => rfl⟩
  · rw [readTlps_zero, List.append_nil, List.append_nil, DmaEngine.packets, partSizes_zero hmps]
    rfl
  · rw [partSizes_zero hmps]
    rfl

/-- A read for whose tags no error is injected gives the headers of its requests, and the bytes
of its range. -/
theorem readTlps_eq_ok (curAddr : ℤ) (allData : List UInt8) (headers : List (List UInt8))
    (hfree : d.tagFree.Nonempty) (hfuel : n ≤ fuel) (hquiet : d.Quiet order n) :
    ∃ errors data hs, DmaEngine.readTlps order fuel d curAddr n allData headers =
        ({ d with pops := d.pops + d.packets n, completionErrors := errors },
          .ok (allData ++ data, headers ++ hs)) ∧
      (∀ t, (errors.get? t).getD cplStatusSc = d.statusOf t) ∧
      hs.map readHeader = (requests false curAddr (partSizes d.maxPayloadBytes n)).map some ∧
      (0 ≤ curAddr → data = hostBytes d.hostMem curAddr n) := by
  induction fuel generalizing d n curAddr allData headers with
  | zero =>
    obtain rfl : n = 0 := by omega
    exact readTlps_nothing curAddr allData headers
  | succ fuel ih =>
    rcases Nat.eq_zero_or_pos n with rfl | hpos
    · exact readTlps_nothing curAddr allData headers
    have hmps := d.maxPayloadBytes_pos
    have hstatus : d.statusOf (d.tagAfter order 0).val = cplStatusSc := by
      refine hquiet 0 ?_
      rw [packets_succ hpos]
      exact Nat.succ_pos _
    rcases readTlps_succ fuel curAddr allData headers hfree hpos with
      ⟨hne, -⟩ | ⟨-, hrun⟩
    · exact absurd hstatus hne
    have hfree' : (d.afterTag order).tagFree.Nonempty := hfree
    have hfuel' : n - d.maxPayloadBytes ≤ fuel := by omega
    obtain ⟨errors, data, hs, hrest, herrors, hheaders, hdata⟩ :=
      ih (curAddr + (min n d.maxPayloadBytes : ℕ)) _ _ hfree' hfuel'
        ((quiet_succ hpos hstatus).mp hquiet)
    have hmem : (d.afterTag order).hostMem = d.hostMem := rfl
    rw [hmem] at hdata
    refine ⟨errors, DmaEngine.readHost d.hostMem curAddr (min n d.maxPayloadBytes) ++ data,
      d.memHeader false curAddr (min n d.maxPayloadBytes) (d.tagAfter order 0) :: hs,
      ?_, fun t => ?_, ?_, fun h0 => ?_⟩
    · rw [hrun, hrest, packets_succ hpos, List.append_assoc, List.append_assoc,
        Nat.add_comm (d.packets _), ← Nat.add_assoc]
      rfl
    · rw [herrors, statusOf_afterTag hstatus]
    · have hfirst := readHeader_memHeader d curAddr (d.tagAfter order 0) false
        (show 0 < min n d.maxPayloadBytes by omega)
        (Nat.le_trans (Nat.min_le_right _ _) (mpsBytes_le _))
      rw [List.map_cons, hfirst, hheaders, partSizes_of_pos hmps hpos, requests, List.map_cons,
        Nat.min_comm]
      rfl
    · rw [hdata (by omega), readHost_eq_hostBytes h0, ← hostBytes_add h0,
        show min n d.maxPayloadBytes + (n - d.maxPayloadBytes) = n by omega]

/-- A read for whose tags some error is injected fails. -/
theorem readTlps_eq_error (curAddr : ℤ) (allData : List UInt8) (headers : List (List UInt8))
    (hfree : d.tagFree.Nonempty) (hfuel : n ≤ fuel) (hquiet : ¬ d.Quiet order n) :
    ∃ d' message, DmaEngine.readTlps order fuel d curAddr n allData headers =
      (d', .error (.runtimeError message)) := by
  induction fuel generalizing d n curAddr allData headers with
  | zero =>
    obtain rfl : n = 0 := by omega
    exact absurd quiet_zero hquiet
  | succ fuel ih =>
    rcases Nat.eq_zero_or_pos n with rfl | hpos
    · exact absurd quiet_zero hquiet
    have hmps := d.maxPayloadBytes_pos
    rcases readTlps_succ fuel curAddr allData headers hfree hpos with
      ⟨-, message, hrun⟩ | ⟨hstatus, hrun⟩
    · exact ⟨_, message, hrun⟩
    · rw [hrun]
      exact ih _ _ _ hfree (by omega) fun h => hquiet ((quiet_succ hpos hstatus).mpr h)

/-- A read of the engine for whose tags no error is injected. -/
theorem DmaEngine.tlpRead_eq_ok (pcieAddr : ℤ) (hfree : d.tagFree.Nonempty)
    (hquiet : d.Quiet order n) :
    ∃ errors data hs, d.tlpRead order pcieAddr n =
        ({ d with pops := d.pops + d.packets n, completionErrors := errors }, .ok (data, hs)) ∧
      (∀ t, (errors.get? t).getD cplStatusSc = d.statusOf t) ∧
      hs.map readHeader = (requests false pcieAddr (partSizes d.maxPayloadBytes n)).map some ∧
      (0 ≤ pcieAddr → data = hostBytes d.hostMem pcieAddr n) := by
  obtain ⟨errors, data, hs, hrun, h⟩ :=
    readTlps_eq_ok pcieAddr [] [] hfree (Nat.le_refl n) hquiet
  refine ⟨errors, data, hs, ?_, h⟩
  rw [List.nil_append, List.nil_append] at hrun
  rw [DmaEngine.tlpRead, if_neg (by omega), Int.toNat_natCast, ← hrun]
  split_ifs with hzero
  · obtain rfl : n = 0 := by omega
    rw [readTlps_zero]
  · rfl

/-- A read of the engine for whose tags some error is injected. -/
theorem DmaEngine.tlpRead_eq_error (pcieAddr : ℤ) (hfree : d.tagFree.Nonempty)
    (hquiet : ¬ d.Quiet order n) :
    ∃ d' message, d.tlpRead order pcieAddr n = (d', .error (.runtimeError message)) := by
  have hpos : n ≠ 0 := by
    rintro rfl
    exact hquiet quiet_zero
  rw [DmaEngine.tlpRead, if_neg (by omega), if_neg (by omega), Int.toNat_natCast]
  exact readTlps_eq_error pcieAddr [] [] hfree (Nat.le_refl n) hquiet

theorem DmaEngine.tagFree_tlpRead (pcieAddr length : ℤ) (hfree : d.tagFree.Nonempty) :
    (d.tlpRead order pcieAddr length).1.tagFree = d.tagFree := by
  rw [DmaEngine.tlpRead]
  split_ifs
  · rfl
  · rfl
  · exact tagFree_readTlps hfree

end Reads

section Tiling

variable {order : PopOrder} {d : DmaEngine} {mps len : ℕ} {addr : ℤ} {isWrite : Bool}
  {hs : List (List UInt8)} {rs : List MemRequest} {data : List UInt8}

theorem DmaEngine.Idle.nonempty (h : d.Idle) : d.tagFree.Nonempty := by
  rw [h]
  exact Finset.univ_nonempty

/-- Headers denote requests that tile the bytes from an address on. -/
def Describes (isWrite : Bool) (mps : ℕ) (addr : ℤ) (len : ℕ) (hs : List (List UInt8)) : Prop :=
  ∃ rs, hs.map readHeader = rs.map some ∧ Tiles isWrite mps addr len rs

theorem describes_iff (h : hs.map readHeader = rs.map some) :
    Describes isWrite mps addr len hs ↔ Tiles isWrite mps addr len rs := by
  constructor
  · rintro ⟨rs', hrs', htiles⟩
    have hsame : rs' = rs :=
      (Option.some_injective MemRequest).list_map (hrs'.symm.trans h)
    rwa [← hsame]
  · exact fun htiles => ⟨rs, h, htiles⟩

/-- The headers of a write describe it, and so do those of a read of the same range. -/
def HeadersDescribe (order : PopOrder) (d : DmaEngine) (addr : ℤ) (data : List UInt8) : Prop :=
  (∃ hs, (d.tlpWrite order addr data).2 = .ok hs ∧
    Describes true d.maxPayloadBytes addr data.length hs) ∧
  ∀ bytes hs, (d.tlpRead order addr data.length).2 = .ok (bytes, hs) →
    Describes false d.maxPayloadBytes addr data.length hs

/-- The headers of a write describe it exactly when it is aligned. -/
theorem write_describes_iff (hfree : d.tagFree.Nonempty) :
    (∃ hs, (d.tlpWrite order addr data).2 = .ok hs ∧
      Describes true d.maxPayloadBytes addr data.length hs) ↔
      Aligned d.maxPayloadBytes addr data.length := by
  obtain ⟨hs, hrun, hrequests⟩ := DmaEngine.tlpWrite_eq_ok order addr data hfree
  rw [hrun, ← tiles_requests_iff d.maxPayloadBytes_pos (mpsBytes_mod _), ← describes_iff hrequests]
  constructor
  · rintro ⟨hs', heq, h⟩
    obtain rfl := Except.ok.inj heq
    exact h
  · exact fun h => ⟨hs, rfl, h⟩

/-- The headers of a read describe it exactly when it is aligned. -/
theorem read_describes_iff (hfree : d.tagFree.Nonempty) {bytes : List UInt8}
    (hok : (d.tlpRead order addr len).2 = .ok (bytes, hs)) :
    Describes false d.maxPayloadBytes addr len hs ↔ Aligned d.maxPayloadBytes addr len := by
  by_cases hquiet : d.Quiet order len
  · obtain ⟨errors, data, hs', hrun, -, hrequests, -⟩ := DmaEngine.tlpRead_eq_ok addr hfree hquiet
    rw [hrun] at hok
    cases hok
    rw [describes_iff hrequests, tiles_requests_iff d.maxPayloadBytes_pos (mpsBytes_mod _)]
  · obtain ⟨d', message, hrun⟩ := DmaEngine.tlpRead_eq_error addr hfree hquiet
    rw [hrun] at hok
    cases hok

/-- The headers of transfers describe them exactly when the range needs no more double words than
its bytes fill, and its packets have addresses of 64 bits. -/
theorem headers_describe_iff (hidle : d.Idle) :
    (HeadersDescribe order d addr data ↔ Aligned d.maxPayloadBytes addr data.length) ∧
      ∀ (n : ℕ) bytes hs, (d.tlpRead order addr n).2 = .ok (bytes, hs) →
        (Describes false d.maxPayloadBytes addr n hs ↔ Aligned d.maxPayloadBytes addr n) := by
  refine ⟨⟨fun h => (write_describes_iff hidle.nonempty).mp h.1, fun h => ?_⟩,
    fun n bytes hs hok => read_describes_iff hidle.nonempty hok⟩
  exact ⟨(write_describes_iff hidle.nonempty).mpr h,
    fun bytes hs hok => (read_describes_iff hidle.nonempty hok).mpr h⟩

/-- The pool that gives its least tag. -/
def leastTag : PopOrder where
  pop := fun _ s => if h : s.Nonempty then s.min' h else 0
  pop_mem := by
    intro n s h
    rw [dif_pos h]
    exact s.min'_mem h

/-- An engine with eight bytes of the host. -/
def sampleEngine : DmaEngine := .new none [1, 2, 3, 4, 5, 6, 7, 8] 0 1

theorem sampleEngine_idle : sampleEngine.Idle := rfl

/-- The condition of the headers at a sample engine. -/
theorem sample_headers_describe_iff : sampleEngine.Idle ∧
    (HeadersDescribe leastTag sampleEngine 4 [9, 9] ↔ Aligned 256 4 2) :=
  ⟨sampleEngine_idle, (headers_describe_iff sampleEngine_idle).1⟩

/-- The headers of a transfer of four bytes that begins inside a double word do not describe it. -/
theorem headers_not_describe : ¬ ∀ (order : PopOrder) (d : DmaEngine) (addr : ℤ)
    (data : List UInt8), d.Idle → HeadersDescribe order d addr data := by
  intro h
  have hdescribe := (h leastTag sampleEngine 1 [9, 9, 9, 9] sampleEngine_idle).1
  rw [write_describes_iff sampleEngine_idle.nonempty] at hdescribe
  rcases hdescribe with hzero | ⟨-, hmod, -⟩
  · cases hzero
  · exact absurd hmod (by decide)

end Tiling

end Pcie

end NpuArc
