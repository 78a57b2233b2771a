import NpuArc.Pcie.Transfers

/-!
# Round trips through the memory of the host

Inside the memory of the host the chunks of a write are one write, of the padded payload or, when
the padding of the last chunk goes beyond the end of the memory, of the chunks before it. So the
payload is read back, and nothing else has changed, exactly when the padding finds zeros or the
memory has the bytes of the last chunk already.
-/

namespace NpuArc

namespace Pcie

/-- The offset of the last chunk of a payload. -/
def lastStart (mps len : ℕ) : ℕ := (len - 1) / mps * mps

/-- What a write inside the memory of the host stores. -/
def stored (mps : ℕ) (hostMem : List UInt8) (addr : ℤ) (data : List UInt8) : List UInt8 :=
  if addr + (padded data).length ≤ hostMem.length then padded data
  else data.take (lastStart mps data.length)

section Stored

variable {mps : ℕ} {hostMem data : List UInt8} {addr : ℤ}

theorem lastStart_le (mps : ℕ) (data : List UInt8) :
    lastStart mps data.length ≤ data.length := by
  have h := Nat.div_mul_le_self (data.length - 1) mps
  rw [lastStart]
  omega

/-- What is stored fits. -/
theorem stored_fits (mps : ℕ) (hin : addr + data.length ≤ hostMem.length) :
    addr + (stored mps hostMem addr data).length ≤ hostMem.length := by
  rw [stored]
  split_ifs with h
  · exact h
  · rw [List.length_take]
    omega

/-- The chunks of a payload inside the memory of the host write as one. -/
theorem hostAfter_eq (hmps : 0 < mps) (h4 : mps % 4 = 0) (h0 : 0 ≤ addr)
    (hin : addr + data.length ≤ hostMem.length) :
    hostAfter hostMem addr (splitEvery mps data) =
      replaceSlice hostMem addr (addr + (stored mps hostMem addr data).length)
        (stored mps hostMem addr data) := by
  induction data using splitEvery_induction hmps generalizing hostMem addr with
  | nil =>
    have hstored : stored mps hostMem addr [] = [] := by
      rw [stored, padded_nil, List.take_nil, ite_self]
    rw [splitEvery_nil hmps, hostAfter, hstored, List.length_nil, Nat.cast_zero, Int.add_zero,
      replaceSlice_nil h0 (by omega)]
  | part l hne ih =>
    have hlen := List.length_pos_iff.mpr hne
    have hsplit := congrArg List.length (padded_split h4 l)
    rw [List.length_append] at hsplit
    rw [splitEvery_of_ne_nil hmps hne, hostAfter]
    rcases Nat.lt_or_ge mps l.length with hmore | hlast
    · -- The first chunk is a full one and fits, so what follows is written behind it.
      have htake : (l.take mps).length = mps := by
        rw [List.length_take]
        omega
      have hfull : padded (l.take mps) = l.take mps := padded_of_dvd (by rw [htake]; exact h4)
      have hfirst : DmaEngine.writeHost hostMem addr (l.take mps) =
          replaceSlice hostMem addr (addr + (l.take mps).length) (l.take mps) :=
        if_pos (by omega)
      have hkept : (DmaEngine.writeHost hostMem addr (l.take mps)).length = hostMem.length := by
        rw [hfirst, length_replaceSlice_of_le h0 (by omega)]
      have hrest : stored mps hostMem addr l = l.take mps ++
          stored mps (DmaEngine.writeHost hostMem addr (l.take mps))
            (addr + (l.take mps).length) (l.drop mps) := by
        have hstart : lastStart mps l.length = mps + lastStart mps (l.drop mps).length := by
          rw [lastStart, lastAddr_succ hmps hmore, lastStart, List.length_drop, Nat.add_comm]
        have hjoin := padded_split h4 l
        rw [hfull] at hsplit hjoin
        rw [stored, stored, hkept]
        by_cases hfits : addr + (padded l).length ≤ hostMem.length
        · rw [if_pos hfits, if_pos (by omega), hjoin]
        · rw [if_neg hfits, if_neg (by omega), hstart, List.take_add]
      have hin' : addr + (l.take mps).length + (l.drop mps).length ≤
          (DmaEngine.writeHost hostMem addr (l.take mps)).length := by
        rw [hkept, htake, List.length_drop]
        omega
      have hbound := stored_fits mps hin'
      rw [hkept] at hbound
      rw [hfull, ih (by omega) hin', hrest, hfirst]
      rw [hfirst] at hbound
      exact replaceSlice_append h0 (by rw [List.length_append]; omega)
    · rw [List.take_of_length_le hlast, List.drop_of_length_le hlast, splitEvery_nil hmps,
        hostAfter, DmaEngine.writeHost, stored]
      split_ifs with hfits
      · rfl
      · rw [lastStart, Nat.div_eq_of_lt (by omega), Nat.zero_mul, List.take_zero, List.length_nil,
          Nat.cast_zero, Int.add_zero, replaceSlice_nil h0 (by omega)]

end Stored

section RoundTrip

variable {order : PopOrder} {d : DmaEngine} {addr : ℤ} {data : List UInt8}

/-- A write to the memory of the host keeps its length, changes no byte outside its range, and is
read back. -/
def HostRoundTrip (order : PopOrder) (d : DmaEngine) (addr : ℤ) (data : List UInt8) : Prop :=
  (d.tlpWrite order addr data).1.hostMem.length = d.hostMem.length ∧
    (∀ i : ℕ, ¬ (addr ≤ i ∧ i < addr + data.length) →
      (d.tlpWrite order addr data).1.hostMem[i]? = d.hostMem[i]?) ∧
    ∃ hs, ((d.tlpWrite order addr data).1.tlpRead order addr data.length).2 = .ok (data, hs)

/-- The padding of a write finds zeros, or where it goes beyond the end, the memory of the host
has the bytes of the last chunk already; and no error is injected for the tags of the read. -/
def CleanHostWrite (order : PopOrder) (d : DmaEngine) (addr : ℤ) (data : List UInt8) : Prop :=
  (if addr + (padded data).length ≤ d.hostMem.length then
      ∀ k, data.length ≤ k → k < (padded data).length → d.hostMem[addr.toNat + k]? = some 0
    else ∀ k, lastStart d.maxPayloadBytes data.length ≤ k → k < data.length →
      d.hostMem[addr.toNat + k]? = data[k]?) ∧
    ∀ k < d.packets data.length,
      d.statusOf (d.tagAfter order (d.packets data.length + k)).val = cplStatusSc

theorem tagFree_tlpWrite (hfree : d.tagFree.Nonempty) :
    (d.tlpWrite order addr data).1.tagFree = d.tagFree := by
  obtain ⟨hs, hrun, -⟩ := DmaEngine.tlpWrite_eq_ok order addr data hfree
  rw [hrun]

/-- The bytes of the memory of the host after a write. -/
theorem getElem?_hostAfter (order : PopOrder) (hfree : d.tagFree.Nonempty) (h0 : 0 ≤ addr)
    (hin : addr + data.length ≤ d.hostMem.length) :
    (d.tlpWrite order addr data).1.hostMem.length = d.hostMem.length ∧
      ∀ i : ℕ, (d.tlpWrite order addr data).1.hostMem[i]? =
        if addr ≤ i ∧ i < addr + (stored d.maxPayloadBytes d.hostMem addr data).length then
          (stored d.maxPayloadBytes d.hostMem addr data)[i - addr.toNat]?
        else d.hostMem[i]? := by
  obtain ⟨hs, hrun, -⟩ := DmaEngine.tlpWrite_eq_ok order addr data hfree
  have hfits := stored_fits d.maxPayloadBytes hin
  rw [hrun]
  dsimp only
  rw [hostAfter_eq d.maxPayloadBytes_pos (mpsBytes_mod _) h0 hin]
  exact ⟨length_replaceSlice_of_le h0 hfits, getElem?_replaceSlice h0 hfits⟩

/-- The read of a round trip is quiet when its tags are, those after the tags of the write. -/
theorem quiet_tlpWrite_iff (hfree : d.tagFree.Nonempty) :
    (d.tlpWrite order addr data).1.Quiet order data.length ↔ ∀ k < d.packets data.length,
      d.statusOf (d.tagAfter order (d.packets data.length + k)).val = cplStatusSc := by
  obtain ⟨hs, hrun, -⟩ := DmaEngine.tlpWrite_eq_ok order addr data hfree
  rw [hrun]
  simp only [DmaEngine.Quiet, DmaEngine.tagAfter, ← Nat.add_assoc]
  exact Iff.rfl

/-- A quiet read of a round trip gives the bytes that the write has left in its range. -/
theorem tlpRead_tlpWrite_eq_ok (hfree : d.tagFree.Nonempty) (h0 : 0 ≤ addr)
    (hin : addr + data.length ≤ d.hostMem.length)
    (hquiet : (d.tlpWrite order addr data).1.Quiet order data.length) :
    ∃ hs, ((d.tlpWrite order addr data).1.tlpRead order addr data.length).2 =
      .ok (sliceList (d.tlpWrite order addr data).1.hostMem addr (addr + data.length), hs) := by
  have hlen := (getElem?_hostAfter order hfree h0 hin).1
  have hfree' : (d.tlpWrite order addr data).1.tagFree.Nonempty := by
    rw [tagFree_tlpWrite hfree]
    exact hfree
  obtain ⟨errors, bytes, hs, hread, -, -, hbytes⟩ := DmaEngine.tlpRead_eq_ok addr hfree' hquiet
  rw [hread, ← hostBytes_eq_sliceList h0 (by rw [hlen]; exact hin), ← hbytes h0]
  exact ⟨hs, rfl⟩

/-- A write is read back, and changes nothing else, exactly when what it stores beyond its payload
is there already, and so is what it does not store of its payload. -/
theorem hostRoundTrip_iff_stored (hfree : d.tagFree.Nonempty) (h0 : 0 ≤ addr)
    (hin : addr + data.length ≤ d.hostMem.length) :
    HostRoundTrip order d addr data ↔
      ((∀ k, data.length ≤ k →
        k < (stored d.maxPayloadBytes d.hostMem addr data).length →
        d.hostMem[addr.toNat + k]? = (stored d.maxPayloadBytes d.hostMem addr data)[k]?) ∧
      ∀ k < data.length,
        (if k < (stored d.maxPayloadBytes d.hostMem addr data).length then
          (stored d.maxPayloadBytes d.hostMem addr data)[k]?
        else d.hostMem[addr.toNat + k]?) = data[k]?) ∧
      ∀ k < d.packets data.length,
        d.statusOf (d.tagAfter order (d.packets data.length + k)).val = cplStatusSc := by
  obtain ⟨hlen, hget⟩ := getElem?_hostAfter order hfree h0 hin
  -- What stands at an offset of the range after the write.
  have hat : ∀ k, (d.tlpWrite order addr data).1.hostMem[addr.toNat + k]? =
      if k < (stored d.maxPayloadBytes d.hostMem addr data).length then
        (stored d.maxPayloadBytes d.hostMem addr data)[k]?
      else d.hostMem[addr.toNat + k]? := by
    intro k
    rw [hget, Nat.add_sub_cancel_left]
    by_cases hk : k < (stored d.maxPayloadBytes d.hostMem addr data).length
    · rw [if_pos ⟨by omega, by omega⟩, if_pos hk]
    · rw [if_neg (by omega), if_neg hk]
  rw [← quiet_tlpWrite_iff hfree, HostRoundTrip]
  constructor
  · rintro ⟨-, hout, hs, hread⟩
    have hquiet : (d.tlpWrite order addr data).1.Quiet order data.length := by
      by_contra hquiet
      have hfree' : (d.tlpWrite order addr data).1.tagFree.Nonempty := by
        rw [tagFree_tlpWrite hfree]
        exact hfree
      obtain ⟨d', message, herror⟩ := DmaEngine.tlpRead_eq_error addr hfree' hquiet
      rw [herror] at hread
      cases hread
    obtain ⟨hs', hread'⟩ := tlpRead_tlpWrite_eq_ok hfree h0 hin hquiet
    have hdata := (Prod.mk.inj (Except.ok.inj (hread'.symm.trans hread))).1
    refine ⟨⟨fun k hk hk' => ?_, fun k hk => ?_⟩, hquiet⟩
    · have hkept := hout (addr.toNat + k) (by omega)
      rw [hat, if_pos hk'] at hkept
      exact hkept.symm
    · rw [← hat k]
      nth_rewrite 2 [← hdata]
      rw [getElem?_sliceList h0, if_pos hk]
  · rintro ⟨⟨hpad, hrange⟩, hquiet⟩
    refine ⟨hlen, fun i hi => ?_, ?_⟩
    · rw [hget]
      split_ifs with hin'
      · have hk := hpad (i - addr.toNat) (by omega) (by omega)
        rw [← hk]
        congr 1
        omega
      · rfl
    · obtain ⟨hs, hread⟩ := tlpRead_tlpWrite_eq_ok hfree h0 hin hquiet
      refine ⟨hs, hread.trans ?_⟩
      have hdata : sliceList (d.tlpWrite order addr data).1.hostMem addr (addr + data.length) =
          data := by
        refine List.ext_getElem? fun k => ?_
        rw [getElem?_sliceList h0]
        split_ifs with hk
        · rw [hat k, hrange k hk]
        · exact (List.getElem?_eq_none (by omega)).symm
      rw [hdata]

/-- A write inside the memory of the host is read back and changes nothing else exactly when its
last chunk is clean and the tags of the read are. -/
theorem hostRoundTrip_iff (hidle : d.Idle) (h0 : 0 ≤ addr)
    (hin : addr + data.length ≤ d.hostMem.length) :
    HostRoundTrip order d addr data ↔ CleanHostWrite order d addr data := by
  rw [hostRoundTrip_iff_stored hidle.nonempty h0 hin, CleanHostWrite]
  refine and_congr_left fun _ => ?_
  have hle := length_le_padded data
  rw [stored]
  split_ifs with hfits
  · constructor
    · intro h k hk hk'
      rw [h.1 k hk hk', getElem?_padded, if_neg (by omega), if_pos hk']
    · intro h
      refine ⟨fun k hk hk' => ?_, fun k hk => ?_⟩
      · rw [h k hk hk', getElem?_padded, if_neg (by omega), if_pos hk']
      · rw [if_pos (by omega), getElem?_padded, if_pos hk]
  · have hstart := lastStart_le d.maxPayloadBytes data
    have hshort : (data.take (lastStart d.maxPayloadBytes data.length)).length =
        lastStart d.maxPayloadBytes data.length := by
      rw [List.length_take]
      omega
    rw [hshort]
    constructor
    · intro h k hk hk'
      have hrange := h.2 k hk'
      rwa [if_neg (by omega)] at hrange
    · intro h
      refine ⟨fun k hk hk' => by omega, fun k hk => ?_⟩
      split_ifs with hk'
      · exact List.getElem?_take_of_lt hk'
      · exact h k (by omega) hk

/-- The condition of the round trip at a sample engine. -/
theorem sample_hostRoundTrip_iff : sampleEngine.Idle ∧
    (0 : ℤ) + ([9, 9, 9, 9] : List UInt8).length ≤ sampleEngine.hostMem.length ∧
    (HostRoundTrip leastTag sampleEngine 0 [9, 9, 9, 9] ↔
      CleanHostWrite leastTag sampleEngine 0 [9, 9, 9, 9]) :=
  ⟨sampleEngine_idle, by decide, hostRoundTrip_iff sampleEngine_idle (by decide) (by decide)⟩

/-- The padding of a single byte overwrites the byte after it. -/
theorem not_hostRoundTrip : ¬ ∀ (order : PopOrder) (d : DmaEngine) (addr : ℤ)
    (data : List UInt8), d.Idle → 0 ≤ addr → addr + data.length ≤ d.hostMem.length →
      HostRoundTrip order d addr data := by
  intro h
  have hkept := (h leastTag sampleEngine 0 [9] sampleEngine_idle (by decide) (by decide)).2.1 1
    (by decide)
  obtain ⟨hs, hrun, -⟩ := DmaEngine.tlpWrite_eq_ok leastTag 0 [9] sampleEngine_idle.nonempty
  rw [hrun] at hkept
  dsimp only at hkept
  exact absurd hkept (by decide +kernel)

end RoundTrip

end Pcie

end NpuArc
