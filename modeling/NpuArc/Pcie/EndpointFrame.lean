import NpuArc.Pcie.Endpoint

/-!
# What a write of the host changes

The chunks of a payload that fits into a memory write as one: the padded payload replaces the
bytes from the first address on. So a write that is not refused changes the bytes of its range
and no others exactly when the padding finds zeros, and it is refused without effect exactly
when the chunks before the failing one are in the memory already.
-/

namespace NpuArc

namespace Pcie

section Padding

variable {n : ℕ} {data : List UInt8}

theorem length_padded : (padded data).length = lengthDw data.length * 4 := by
  rw [padded, lengthDw, List.length_append, List.length_replicate]
  omega

theorem length_le_padded (data : List UInt8) : data.length ≤ (padded data).length := by
  rw [length_padded, lengthDw]
  omega

theorem length_padded_pos (h : data ≠ []) : 0 < (padded data).length :=
  Nat.lt_of_lt_of_le (List.length_pos_iff.mpr h) (length_le_padded data)

theorem padded_nil : padded [] = [] := rfl

/-- Whole double words need no padding. -/
theorem padded_of_dvd (h : data.length % 4 = 0) : padded data = data := by
  rw [padded, lengthDw, show (data.length + 3) / 4 * 4 - data.length = 0 by omega,
    List.replicate_zero, List.append_nil]

/-- The padded chunks join to the padded payload. -/
theorem padded_split (hn : n % 4 = 0) (data : List UInt8) :
    padded (data.take n) ++ padded (data.drop n) = padded data := by
  rcases Nat.le_total data.length n with h | h
  · rw [List.take_of_length_le h, List.drop_of_length_le h, padded_nil, List.append_nil]
  · have hlen : (data.take n).length = n := by
      rw [List.length_take]
      omega
    rw [padded_of_dvd (by rw [hlen]; exact hn), padded, ← List.append_assoc, List.take_append_drop,
      padded, List.length_drop, lengthDw, lengthDw]
    congr 2
    omega

/-- The bytes of a padded payload. -/
theorem getElem?_padded (i : ℕ) : (padded data)[i]? =
    if i < data.length then data[i]? else if i < (padded data).length then some 0 else none := by
  rw [length_padded, padded]
  split_ifs with h1 h2
  · exact List.getElem?_append_left h1
  · rw [List.getElem?_append_right (by omega), List.getElem?_replicate, if_pos (by omega)]
  · rw [List.getElem?_append_right (by omega), List.getElem?_replicate, if_neg (by omega)]

end Padding

/-- Bytes were written into the memory of a slave, from an address on. -/
def WrittenAt (r : Regmap) (x : CrossbarModel) (s : Slave) (addr : ℤ) (bytes : List UInt8)
    (x' : CrossbarModel) : Prop :=
  ∀ t, x'.memory t = if t = s then replaceSlice (x.memory s) (addr - r.slaveBase s)
    (addr - r.slaveBase s + bytes.length) bytes else x.memory t

section WrittenAt

variable {r : Regmap} {x x' x'' : CrossbarModel} {s t : Slave} {addr : ℤ}
  {bytes more : List UInt8}

theorem WrittenAt.length (h : WrittenAt r x s addr bytes x') (hlo : r.slaveBase s ≤ addr)
    (hin : addr ≤ r.slaveBase s + (x.memory s).length) :
    (x'.memory s).length =
      max (x.memory s).length ((addr - r.slaveBase s).toNat + bytes.length) := by
  rw [h, if_pos rfl, length_replaceSlice (by omega) (by omega)]

theorem WrittenAt.memory_of_ne (h : WrittenAt r x s addr bytes x') (ht : t ≠ s) :
    x'.memory t = x.memory t := by
  rw [h, if_neg ht]

/-- Bytes that fit keep the lengths. -/
theorem WrittenAt.length_of_fits (h : WrittenAt r x s addr bytes x') (hlo : r.slaveBase s ≤ addr)
    (hfits : addr + bytes.length ≤ r.slaveBase s + (x.memory s).length) (t : Slave) :
    (x'.memory t).length = (x.memory t).length := by
  by_cases ht : t = s
  · rw [ht, h.length hlo (by omega)]
    omega
  · rw [h.memory_of_ne ht]

/-- The bytes of the memories after bytes that fit. -/
theorem WrittenAt.getElem? (h : WrittenAt r x s addr bytes x') (hlo : r.slaveBase s ≤ addr)
    (hfits : addr + bytes.length ≤ r.slaveBase s + (x.memory s).length) (t : Slave) (i : ℕ) :
    (x'.memory t)[i]? =
      if t = s ∧ addr ≤ r.slaveBase t + i ∧ r.slaveBase t + i < addr + bytes.length then
        bytes[(r.slaveBase t + i - addr).toNat]?
      else (x.memory t)[i]? := by
  by_cases ht : t = s
  · subst ht
    rw [h, if_pos rfl, getElem?_replaceSlice (by omega) (by omega)]
    by_cases hi : addr ≤ r.slaveBase t + i ∧ r.slaveBase t + i < addr + bytes.length
    · rw [if_pos ⟨by omega, by omega⟩, if_pos ⟨rfl, hi⟩]
      congr 1
      omega
    · rw [if_neg (by omega), if_neg (by omega)]
  · rw [h.memory_of_ne ht, if_neg fun hc => ht hc.1]

/-- Consecutive writes are one write. -/
theorem WrittenAt.append (h : WrittenAt r x s addr bytes x')
    (h' : WrittenAt r x' s (addr + bytes.length) more x'') (hlo : r.slaveBase s ≤ addr)
    (hfits : addr + (bytes ++ more).length ≤ r.slaveBase s + (x.memory s).length) :
    WrittenAt r x s addr (bytes ++ more) x'' := by
  intro t
  rw [h' t]
  split_ifs with ht
  · rw [h s, if_pos rfl, show addr + (bytes.length : ℤ) - r.slaveBase s =
      addr - r.slaveBase s + bytes.length by omega]
    exact replaceSlice_append (by omega) (by omega)
  · exact h.memory_of_ne ht

end WrittenAt

section Chunks

variable {r : Regmap} {p p' : PCIeModel} {s : Slave} {addr : ℤ} {chunk data : List UInt8}
  {chunks : List (List UInt8)} {res : Except Error Unit}

/-- The base addresses of an endpoint are those of another one. -/
def SameBars (p p' : PCIeModel) : Prop :=
  p'.bar0Base = p.bar0Base ∧ p'.bar1Base = p.bar1Base

/-- A header is built for every chunk, and building it keeps the memories. -/
theorem buildHeader_eq_ok (p : PCIeModel) (fmtType : ℕ) (addr : ℤ) {n : ℕ} (hpos : 0 < n)
    (hmax : n ≤ PCIeModel.maxPayloadBytes) :
    ∃ p₁ header, p.buildHeader fmtType addr (lengthDw n) = .ok (p₁, header) ∧
      p₁.crossbar = p.crossbar ∧ SameBars p p₁ := by
  have hdw : ¬ (lengthDw n = 0 ∨ 1024 < lengthDw n) := by
    rw [PCIeModel.maxPayloadBytes] at hmax
    rw [lengthDw]
    omega
  exact ⟨_, _, if_neg hdw, rfl, rfl, rfl⟩

/-- A chunk fails where its address is not decoded; else it is written, and the rest follows. -/
theorem writeChunks_cons (r : Regmap) (p : PCIeModel) (addr : ℤ) (chunks : List (List UInt8))
    (hpos : chunk ≠ []) (hmax : chunk.length ≤ PCIeModel.maxPayloadBytes) :
    (∃ e p', r.decode p.crossbar addr = .error e ∧ p'.crossbar = p.crossbar ∧
      writeChunks r p addr (chunk :: chunks) = (p', .error e)) ∨
    (∃ s p₁, r.decode p.crossbar addr = .ok s ∧
      WrittenAt r p.crossbar s addr (padded chunk) p₁.crossbar ∧ SameBars p p₁ ∧
      writeChunks r p addr (chunk :: chunks) =
        writeChunks r p₁ (addr + (padded chunk).length) chunks) := by
  obtain ⟨p₁, header, hheader, hcrossbar, hbars⟩ :=
    buildHeader_eq_ok p 0x40 addr (List.length_pos_iff.mpr hpos) hmax
  rw [writeChunks, PCIeModel.buildMemwrHeader, hheader]
  cases hs : r.decode p.crossbar addr with
  | error e =>
    left
    refine ⟨e, { p₁ with lastTxHeaders := p₁.lastTxHeaders ++ [header] }, rfl, hcrossbar, ?_⟩
    dsimp only
    rw [hcrossbar, write_eq_error hs]
  | ok s =>
    right
    obtain ⟨x', hw, hmem⟩ := write_eq_ok (padded chunk) hs
    refine ⟨s, { p₁ with lastTxHeaders := p₁.lastTxHeaders ++ [header], crossbar := x' }, rfl,
      hmem, hbars, ?_⟩
    dsimp only
    rw [hcrossbar, hw]

/-- The first chunk of a payload. -/
theorem take_isChunk (hne : data ≠ []) : data.take PCIeModel.maxPayloadBytes ≠ [] ∧
    (data.take PCIeModel.maxPayloadBytes).length ≤ PCIeModel.maxPayloadBytes := by
  have hpos := List.length_pos_iff.mpr hne
  refine ⟨List.length_pos_iff.mp ?_, List.length_take_le _ _⟩
  rw [List.length_take, PCIeModel.maxPayloadBytes]
  omega

/-- Chunks that a payload is split into. -/
def AreChunks (chunks : List (List UInt8)) : Prop :=
  ∀ chunk ∈ chunks, chunk ≠ [] ∧ chunk.length ≤ PCIeModel.maxPayloadBytes

theorem areChunks_splitEvery (data : List UInt8) :
    AreChunks (splitEvery PCIeModel.maxPayloadBytes data) := by
  induction data using splitEvery_induction (n := PCIeModel.maxPayloadBytes) (by decide) with
  | nil =>
    rw [splitEvery_nil (by decide)]
    exact fun _ h => absurd h List.not_mem_nil
  | part l hne ih =>
    rw [splitEvery_of_ne_nil (by decide) hne]
    intro chunk hchunk
    rcases List.mem_cons.mp hchunk with rfl | hchunk
    · exact take_isChunk hne
    · exact ih chunk hchunk

/-- Writing chunks shortens no memory and leaves the bytes before the first address. -/
theorem writeChunks_frame (hc : AreChunks chunks) (h : writeChunks r p addr chunks = (p', res)) :
    (∀ t, (p.crossbar.memory t).length ≤ (p'.crossbar.memory t).length) ∧
      ∀ t i, i < (p.crossbar.memory t).length → r.slaveBase t + i < addr →
        (p'.crossbar.memory t)[i]? = (p.crossbar.memory t)[i]? := by
  induction chunks generalizing p addr with
  | nil =>
    cases h
    exact ⟨fun _ => Nat.le_refl _, fun _ _ _ _ => rfl⟩
  | cons chunk chunks ih =>
    obtain ⟨hpos, hmax⟩ := hc chunk List.mem_cons_self
    rcases writeChunks_cons r p addr chunks hpos hmax with
      ⟨e, p₁, -, hkept, hrun⟩ | ⟨s, p₁, hs, hwritten, -, hrun⟩
    · cases hrun.symm.trans h
      rw [hkept]
      exact ⟨fun _ => Nat.le_refl _, fun _ _ _ _ => rfl⟩
    · obtain ⟨hlo, hhi⟩ := mapped_of_decode hs
      obtain ⟨hlen, hbelow⟩ :=
        ih (fun c hc' => hc c (List.mem_cons_of_mem chunk hc')) (hrun.symm.trans h)
      have hgrown : ∀ t, (p.crossbar.memory t).length ≤ (p₁.crossbar.memory t).length := by
        intro t
        by_cases ht : t = s
        · rw [ht, hwritten.length hlo (by omega)]
          exact Nat.le_max_left _ _
        · rw [hwritten.memory_of_ne ht]
      refine ⟨fun t => (hgrown t).trans (hlen t), fun t i hi ha => ?_⟩
      rw [hbelow t i (Nat.lt_of_lt_of_le hi (hgrown t)) (by omega)]
      by_cases ht : t = s
      · subst ht
        rw [hwritten, if_pos rfl, getElem?_replaceSlice_of_lt (by omega) (by omega) (by omega)]
      · rw [hwritten.memory_of_ne ht]

/-- Chunks that fit write as one. -/
theorem writeChunks_eq_ok (hd : r.Disjoint p.crossbar) (hlo : r.slaveBase s ≤ addr)
    (hfits : addr + (padded data).length ≤ r.slaveBase s + (p.crossbar.memory s).length) :
    ∃ p', writeChunks r p addr (splitEvery PCIeModel.maxPayloadBytes data) = (p', .ok ()) ∧
      WrittenAt r p.crossbar s addr (padded data) p'.crossbar ∧ SameBars p p' := by
  induction data using splitEvery_induction (n := PCIeModel.maxPayloadBytes) (by decide)
    generalizing p addr with
  | nil =>
    rw [splitEvery_nil (by decide)]
    refine ⟨p, rfl, fun t => ?_, rfl, rfl⟩
    rw [padded_nil, List.length_nil, Nat.cast_zero, Int.add_zero] at hfits ⊢
    rw [replaceSlice_nil (by omega) (by omega)]
    split_ifs with ht
    · rw [ht]
    · rfl
  | part l hne ih =>
    rw [splitEvery_of_ne_nil (by decide) hne]
    have hsplit := padded_split (n := PCIeModel.maxPayloadBytes) (by decide) l
    obtain ⟨hpos, hmax⟩ := take_isChunk hne
    have hchunk := length_padded_pos hpos
    rw [← hsplit, List.length_append] at hfits
    have hmapped : r.Mapped p.crossbar s addr := ⟨hlo, by omega⟩
    have hdecode := decode_eq_ok hd hmapped
    rcases writeChunks_cons r p addr (splitEvery PCIeModel.maxPayloadBytes
        (l.drop PCIeModel.maxPayloadBytes)) hpos hmax with
      ⟨e, p₁, he, -, -⟩ | ⟨s', p₁, hs, hwritten, hbars, hrun⟩
    · cases hdecode.symm.trans he
    · obtain rfl := Except.ok.inj (hdecode.symm.trans hs)
      have hlen := hwritten.length_of_fits hlo (by omega)
      have hlo' : r.slaveBase s ≤ addr + (padded (l.take PCIeModel.maxPayloadBytes)).length := by
        omega
      obtain ⟨p', hrest, hmore, hbars'⟩ := ih (disjoint_congr (fun t => (hlen t).symm) hd) hlo'
        (by rw [hlen]; omega)
      refine ⟨p', hrun.trans hrest, ?_, hbars'.1.trans hbars.1, hbars'.2.trans hbars.2⟩
      rw [← hsplit]
      exact hwritten.append hmore hlo (by rw [List.length_append]; omega)

/-- Chunks that are written without a growing memory fit with their padding, if they fit
without it. -/
theorem padded_fits (hd : r.Disjoint p.crossbar)
    (hok : writeChunks r p addr (splitEvery PCIeModel.maxPayloadBytes data) = (p', .ok ()))
    (hkept : ∀ t, (p'.crossbar.memory t).length = (p.crossbar.memory t).length)
    (hlo : r.slaveBase s ≤ addr)
    (hhi : addr + data.length ≤ r.slaveBase s + (p.crossbar.memory s).length) :
    addr + (padded data).length ≤ r.slaveBase s + (p.crossbar.memory s).length := by
  induction data using splitEvery_induction (n := PCIeModel.maxPayloadBytes) (by decide)
    generalizing p addr with
  | nil => exact hhi
  | part l hne ih =>
    rw [splitEvery_of_ne_nil (by decide) hne] at hok
    obtain ⟨hpos, hmax⟩ := take_isChunk hne
    have hlen := List.length_pos_iff.mpr hne
    have hdecode : r.decode p.crossbar addr = .ok s := decode_eq_ok hd ⟨hlo, by omega⟩
    rcases writeChunks_cons r p addr (splitEvery PCIeModel.maxPayloadBytes
        (l.drop PCIeModel.maxPayloadBytes)) hpos hmax with
      ⟨e, p₁, he, -, -⟩ | ⟨s', p₁, hs, hwritten, -, hrun⟩
    · cases hdecode.symm.trans he
    · obtain rfl := Except.ok.inj (hdecode.symm.trans hs)
      have hrest := hrun.symm.trans hok
      have hgrown := (writeChunks_frame (areChunks_splitEvery _) hrest).1
      -- A memory never shrinks again, so the first chunk has not made it longer.
      have hfits : addr + (padded (l.take PCIeModel.maxPayloadBytes)).length ≤
          r.slaveBase s + (p.crossbar.memory s).length := by
        have hfinal := hgrown s
        rw [hwritten.length hlo (by omega), hkept s] at hfinal
        omega
      have hsame := hwritten.length_of_fits hlo hfits
      have hlo' : r.slaveBase s ≤ addr + (padded (l.take PCIeModel.maxPayloadBytes)).length := by
        omega
      have hrestfits := ih (disjoint_congr (fun t => (hsame t).symm) hd) hrest
        (fun t => (hkept t).trans (hsame t).symm) hlo' (by
          rw [length_padded, lengthDw, List.length_take, PCIeModel.maxPayloadBytes] at hfits ⊢
          rw [hsame, List.length_drop]
          omega)
      rw [hsame] at hrestfits
      rw [← padded_split (n := PCIeModel.maxPayloadBytes) (by decide) l, List.length_append]
      omega

end Chunks

section Refusals

variable {r : Regmap} {p p' : PCIeModel} {x y : CrossbarModel} {s : Slave} {addr : ℤ}
  {chunk data : List UInt8} {chunks : List (List UInt8)}

/-- The memory of an address has some bytes already. -/
def Holds (r : Regmap) (x : CrossbarModel) (addr : ℤ) (bytes : List UInt8) : Prop :=
  ∃ s, r.decode x addr = .ok s ∧
    addr + bytes.length ≤ r.slaveBase s + (x.memory s).length ∧
    sliceList (x.memory s) (addr - r.slaveBase s) (addr - r.slaveBase s + bytes.length) = bytes

/-- Some chunk has an address that is not decoded, and the chunks before it are in the memory
already. -/
def Refused (r : Regmap) (x : CrossbarModel) : ℤ → List (List UInt8) → Prop
  | _, [] => False
  | addr, chunk :: chunks =>
    (∃ e, r.decode x addr = .error e) ∨
      Holds r x addr (padded chunk) ∧ Refused r x (addr + (padded chunk).length) chunks

theorem refused_congr (h : ∀ t, x.memory t = y.memory t) :
    Refused r x addr chunks ↔ Refused r y addr chunks := by
  have hdecode : ∀ a, r.decode x a = r.decode y a := fun a =>
    decode_congr fun t => congrArg List.length (h t)
  induction chunks generalizing addr with
  | nil => exact Iff.rfl
  | cons chunk chunks ih =>
    simp only [Refused, Holds, hdecode, h, ih]

/-- A write of bytes that the memory has changes nothing, and no other write that fits does. -/
theorem writtenAt_kept_iff {bytes : List UInt8} {x' : CrossbarModel}
    (hwritten : WrittenAt r x s addr bytes x') (hlo : r.slaveBase s ≤ addr)
    (hfits : addr + bytes.length ≤ r.slaveBase s + (x.memory s).length) :
    (∀ t, x'.memory t = x.memory t) ↔ sliceList (x.memory s) (addr - r.slaveBase s)
      (addr - r.slaveBase s + bytes.length) = bytes := by
  have hs := hwritten s
  rw [if_pos rfl] at hs
  constructor
  · intro hkept
    rw [← hkept s, hs]
    exact sliceList_replaceSlice (by omega) (by omega)
  · intro hslice t
    by_cases ht : t = s
    · rw [ht, hs]
      exact replaceSlice_sliceList (by omega) (by omega) hslice
    · exact hwritten.memory_of_ne ht

/-- A write of chunks fails without effect exactly when it is refused. -/
theorem writeChunks_refused_iff (r : Regmap) (p : PCIeModel) (addr : ℤ) (hc : AreChunks chunks) :
    (∃ e p', writeChunks r p addr chunks = (p', .error e) ∧
      ∀ t, p'.crossbar.memory t = p.crossbar.memory t) ↔ Refused r p.crossbar addr chunks := by
  induction chunks generalizing p addr with
  | nil =>
    constructor
    · rintro ⟨e, p', h, -⟩
      cases h
    · exact False.elim
  | cons chunk chunks ih =>
    obtain ⟨hpos, hmax⟩ := hc chunk List.mem_cons_self
    have hc' : AreChunks chunks := fun c h => hc c (List.mem_cons_of_mem chunk h)
    rcases writeChunks_cons r p addr chunks hpos hmax with
      ⟨e, p₁, he, hkept, hrun⟩ | ⟨s, p₁, hs, hwritten, -, hrun⟩
    · rw [hrun]
      exact ⟨fun _ => Or.inl ⟨e, he⟩, fun _ => ⟨e, p₁, rfl, fun t => by rw [hkept]⟩⟩
    obtain ⟨hlo, hhi⟩ := mapped_of_decode hs
    rw [hrun]
    constructor
    · rintro ⟨e, p', h, hkept⟩
      obtain ⟨hgrown, hbelow⟩ := writeChunks_frame hc' h
      have hfits : addr + (padded chunk).length ≤
          r.slaveBase s + (p.crossbar.memory s).length := by
        have hfinal := hgrown s
        rw [hwritten.length hlo (by omega), hkept s] at hfinal
        omega
      have hsame := hwritten.length_of_fits hlo hfits
      -- The later chunks go to higher addresses, so the first one has had no effect either.
      have hfirst : ∀ t, p₁.crossbar.memory t = p.crossbar.memory t := by
        intro t
        refine List.ext_getElem? fun i => ?_
        by_cases hi : i < (p.crossbar.memory t).length ∧
            r.slaveBase t + i < addr + (padded chunk).length
        · rw [← hbelow t i (by rw [hsame]; exact hi.1) hi.2, hkept]
        · rw [hwritten.getElem? hlo hfits]
          split_ifs with hin
          · obtain ⟨rfl, hin⟩ := hin
            omega
          · rfl
      refine Or.inr ⟨⟨s, hs, hfits, (writtenAt_kept_iff hwritten hlo hfits).mp hfirst⟩, ?_⟩
      rw [← refused_congr hfirst, ← ih _ _ hc']
      exact ⟨e, p', h, fun t => (hkept t).trans (hfirst t).symm⟩
    · rintro (⟨e, he⟩ | ⟨⟨s', hs', hfits, hslice⟩, hrest⟩)
      · cases hs.symm.trans he
      · obtain rfl := Except.ok.inj (hs.symm.trans hs')
        have hfirst := (writtenAt_kept_iff hwritten hlo hfits).mpr hslice
        rw [← refused_congr hfirst, ← ih _ _ hc'] at hrest
        obtain ⟨e, p', h, hkept⟩ := hrest
        exact ⟨e, p', h, fun t => (hkept t).trans (hfirst t)⟩

end Refusals

section Reads

variable {r : Regmap} {p : PCIeModel} {s : Slave} {curAddr : ℤ} {fuel remaining : ℕ}
  {result : List UInt8}

/-- One packet of a read. -/
theorem readChunks_succ (fuel : ℕ) (result : List UInt8) (hpos : 0 < remaining)
    (hs : r.decode p.crossbar curAddr = .ok s) :
    ∃ p₁, (∀ t, p₁.crossbar.memory t = p.crossbar.memory t) ∧
      readChunks r (fuel + 1) p curAddr remaining result =
        readChunks r fuel p₁
          (curAddr + (lengthDw (min remaining PCIeModel.maxPayloadBytes) * 4 : ℕ))
          (remaining - min remaining PCIeModel.maxPayloadBytes)
          (result ++ sliceList (p.crossbar.memory s) (curAddr - r.slaveBase s)
            (curAddr - r.slaveBase s + (min remaining PCIeModel.maxPayloadBytes : ℕ))) := by
  have hchunk : 0 < min remaining PCIeModel.maxPayloadBytes := by
    rw [PCIeModel.maxPayloadBytes]
    omega
  obtain ⟨p₁, header, hheader, hcrossbar, -⟩ :=
    buildHeader_eq_ok p 0x00 curAddr hchunk (Nat.min_le_right _ _)
  have hsize : 0 < lengthDw (min remaining PCIeModel.maxPayloadBytes) * 4 := by
    rw [lengthDw]
    omega
  obtain ⟨x, hread, hmem⟩ := read_eq_ok (Int.natCast_pos.mpr hsize) hs
  refine ⟨{ p₁ with lastRxHeaders := p₁.lastRxHeaders ++ [header], crossbar := x }, hmem, ?_⟩
  rw [readChunks, if_neg (by omega)]
  dsimp only
  rw [PCIeModel.buildMemrdHeader, hheader]
  dsimp only
  rw [hcrossbar, hread]
  dsimp only
  rw [take_sliceList (by have hlo := (mapped_of_decode hs).1; omega) (by rw [lengthDw]; omega)]

theorem readChunks_zero : readChunks r fuel p curAddr 0 result = (p, .ok result) := by
  cases fuel with
  | zero => rfl
  | succ fuel => rw [readChunks, if_pos rfl]

/-- The packets of a read join to the slice of the memory. -/
theorem readChunks_eq_ok (result : List UInt8) (hd : r.Disjoint p.crossbar)
    (hlo : r.slaveBase s ≤ curAddr)
    (hhi : curAddr + remaining ≤ r.slaveBase s + (p.crossbar.memory s).length)
    (hfuel : remaining ≤ fuel) :
    ∃ p', readChunks r fuel p curAddr remaining result =
      (p', .ok (result ++ sliceList (p.crossbar.memory s) (curAddr - r.slaveBase s)
        (curAddr - r.slaveBase s + remaining))) := by
  induction fuel generalizing p curAddr remaining result with
  | zero =>
    obtain rfl : remaining = 0 := by omega
    refine ⟨p, ?_⟩
    rw [readChunks_zero, sliceList, Nat.cast_zero, Int.add_zero, Nat.sub_self, List.take_zero,
      List.append_nil]
  | succ fuel ih =>
    by_cases hzero : remaining = 0
    · refine ⟨p, ?_⟩
      rw [hzero, readChunks_zero, sliceList, Nat.cast_zero, Int.add_zero, Nat.sub_self,
        List.take_zero, List.append_nil]
    have hs : r.decode p.crossbar curAddr = .ok s := decode_eq_ok hd ⟨hlo, by omega⟩
    obtain ⟨p₁, hmem, hrun⟩ := readChunks_succ fuel result (Nat.pos_of_ne_zero hzero) hs
    rw [hrun]
    rcases Nat.lt_or_ge PCIeModel.maxPayloadBytes remaining with hmore | hlast
    · rw [Nat.min_eq_right (by omega)]
      have hdw : lengthDw PCIeModel.maxPayloadBytes * 4 = PCIeModel.maxPayloadBytes := by decide
      have hlo' : r.slaveBase s ≤ curAddr + (PCIeModel.maxPayloadBytes : ℕ) := by omega
      have hhi' : curAddr + (PCIeModel.maxPayloadBytes : ℕ) +
          (remaining - PCIeModel.maxPayloadBytes : ℕ) ≤
            r.slaveBase s + (p₁.crossbar.memory s).length := by
        rw [hmem]
        omega
      have hfuel' : remaining - PCIeModel.maxPayloadBytes ≤ fuel := by
        rw [PCIeModel.maxPayloadBytes]
        omega
      obtain ⟨p', h⟩ := ih _ (disjoint_congr (fun t => by rw [hmem]) hd) hlo' hhi' hfuel'
      refine ⟨p', ?_⟩
      rw [hdw, h, hmem, List.append_assoc,
        show curAddr + (PCIeModel.maxPayloadBytes : ℤ) - r.slaveBase s =
          curAddr - r.slaveBase s + PCIeModel.maxPayloadBytes by omega,
        sliceList_append (by omega) (by omega) (by omega) (by omega)]
      congr 4
      omega
    · rw [Nat.min_eq_left hlast, Nat.sub_self, readChunks_zero]
      exact ⟨p₁, rfl⟩

end Reads

section Frame

/-- A write has changed the bytes of its range in the memory of its address, to its payload, and
nothing else. -/
structure WritesExactly (r : Regmap) (x x' : CrossbarModel) (addr : ℤ) (data : List UInt8) :
    Prop where
  lengths : ∀ t, (x'.memory t).length = (x.memory t).length
  target : data ≠ [] → ∃ s, r.decode x addr = .ok s
  written : ∀ s, r.decode x addr = .ok s → ∀ k, k < data.length →
    (x'.memory s)[(addr - r.slaveBase s).toNat + k]? = data[k]?
  kept : ∀ t (i : ℕ), ¬ (r.decode x addr = .ok t ∧ addr ≤ r.slaveBase t + i ∧
    r.slaveBase t + i < addr + data.length) → (x'.memory t)[i]? = (x.memory t)[i]?

/-- A write is refused without effect, or it changes exactly its range and is read back. -/
def FrameAndRoundTrip (r : Regmap) (p : PCIeModel) (addr : ℤ) (data : List UInt8) : Prop :=
  (∃ e, (p.tlpWrite r addr data).2 = .error e) ∧
      (∀ t, (p.tlpWrite r addr data).1.crossbar.memory t = p.crossbar.memory t) ∨
    (p.tlpWrite r addr data).2 = .ok () ∧
      WritesExactly r p.crossbar (p.tlpWrite r addr data).1.crossbar addr data ∧
      ((p.tlpWrite r addr data).1.tlpRead r addr data.length).2 = .ok data

/-- A padded payload fits into the memory of its address, which has zeros in the place of the
padding. -/
def PadsZeros (r : Regmap) (x : CrossbarModel) (addr : ℤ) (data : List UInt8) : Prop :=
  ∃ s, r.decode x addr = .ok s ∧
    addr + (padded data).length ≤ r.slaveBase s + (x.memory s).length ∧
    ∀ k, data.length ≤ k → k < (padded data).length →
      (x.memory s)[(addr - r.slaveBase s).toNat + k]? = some 0

/-- A write that is refused without effect, or whose padding changes nothing. -/
def CleanWrite (r : Regmap) (p : PCIeModel) (addr : ℤ) (data : List UInt8) : Prop :=
  (∃ e, p.resolveBar addr = .error e) ∨ data = [] ∨
    Refused r p.crossbar addr (splitEvery PCIeModel.maxPayloadBytes data) ∨
    PadsZeros r p.crossbar addr data

variable {r : Regmap} {p p' : PCIeModel} {x x' : CrossbarModel} {s : Slave} {addr : ℤ}
  {data : List UInt8}

/-- A range that was written lies inside its memory. -/
theorem WritesExactly.fits (h : WritesExactly r x x' addr data) (hne : data ≠ [])
    (hs : r.decode x addr = .ok s) :
    addr + data.length ≤ r.slaveBase s + (x.memory s).length := by
  have hlen := List.length_pos_iff.mpr hne
  have hlo := (mapped_of_decode hs).1
  have hlast := h.written s hs (data.length - 1) (by omega)
  rw [List.getElem?_eq_getElem (show data.length - 1 < data.length by omega)] at hlast
  obtain ⟨hbound, -⟩ := List.getElem?_eq_some_iff.mp hlast
  rw [h.lengths] at hbound
  omega

/-- A padded payload that is written changes exactly its range when the padding finds zeros. -/
theorem writesExactly_iff (hwritten : WrittenAt r x s addr (padded data) x')
    (hs : r.decode x addr = .ok s)
    (hfits : addr + (padded data).length ≤ r.slaveBase s + (x.memory s).length) :
    WritesExactly r x x' addr data ↔ ∀ k, data.length ≤ k → k < (padded data).length →
      (x.memory s)[(addr - r.slaveBase s).toNat + k]? = some 0 := by
  have hlo := (mapped_of_decode hs).1
  have hle := length_le_padded data
  -- What stands at an offset of the range after the write.
  have hat : ∀ k, k < (padded data).length →
      (x'.memory s)[(addr - r.slaveBase s).toNat + k]? = (padded data)[k]? := by
    intro k hk
    rw [hwritten.getElem? hlo hfits, if_pos ⟨rfl, by omega, by omega⟩]
    congr 1
    omega
  constructor
  · intro h k hk hk'
    have hkept := h.kept s ((addr - r.slaveBase s).toNat + k) fun hin => by omega
    rw [← hkept, hat k hk', getElem?_padded, if_neg (by omega), if_pos hk']
  · intro hzeros
    refine ⟨hwritten.length_of_fits hlo hfits, fun _ => ⟨s, hs⟩, fun s' hs' k hk => ?_,
      fun t i hout => ?_⟩
    · obtain rfl := Except.ok.inj (hs.symm.trans hs')
      rw [hat k (by omega), getElem?_padded, if_pos hk]
    · rw [hwritten.getElem? hlo hfits]
      split_ifs with hin
      · obtain ⟨rfl, hge, hlt⟩ := hin
        have hk : data.length ≤ (r.slaveBase t + i - addr).toNat := by
          by_contra hk
          exact hout ⟨hs, hge, by omega⟩
        rw [getElem?_padded, if_neg (by omega), if_pos (by omega), ← hzeros _ hk (by omega)]
        congr 1
        omega
      · rfl

/-- A range that was written is read back. -/
theorem tlpRead_eq_ok (hd : r.Disjoint p.crossbar) (hne : data ≠ []) {m : List UInt8 × ℤ}
    (hbar : p.resolveBar addr = .ok m) (hlo : r.slaveBase s ≤ addr)
    (hhi : addr + data.length ≤ r.slaveBase s + (p.crossbar.memory s).length)
    (hdata : ∀ k, k < data.length →
      (p.crossbar.memory s)[(addr - r.slaveBase s).toNat + k]? = data[k]?) :
    (p.tlpRead r addr data.length).2 = .ok data := by
  have hlen := List.length_pos_iff.mpr hne
  obtain ⟨p', hread⟩ := readChunks_eq_ok (p := { p with lastRxHeaders := [] }) [] hd hlo hhi
    (Nat.le_refl _)
  rw [PCIeModel.tlpRead, if_neg (by omega), if_neg (by omega), hbar]
  dsimp only
  rw [Int.toNat_natCast, hread, List.nil_append]
  dsimp only
  congr 1
  refine List.ext_getElem? fun k => ?_
  rw [getElem?_sliceList (by omega)]
  split_ifs with hk
  · exact hdata k hk
  · exact (List.getElem?_eq_none (by omega)).symm

/-- The bars resolve an address after a write as before. -/
theorem resolveBar_congr (hbars : SameBars p p')
    (hlen : ∀ t, (p'.crossbar.memory t).length = (p.crossbar.memory t).length)
    {m : List UInt8 × ℤ} (h : p.resolveBar addr = .ok m) :
    ∃ m', p'.resolveBar addr = .ok m' := by
  have hsram : p'.crossbar.sram.length = p.crossbar.sram.length := hlen .sram
  have hdram : p'.crossbar.dram.length = p.crossbar.dram.length := hlen .dram
  rw [PCIeModel.resolveBar] at h ⊢
  rw [hbars.1, hbars.2, hsram, hdram]
  split_ifs at h ⊢ with h0 h1
  · exact ⟨_, rfl⟩
  · exact ⟨_, rfl⟩

/-- A write of the host keeps to its frame and is read back exactly when it is refused without
effect or its padding changes nothing. -/
theorem tlpWrite_frame_iff (hd : r.Disjoint p.crossbar) :
    FrameAndRoundTrip r p addr data ↔ CleanWrite r p addr data := by
  cases hbar : p.resolveBar addr with
  | error e =>
    have hrun : p.tlpWrite r addr data = (p, .error e) := by
      rw [PCIeModel.tlpWrite, hbar]
    have hframe : FrameAndRoundTrip r p addr data := by
      left
      rw [hrun]
      exact ⟨⟨e, rfl⟩, fun _ => rfl⟩
    exact iff_of_true hframe (Or.inl ⟨e, hbar⟩)
  | ok m =>
    have hrun : p.tlpWrite r addr data = writeChunks r { p with lastTxHeaders := [] } addr
        (splitEvery PCIeModel.maxPayloadBytes data) := by
      rw [PCIeModel.tlpWrite, hbar]
    have hrefused := writeChunks_refused_iff r { p with lastTxHeaders := [] } addr
      (areChunks_splitEvery data)
    rw [FrameAndRoundTrip, hrun]
    constructor
    · rintro (⟨⟨e, he⟩, hkept⟩ | ⟨hok, hexact, -⟩)
      · exact Or.inr (Or.inr (Or.inl (hrefused.mp ⟨e, _, Prod.ext rfl he, hkept⟩)))
      · by_cases hne : data = []
        · exact Or.inr (Or.inl hne)
        obtain ⟨s, hs⟩ := hexact.target hne
        have hlo := (mapped_of_decode hs).1
        have hfits := padded_fits (p := { p with lastTxHeaders := [] }) hd (Prod.ext rfl hok)
          hexact.lengths hlo (hexact.fits hne hs)
        obtain ⟨p', hchunks, hwritten, -⟩ :=
          writeChunks_eq_ok (p := { p with lastTxHeaders := [] }) hd hlo hfits
        rw [hchunks] at hexact
        exact Or.inr (Or.inr (Or.inr ⟨s, hs, hfits,
          (writesExactly_iff hwritten hs hfits).mp hexact⟩))
    · rintro (⟨e, he⟩ | hnil | hstop | ⟨s, hs, hfits, hzeros⟩)
      · cases hbar.symm.trans he
      · right
        rw [hnil, splitEvery_nil (by decide)]
        refine ⟨rfl, ⟨fun _ => rfl, fun h => absurd rfl h, fun _ _ k hk => ?_,
          fun _ _ _ => rfl⟩, rfl⟩
        exact absurd hk (Nat.not_lt_zero k)
      · obtain ⟨e, p', hchunks, hkept⟩ := hrefused.mpr hstop
        left
        rw [hchunks]
        exact ⟨⟨e, rfl⟩, hkept⟩
      · have hlo := (mapped_of_decode hs).1
        obtain ⟨p', hchunks, hwritten, hbars⟩ :=
          writeChunks_eq_ok (p := { p with lastTxHeaders := [] }) hd hlo hfits
        have hexact := (writesExactly_iff hwritten hs hfits).mpr hzeros
        right
        rw [hchunks]
        refine ⟨rfl, hexact, ?_⟩
        by_cases hne : data = []
        · rw [hne]
          rfl
        obtain ⟨m', hbar'⟩ := resolveBar_congr (p := p) hbars hexact.lengths hbar
        have hhi := hexact.fits hne hs
        rw [← hexact.lengths s] at hhi
        exact tlpRead_eq_ok (disjoint_congr (fun t => (hexact.lengths t).symm) hd) hne hbar' hlo
          hhi (hexact.written s hs)

/-- A register map. -/
def sampleRegmap : Regmap := ⟨0x20000000, 0x80000000⟩

/-- An endpoint with two small memories. -/
def sampleEndpoint : PCIeModel :=
  .new (.new [1, 2, 3, 4, 5, 6, 7, 8] [0, 0, 0, 0]) 0x20000000 0x80000000

theorem sampleEndpoint_disjoint : sampleRegmap.Disjoint sampleEndpoint.crossbar := by
  intro s t addr hs ht
  have hsram : ∀ a, sampleRegmap.Mapped sampleEndpoint.crossbar .sram a →
      a < 0x20000000 + 8 := fun a h => h.2
  have hdram : ∀ a, sampleRegmap.Mapped sampleEndpoint.crossbar .dram a →
      0x80000000 ≤ a := fun a h => h.1
  cases s with
  | sram =>
    cases t with
    | sram => rfl
    | dram =>
      have hlt := hsram addr hs
      have hge := hdram addr ht
      omega
  | dram =>
    cases t with
    | sram =>
      have hlt := hsram addr ht
      have hge := hdram addr hs
      omega
    | dram => rfl

/-- The condition of the frame at a sample endpoint. -/
theorem sample_tlpWrite_frame_iff : sampleRegmap.Disjoint sampleEndpoint.crossbar ∧
    (FrameAndRoundTrip sampleRegmap sampleEndpoint 0x20000000 [9, 9, 9, 9] ↔
      CleanWrite sampleRegmap sampleEndpoint 0x20000000 [9, 9, 9, 9]) :=
  ⟨sampleEndpoint_disjoint, tlpWrite_frame_iff sampleEndpoint_disjoint⟩

/-- The padding of a single byte overwrites the byte after it. -/
theorem tlpWrite_not_frame : ¬ ∀ (r : Regmap) (p : PCIeModel) (addr : ℤ) (data : List UInt8),
    r.Disjoint p.crossbar → FrameAndRoundTrip r p addr data := by
  intro h
  rcases h sampleRegmap sampleEndpoint 0x20000000 [9] sampleEndpoint_disjoint with
    ⟨⟨e, he⟩, -⟩ | ⟨-, hexact, -⟩
  · have hok : (sampleEndpoint.tlpWrite sampleRegmap 0x20000000 [9]).2.toOption = some () := by
      decide +kernel
    rw [he] at hok
    cases hok
  · have hpad : ((sampleEndpoint.tlpWrite sampleRegmap 0x20000000 [9]).1.crossbar.memory
        .sram)[1]? = some 0 := by
      decide +kernel
    have hkept := hexact.kept .sram 1 (by decide)
    rw [hpad] at hkept
    exact absurd hkept (by decide)

end Frame

end Pcie

end NpuArc
