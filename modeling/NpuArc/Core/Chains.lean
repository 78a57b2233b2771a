import NpuArc.Core.Executor

/-!
# Descriptor chains

A chain that is built for a load of weights covers the source and the target range in order,
and it copies them as one load does. A run of a chain ends only at a descriptor with its last
flag or at a store that does not fit: behind the end of the main memory every word is zero,
which is a valid descriptor without the flag.
-/

namespace NpuArc

namespace Core

/-! ### Chains that are built -/

/-- The addresses of a range. -/
def addresses (base size : ℤ) : List ℤ := (List.range size.toNat).map fun i : ℕ => base + i

theorem addresses_append {base size size' : ℤ} (h : 0 ≤ size) (h' : 0 ≤ size') :
    addresses base size ++ addresses (base + size) size' = addresses base (size + size') := by
  rw [addresses, addresses, addresses, Int.toNat_add h h', List.range_add, List.map_append,
    List.map_map]
  congr 1
  refine List.map_congr_left fun i _ => ?_
  dsimp only [Function.comp]
  omega

/-- The addresses that a descriptor reads in a load. -/
def DMADescriptor.source (d : DMADescriptor) : List ℤ := addresses d.dramAddr d.actualSize

/-- The addresses that a descriptor writes in a load. -/
def DMADescriptor.target (d : DMADescriptor) : List ℤ := addresses d.sramAddr d.actualSize

/-- The descriptors of a transfer of some bytes at an offset. -/
inductive WeightChain (sramBase dramBase : ℤ) : ℤ → ℤ → List DMADescriptor → Prop
  | last {offset : ℤ} {d : DMADescriptor} (sram : d.sramAddr = sramBase + offset)
      (dram : d.dramAddr = dramBase + offset) (flag : d.last = true) :
      WeightChain sramBase dramBase offset d.actualSize [d]
  | cons {offset remaining : ℤ} {d : DMADescriptor} {rest : List DMADescriptor}
      (sram : d.sramAddr = sramBase + offset) (dram : d.dramAddr = dramBase + offset)
      (flag : d.last = false)
      (next : WeightChain sramBase dramBase (offset + d.actualSize) remaining rest) :
      WeightChain sramBase dramBase offset (d.actualSize + remaining) (d :: rest)

section Build

variable {sramBase dramBase chunkSize : ℤ}

/-- Without a chunk size the loop makes no progress. -/
theorem chainFrom_zero {fuel : ℕ} {offset remaining : ℤ} {chain : List DMADescriptor}
    (hpos : 0 < remaining) : chainFrom sramBase dramBase 0 fuel offset remaining ≠ some (.ok chain) := by
  induction fuel generalizing offset chain with
  | zero => simp [chainFrom, hpos]
  | succ fuel ih =>
    intro h
    rw [chainFrom, if_pos hpos] at h
    dsimp only at h
    split at h
    · cases h
    · rw [min_eq_left (by omega), sub_zero, Option.map_eq_some_iff] at h
      obtain ⟨r, hr, hmap⟩ := h
      cases r with
      | error e => cases hmap
      | ok rest => exact ih hr

/-- The loop that succeeds builds the descriptors of what remains. -/
theorem weightChain_of_chainFrom {fuel : ℕ} {offset remaining : ℤ} {chain : List DMADescriptor}
    (hpos : 0 < remaining)
    (h : chainFrom sramBase dramBase chunkSize fuel offset remaining = some (.ok chain)) :
    WeightChain sramBase dramBase offset remaining chain := by
  have hchunk : chunkSize ≠ 0 := fun hzero => chainFrom_zero hpos (hzero ▸ h)
  induction fuel generalizing offset remaining chain with
  | zero => simp [chainFrom, hpos] at h
  | succ fuel ih =>
    rw [chainFrom, if_pos hpos] at h
    dsimp only at h
    split at h
    · cases h
    · rename_i d hd
      rw [Option.map_eq_some_iff] at h
      obtain ⟨r, hr, hmap⟩ := h
      cases r with
      | error e => cases hmap
      | ok rest =>
        cases hmap
        have hfields := DescriptorFields.validate_eq_ok.mp hd
        have hrange := d.inRange.size
        have hsize : d.size = min chunkSize remaining := by rw [hfields]
        have hactual : d.actualSize = min chunkSize remaining := by
          rw [DescriptorFields.actualSize, if_neg (by omega), hsize]
        have hsram : d.sramAddr = sramBase + offset := by rw [hfields]
        have hdram : d.dramAddr = dramBase + offset := by rw [hfields]
        have hflag : d.last = decide (remaining ≤ chunkSize) := by rw [hfields]
        rw [← hactual] at hr
        rcases le_or_gt remaining chunkSize with hle | hlt
        · -- The last chunk takes all the bytes that remain.
          have hall : d.actualSize = remaining := by omega
          rw [hall, sub_self] at hr
          have hnil : rest = [] := by
            cases fuel <;> cases hr <;> rfl
          rw [hnil, ← hall]
          exact .last hsram hdram (by rw [hflag]; exact decide_eq_true hle)
        · have hnext := ih (by omega) hr
          have hcons := WeightChain.cons hsram hdram
            (by rw [hflag]; exact decide_eq_false (by omega)) hnext
          rwa [add_sub_cancel] at hcons

end Build

namespace WeightChain

variable {sramBase dramBase offset remaining : ℤ} {chain : List DMADescriptor}

theorem pos (h : WeightChain sramBase dramBase offset remaining chain) : 0 < remaining := by
  induction h with
  | @last _ d _ _ _ => exact d.actualSize_pos.1
  | @cons _ _ d _ _ _ _ _ ih =>
    have hd := d.actualSize_pos
    omega

/-- The descriptors read the source range in order, each address once. -/
theorem source_eq (h : WeightChain sramBase dramBase offset remaining chain) :
    chain.flatMap DMADescriptor.source = addresses (dramBase + offset) remaining := by
  induction h with
  | last _ dram _ => rw [List.flatMap_cons, List.flatMap_nil, List.append_nil, DMADescriptor.source, dram]
  | @cons _ _ d _ _ dram _ next ih =>
    rw [List.flatMap_cons, ih, DMADescriptor.source, dram, ← add_assoc,
      addresses_append d.actualSize_pos.1.le next.pos.le]

/-- The descriptors write the target range in order, each address once. -/
theorem target_eq (h : WeightChain sramBase dramBase offset remaining chain) :
    chain.flatMap DMADescriptor.target = addresses (sramBase + offset) remaining := by
  induction h with
  | last sram _ _ => rw [List.flatMap_cons, List.flatMap_nil, List.append_nil, DMADescriptor.target, sram]
  | @cons _ _ d _ sram _ _ next ih =>
    rw [List.flatMap_cons, ih, DMADescriptor.target, sram, ← add_assoc,
      addresses_append d.actualSize_pos.1.le next.pos.le]

/-- Only the final descriptor has the last flag. -/
theorem exists_last (h : WeightChain sramBase dramBase offset remaining chain) :
    ∃ front d, chain = front ++ [d] ∧ d.last = true ∧ ∀ d' ∈ front, d'.last = false := by
  induction h with
  | @last _ d _ _ flag => exact ⟨[], d, rfl, flag, by simp⟩
  | @cons _ _ d _ _ _ flag _ ih =>
    obtain ⟨front, d', rfl, hlast, hfront⟩ := ih
    exact ⟨d :: front, d', rfl, hlast, List.forall_mem_cons.mpr ⟨flag, hfront⟩⟩

/-- The target range begins in the range of the address field. -/
theorem sram_range (h : WeightChain sramBase dramBase offset remaining chain) :
    0 ≤ sramBase + offset ∧ sramBase + offset + remaining ≤ 0x11000 := by
  induction h with
  | @last _ d sram _ _ =>
    have hd := d.actualSize_pos
    have hrange := d.inRange.sramAddr
    omega
  | @cons _ _ d _ sram _ _ _ ih =>
    have hrange := d.inRange.sramAddr
    omega

theorem dram_nonneg (h : WeightChain sramBase dramBase offset remaining chain) :
    0 ≤ dramBase + offset := by
  cases h with
  | @last _ d _ dram _ =>
    have hrange := d.inRange.dramAddr
    omega
  | @cons _ _ d _ _ dram _ _ =>
    have hrange := d.inRange.dramAddr
    omega

end WeightChain

/-! ### Chains that are executed -/

/-- What a load leaves. -/
def Memory.loaded (mem : Memory) (sramAddr dramAddr size : ℤ) : Memory :=
  { mem with
    sram := mem.sram.overwrite sramAddr.toNat (mem.dram.slice dramAddr (dramAddr + size)) }

/-- Two loads of ranges that follow each other are one load. -/
theorem Memory.loaded_loaded {mem : Memory} {base base' offset size size' : ℤ}
    (hdram : 0 ≤ base' + offset) (hsram : 0 ≤ base + offset) (hsize : 0 ≤ size)
    (hsize' : 0 ≤ size') : (mem.loaded (base + offset) (base' + offset) size).loaded
      (base + (offset + size)) (base' + (offset + size)) size' =
        mem.loaded (base + offset) (base' + offset) (size + size') := by
  unfold loaded
  dsimp only
  rw [← add_assoc, ← add_assoc, ← add_assoc, FixedArray.overwrite_slices mem.sram mem.dram hdram hsize
    (by omega) hsram]

/-- A load of a descriptor never fails. -/
theorem executeLoad_eq_ok (mem : Memory) (d : DMADescriptor) :
    executeLoad mem d = .ok (mem.loaded d.sramAddr d.dramAddr d.actualSize) := by
  have hsram := d.inRange.sramAddr
  have hdram := d.inRange.dramAddr
  have hsize := d.actualSize_pos
  have hlen := mem.dram.length_slice_le hdram.1 hsize.1.le
  rw [executeLoad, SRAM.writeBytes_eq_ok hsram.1 (by unfold sramSize; omega)]
  rfl

/-- The encoded words of a chain. -/
def encodeChain (chain : List DMADescriptor) : List UInt8 :=
  chain.flatMap fun d => toBytes 8 d.encode

theorem length_encodeChain (chain : List DMADescriptor) :
    (encodeChain chain).length = 8 * chain.length := by
  induction chain with
  | nil => rfl
  | cons d chain ih =>
    rw [encodeChain, List.flatMap_cons, List.length_append, length_toBytes, List.length_cons]
    rw [encodeChain] at ih
    omega

theorem take_drop_encodeChain {chain : List DMADescriptor} {k : ℕ} {d : DMADescriptor}
    (h : chain[k]? = some d) : ((encodeChain chain).drop (8 * k)).take 8 = toBytes 8 d.encode := by
  induction chain generalizing k with
  | nil => cases h
  | cons d' chain ih =>
    rw [encodeChain, List.flatMap_cons]
    cases k with
    | zero =>
      cases h
      rw [mul_zero, List.drop_zero, List.take_append_of_le_length (length_toBytes 8 _).ge,
        List.take_of_length_le (length_toBytes 8 _).le]
    | succ k =>
      rw [mul_add, mul_one, add_comm, ← List.drop_drop,
        List.drop_append_of_le_length (length_toBytes 8 _).ge,
        List.drop_of_length_le (length_toBytes 8 _).le, List.nil_append]
      exact ih h

/-- A chain lies in the main memory from an address on. -/
def ChainAt (dram : DRAM) (addr : ℤ) (chain : List DMADescriptor) : Prop :=
  ∀ (k : ℕ) (d : DMADescriptor), chain[k]? = some d →
    dram.slice (addr + 8 * k) (addr + 8 * k + 8) = toBytes 8 d.encode

theorem chainAt_cons {dram : DRAM} {addr : ℤ} {d : DMADescriptor} {chain : List DMADescriptor}
    (h : ChainAt dram addr (d :: chain)) :
    wordAt dram addr = d.encode ∧ ChainAt dram (addr + 8) chain := by
  constructor
  · have hslice := h 0 d rfl
    rw [Nat.cast_zero, mul_zero, add_zero] at hslice
    rw [wordAt, hslice, ofBytes_toBytes d.encode_lt]
  · intro k d' hk
    have hslice := h (k + 1) d' hk
    rw [Nat.cast_add, Nat.cast_one, mul_add, mul_one, add_comm (8 * (k : ℤ)), ← add_assoc] at hslice
    exact hslice

/-- A chain that is written inside the main memory lies there. -/
theorem chainAt_overwrite (dram : DRAM) {addr : ℤ} {chain : List DMADescriptor} (haddr : 0 ≤ addr)
    (hend : addr + 8 * chain.length ≤ dramSize) :
    ChainAt (dram.overwrite addr.toNat (encodeChain chain)) addr chain := by
  intro k d hk
  have hlt := (List.getElem?_eq_some_iff.mp hk).1
  have hlen := length_encodeChain chain
  have hslice := dram.slice_overwrite
    (show addr.toNat + (encodeChain chain).length ≤ dramSize by omega)
    (show 8 * k + 8 ≤ (encodeChain chain).length by omega)
  have hcast : ((addr.toNat + 8 * k : ℕ) : ℤ) = addr + 8 * k := by omega
  rw [hcast] at hslice
  exact hslice.trans (take_drop_encodeChain hk)

section Run

variable (u : Units) {sramBase dramBase offset remaining : ℤ} {chain : List DMADescriptor}

/-- A chain copies its source range to its target range. -/
theorem WeightChain.run (h : WeightChain sramBase dramBase offset remaining chain) {mem : Memory}
    {addr : ℤ} (hat : ChainAt mem.dram addr chain) (cycles : ℤ) :
    ∃ cycles', runDescriptors u executeLoad chain.length addr mem cycles =
      some (.ok (mem.loaded (sramBase + offset) (dramBase + offset) remaining, cycles')) := by
  induction h generalizing mem addr cycles with
  | @last offset d sram dram flag =>
    obtain ⟨hword, -⟩ := chainAt_cons hat
    obtain ⟨d', hdecode, hdram, hsram, hsize, -, hlast, -⟩ := d.decode_encode
    refine ⟨cycles + u.estimateTransfer d'.actualSize, ?_⟩
    rw [List.length_singleton, runDescriptors, hword, hdecode]
    dsimp only
    rw [executeLoad_eq_ok]
    dsimp only
    rw [if_pos (hlast.trans flag), hdram, hsram, hsize, dram, sram]
  | @cons offset remaining d rest sram dram flag next ih =>
    obtain ⟨hword, hrest⟩ := chainAt_cons hat
    obtain ⟨d', hdecode, hdram, hsram, hsize, -, hlast, -⟩ := d.decode_encode
    have hat' : ChainAt (mem.loaded d'.sramAddr d'.dramAddr d'.actualSize).dram _ _ := hrest
    obtain ⟨cycles', hrun⟩ := ih hat' (cycles + u.estimateTransfer d'.actualSize)
    refine ⟨cycles', ?_⟩
    rw [List.length_cons, runDescriptors, hword, hdecode]
    dsimp only
    rw [executeLoad_eq_ok]
    dsimp only
    rw [hlast, flag, if_neg Bool.false_ne_true, hrun, hdram, hsram, hsize, dram, sram,
      Memory.loaded_loaded]
    · exact dram ▸ d.inRange.dramAddr.1
    · exact sram ▸ d.inRange.sramAddr.1
    · exact d.actualSize_pos.1.le
    · exact next.pos.le

end Run

/-- The instruction that loads along a chain. -/
def loadChain (descAddr : ℤ) : NPUInstruction :=
  { opcode := .dmaLdd, operands := .ofList [("sa", descAddr)] }

/-- The instruction that stores along a chain. -/
def storeChain (descAddr : ℤ) : NPUInstruction :=
  { opcode := .dmaStd, operands := .ofList [("sa", descAddr)] }

/-- The instruction that loads a range. -/
def loadRange (dramAddr sramAddr size : ℤ) : NPUInstruction :=
  { opcode := .dmaLd, operands := .ofList [("dram", dramAddr), ("sram", sramAddr), ("size", size)] }

theorem execute_loadChain (u : Units) (fuel : ℕ) (descAddr : ℤ) (mem : Memory) :
    execute u fuel (loadChain descAddr) mem = runDescriptors u executeLoad fuel descAddr mem 0 := rfl

theorem execute_storeChain (u : Units) (fuel : ℕ) (descAddr : ℤ) (mem : Memory) :
    execute u fuel (storeChain descAddr) mem =
      runDescriptors u executeStore fuel descAddr mem 0 := rfl

/-- A load of a range into the on-chip memory succeeds. -/
theorem execute_loadRange (u : Units) (fuel : ℕ) {dramAddr sramAddr size : ℤ} (mem : Memory)
    (hdram : 0 ≤ dramAddr) (hsram : 0 ≤ sramAddr) (hsize : 0 ≤ size)
    (hend : sramAddr + size ≤ sramSize) : execute u fuel (loadRange dramAddr sramAddr size) mem =
      some (.ok (mem.loaded sramAddr dramAddr size, u.estimateTransfer size)) := by
  have hlen := mem.dram.length_slice_le hdram hsize
  have hwrite : mem.sram.writeBytes sramAddr (mem.dram.slice dramAddr (dramAddr + size)) =
      .ok (mem.sram.overwrite sramAddr.toNat (mem.dram.slice dramAddr (dramAddr + size))) :=
    SRAM.writeBytes_eq_ok hsram (by omega)
  change some (Except.mapError _ (mem.sram.writeBytes sramAddr
    (mem.dram.slice dramAddr (dramAddr + size)) >>= _)) = _
  rw [hwrite]
  rfl

/-- A chain that is built for at least one byte covers both ranges in order, each address once,
only its final descriptor has the last flag, and executing it leaves the on-chip memory that
one load of the whole range leaves. -/
theorem weight_chain_copies (u : Units) {buildFuel : ℕ}
    {sramBase dramBase totalBytes chunkSize : ℤ} {chain : List DMADescriptor}
    (hbuild : buildWeightLoadChain buildFuel sramBase dramBase totalBytes chunkSize =
      some (.ok chain)) (htotal : 0 < totalBytes) :
    chain.flatMap DMADescriptor.source = addresses dramBase totalBytes ∧
      chain.flatMap DMADescriptor.target = addresses sramBase totalBytes ∧
      (∃ front d, chain = front ++ [d] ∧ d.last = true ∧ ∀ d' ∈ front, d'.last = false) ∧
      ∀ (g : GoldenExecutor) (descAddr : ℤ), ChainAt g.dram descAddr chain →
        ∃ fuel g₁ g₂, g.step u fuel (loadChain descAddr) = some (.ok g₁) ∧
          g.step u fuel (loadRange dramBase sramBase totalBytes) = some (.ok g₂) ∧
          g₁.sram = g₂.sram := by
  have hchain := weightChain_of_chainFrom htotal hbuild
  have hsource := hchain.source_eq
  have htarget := hchain.target_eq
  have hrange := hchain.sram_range
  have hdram := hchain.dram_nonneg
  rw [add_zero] at hsource htarget hrange hdram
  refine ⟨hsource, htarget, hchain.exists_last, fun g descAddr hat => ?_⟩
  obtain ⟨cycles, hrun⟩ := hchain.run u hat 0
  have hrange' := execute_loadRange u chain.length g.toMemory hdram hrange.1 htotal.le
    (by unfold sramSize; omega)
  rw [add_zero, add_zero, ← execute_loadChain] at hrun
  exact ⟨chain.length, _, _, GoldenExecutor.step_eq_ok hrun, GoldenExecutor.step_eq_ok hrange', rfl⟩

/-- Ten bytes are copied in three chunks. -/
theorem weight_chain_copies_ten : ∃ chain,
    buildWeightLoadChain 3 0x100 0x2000 10 4 = some (.ok chain) ∧
      chain.flatMap DMADescriptor.source = addresses 0x2000 10 ∧
      ∃ fuel g₁ g₂,
        ({ GoldenExecutor.init with dram := GoldenExecutor.init.dram.overwrite 0 (encodeChain chain) } :
          GoldenExecutor).step exampleUnits fuel (loadChain 0) = some (.ok g₁) ∧
        ({ GoldenExecutor.init with dram := GoldenExecutor.init.dram.overwrite 0 (encodeChain chain) } :
          GoldenExecutor).step exampleUnits fuel (loadRange 0x2000 0x100 10) = some (.ok g₂) ∧
        g₁.sram = g₂.sram := by
  obtain ⟨chain, hbuild, hlen⟩ : ∃ chain,
      buildWeightLoadChain 3 0x100 0x2000 10 4 = some (.ok chain) ∧ chain.length = 3 :=
    ⟨_, rfl, rfl⟩
  obtain ⟨hsource, -, -, hrun⟩ := weight_chain_copies exampleUnits hbuild (by decide)
  exact ⟨chain, hbuild, hsource, hrun _ 0 (chainAt_overwrite _ le_rfl (by rw [hlen]; decide))⟩

/-! ### Runs of a chain that end -/

/-- The descriptor that is read at an address. -/
def descriptorAt (dram : DRAM) (addr : ℤ) : DescriptorFields :=
  DMADescriptor.decodeFields (wordAt dram addr)

/-- Behind the end of the main memory there is the word zero. -/
theorem descriptorAt_of_end (dram : DRAM) {addr : ℤ} (h : dramSize ≤ addr) :
    descriptorAt dram addr = { dramAddr := 0, sramAddr := 0, size := 0 } := by
  rw [descriptorAt, wordAt, dram.slice_of_end h]
  rfl

/-- An instruction is executed in finitely many steps. -/
def Finishes (u : Units) (instr : NPUInstruction) (g : GoldenExecutor) : Prop :=
  ∃ fuel, (g.step u fuel instr).isSome = true

/-- The memory that the first descriptors of a chain leave. -/
def memoryAfter (next : Memory → DescriptorFields → Memory) (mem : Memory) (addr : ℤ) :
    ℕ → Memory
  | 0 => mem
  | k + 1 => memoryAfter next (next mem (descriptorAt mem.dram addr)) (addr + 8) k

section Finish

variable {u : Units} {execute : Memory → DMADescriptor → Except Error Memory}
  {next : Memory → DescriptorFields → Memory} {Fails : DescriptorFields → Prop}

/-- A run of a chain ends at a descriptor, which has its last flag or fails in the memory that
the descriptors before it left. -/
def StopsAt (next : Memory → DescriptorFields → Memory) (Fails : DescriptorFields → Prop)
    (mem : Memory) (addr : ℤ) (k : ℕ) : Prop :=
  let d := descriptorAt (memoryAfter next mem addr k).dram (addr + 8 * k)
  d.last = true ∨ Fails d

theorem stopsAt_zero {mem : Memory} {addr : ℤ} : StopsAt next Fails mem addr 0 ↔
    (descriptorAt mem.dram addr).last = true ∨ Fails (descriptorAt mem.dram addr) := by
  rw [StopsAt, Nat.cast_zero, mul_zero, add_zero, memoryAfter]

theorem stopsAt_succ {mem : Memory} {addr : ℤ} {k : ℕ} : StopsAt next Fails mem addr (k + 1) ↔
    StopsAt next Fails (next mem (descriptorAt mem.dram addr)) (addr + 8) k := by
  have haddr : addr + 8 * ((k + 1 : ℕ) : ℤ) = addr + 8 + 8 * k := by omega
  rw [StopsAt, haddr]
  rfl

/-- The transfer of a descriptor fails on some descriptors, and has a known effect on the
others. -/
structure TransfersAs (execute : Memory → DMADescriptor → Except Error Memory)
    (next : Memory → DescriptorFields → Memory) (Fails : DescriptorFields → Prop) : Prop where
  fails (mem : Memory) (d : DMADescriptor) :
    Fails d.toDescriptorFields → ∃ e, execute mem d = .error e
  next (mem : Memory) (d : DMADescriptor) :
    ¬Fails d.toDescriptorFields → execute mem d = .ok (next mem d.toDescriptorFields)

variable (h : TransfersAs execute next Fails)

include h

theorem runDescriptors_of_stops {fuel : ℕ} {addr : ℤ} {mem : Memory} {cycles : ℤ}
    (hstop : StopsAt next Fails mem addr 0) :
    (runDescriptors u execute (fuel + 1) addr mem cycles).isSome = true := by
  obtain ⟨d, hdecode, hfields⟩ := DMADescriptor.decode_eq_ok (wordAt mem.dram addr)
  rw [stopsAt_zero, descriptorAt, ← hfields] at hstop
  rw [runDescriptors, hdecode]
  dsimp only
  by_cases hf : Fails d.toDescriptorFields
  · obtain ⟨e, he⟩ := h.fails mem d hf
    rw [he]
    rfl
  · rw [h.next mem d hf]
    dsimp only
    rw [if_pos (hstop.resolve_right hf)]
    rfl

theorem runDescriptors_of_not_stops {addr : ℤ} {mem : Memory} (cycles : ℤ)
    (hstop : ¬StopsAt next Fails mem addr 0) : ∃ cycles', ∀ fuel,
      runDescriptors u execute (fuel + 1) addr mem cycles =
        runDescriptors u execute fuel (addr + 8) (next mem (descriptorAt mem.dram addr)) cycles' := by
  obtain ⟨d, hdecode, hfields⟩ := DMADescriptor.decode_eq_ok (wordAt mem.dram addr)
  rw [stopsAt_zero, descriptorAt, ← hfields, not_or, Bool.not_eq_true] at hstop
  refine ⟨cycles + u.estimateTransfer d.actualSize, fun fuel => ?_⟩
  rw [runDescriptors, hdecode]
  dsimp only
  rw [h.next mem d hstop.2]
  dsimp only
  rw [hstop.1, if_neg Bool.false_ne_true, descriptorAt, hfields]

/-- A run of descriptors ends exactly when it ends at one of them. -/
theorem runDescriptors_isSome_iff {addr : ℤ} {mem : Memory} {cycles : ℤ} :
    (∃ fuel, (runDescriptors u execute fuel addr mem cycles).isSome = true) ↔
      ∃ k, StopsAt next Fails mem addr k := by
  constructor
  · rintro ⟨fuel, hrun⟩
    induction fuel generalizing addr mem cycles with
    | zero => cases hrun
    | succ fuel ih =>
      by_cases hstop : StopsAt next Fails mem addr 0
      · exact ⟨0, hstop⟩
      · obtain ⟨cycles', hstep⟩ := runDescriptors_of_not_stops (u := u) h cycles hstop
        rw [hstep] at hrun
        obtain ⟨k, hk⟩ := ih hrun
        exact ⟨k + 1, stopsAt_succ.mpr hk⟩
  · rintro ⟨k, hk⟩
    induction k generalizing addr mem cycles with
    | zero => exact ⟨1, runDescriptors_of_stops h hk⟩
    | succ k ih =>
      by_cases hstop : StopsAt next Fails mem addr 0
      · exact ⟨1, runDescriptors_of_stops h hstop⟩
      · obtain ⟨cycles', hstep⟩ := runDescriptors_of_not_stops (u := u) h cycles hstop
        obtain ⟨fuel, hrun⟩ : ∃ fuel, (runDescriptors u execute fuel (addr + 8)
            (next mem (descriptorAt mem.dram addr)) cycles').isSome = true :=
          ih (stopsAt_succ.mp hk)
        exact ⟨fuel + 1, (hstep fuel).symm ▸ hrun⟩

omit h

/-- No run ends at a descriptor behind the end of the main memory, where the word is zero. -/
theorem lt_of_stopsAt (hzero : ¬Fails { dramAddr := 0, sramAddr := 0, size := 0 }) {mem : Memory}
    {addr : ℤ} {k : ℕ} (hstop : StopsAt next Fails mem addr k) : addr + 8 * k < dramSize := by
  by_contra hge
  rw [StopsAt, descriptorAt_of_end _ (by omega)] at hstop
  exact hstop.elim Bool.false_ne_true hzero

end Finish

/-! ### Loads -/

theorem loads : TransfersAs executeLoad (fun mem d => mem.loaded d.sramAddr d.dramAddr d.actualSize)
    fun _ => False :=
  ⟨fun _ _ hf => hf.elim, fun mem d _ => executeLoad_eq_ok mem d⟩

/-- Loads leave the main memory as it is. -/
theorem dram_memoryAfter_loads (mem : Memory) (addr : ℤ) (k : ℕ) :
    (memoryAfter (fun mem d => mem.loaded d.sramAddr d.dramAddr d.actualSize) mem addr k).dram =
      mem.dram := by
  induction k generalizing mem addr with
  | zero => rfl
  | succ k ih => exact ih _ _

theorem finishes_iff {u : Units} {instr : NPUInstruction} {g : GoldenExecutor} :
    Finishes u instr g ↔ ∃ fuel, (execute u fuel instr g.toMemory).isSome = true := by
  unfold Finishes GoldenExecutor.step
  simp only [Option.isSome_map]

theorem loadChain_finishes_iff {u : Units} {g : GoldenExecutor} {descAddr : ℤ} :
    Finishes u (loadChain descAddr) g ↔ ∃ k : ℕ, descAddr + 8 * k < dramSize ∧
      (descriptorAt g.dram (descAddr + 8 * k)).last = true := by
  rw [finishes_iff]
  simp only [execute_loadChain]
  rw [runDescriptors_isSome_iff loads]
  refine exists_congr fun k => ⟨fun hstop => ⟨lt_of_stopsAt not_false hstop, ?_⟩, fun hk => ?_⟩
  · rw [StopsAt, dram_memoryAfter_loads] at hstop
    exact hstop.resolve_right not_false
  · rw [StopsAt, dram_memoryAfter_loads]
    exact .inl hk.2

/-! ### Stores -/

/-- A store fits the main memory. A single byte is written wherever there is a place for it. -/
def DescriptorFields.Fits (d : DescriptorFields) : Prop :=
  d.dramAddr + d.actualSize ≤ dramSize ∨ d.actualSize = 1

/-- What a store leaves. -/
def Memory.stored (mem : Memory) (d : DescriptorFields) : Memory :=
  { mem with
    dram := mem.dram.overwrite d.dramAddr.toNat
      (mem.sram.slice d.sramAddr (d.sramAddr + d.actualSize)) }

/-- A store reads the bytes that it asks for. -/
theorem readBytes_of_descriptor (mem : Memory) (d : DMADescriptor) :
    mem.sram.readBytes d.sramAddr d.actualSize =
        .ok (mem.sram.slice d.sramAddr (d.sramAddr + d.actualSize)) ∧
      ((mem.sram.slice d.sramAddr (d.sramAddr + d.actualSize)).length : ℤ) = d.actualSize := by
  have hsram := d.inRange.sramAddr
  have hsize := d.actualSize_pos
  have hend : d.sramAddr + d.actualSize ≤ sramSize := by
    unfold sramSize
    omega
  exact ⟨SRAM.readBytes_eq_ok hend, mem.sram.length_slice_eq hsram.1 hsize.1.le hend⟩

theorem stores : TransfersAs executeStore Memory.stored fun d => ¬d.Fits := by
  constructor
  · intro mem d hf
    obtain ⟨hread, hlen⟩ := readBytes_of_descriptor mem d
    have hdram := d.inRange.dramAddr
    have hsize := d.actualSize_pos
    unfold DescriptorFields.Fits at hf
    have hnone : mem.dram.setSlice d.dramAddr (d.dramAddr + d.actualSize)
        (mem.sram.slice d.sramAddr (d.sramAddr + d.actualSize)) = none := by
      refine FixedArray.setSlice_eq_none ?_ (by omega)
      rw [sliceBound_of_nonneg hdram.1, sliceBound_of_nonneg (by omega)]
      omega
    rw [executeStore, hread, bind_eq_ok_left, assignSlice, hnone]
    exact ⟨_, rfl⟩
  · intro mem d hf
    obtain ⟨hread, hlen⟩ := readBytes_of_descriptor mem d
    have hdram := d.inRange.dramAddr
    have hsize := d.actualSize_pos
    have hset : mem.dram.setSlice d.dramAddr (d.dramAddr + d.actualSize)
        (mem.sram.slice d.sramAddr (d.sramAddr + d.actualSize)) =
          some (mem.stored d.toDescriptorFields).dram := by
      rcases le_or_gt (d.dramAddr + d.actualSize) dramSize with hfit | hover
      · have hlo : sliceBound dramSize d.dramAddr = d.dramAddr.toNat := by
          rw [sliceBound_of_nonneg hdram.1]
          omega
        rw [FixedArray.setSlice_of_length, hlo]
        · rfl
        · rw [hlo, sliceBound_of_nonneg (by omega)]
          omega
      · have hone := (not_not.mp hf).resolve_left (by omega)
        rw [FixedArray.setSlice_of_end (by omega) (by omega), Memory.stored,
          FixedArray.overwrite_of_end _ (by omega)]
    rw [executeStore, hread, bind_eq_ok_left, assignSlice, hset]
    rfl

theorem storeChain_finishes_iff {u : Units} {g : GoldenExecutor} {descAddr : ℤ} :
    Finishes u (storeChain descAddr) g ↔ ∃ k : ℕ, descAddr + 8 * k < dramSize ∧
      StopsAt Memory.stored (fun d => ¬d.Fits) g.toMemory descAddr k := by
  rw [finishes_iff]
  simp only [execute_storeChain]
  rw [runDescriptors_isSome_iff stores]
  have hzero : DescriptorFields.Fits { dramAddr := 0, sramAddr := 0, size := 0 } :=
    .inl (by decide)
  exact exists_congr fun k =>
    ⟨fun hstop => ⟨lt_of_stopsAt (not_not_intro hzero) hstop, hstop⟩, And.right⟩

/-- A chain of loads is finished exactly when a descriptor with its last flag begins before the
end of the main memory. A chain of stores is finished exactly when such a descriptor, in the
memory that the stores before it left, has its last flag or does not fit. -/
theorem chain_finishes_iff (u : Units) (g : GoldenExecutor) (descAddr : ℤ) :
    (Finishes u (loadChain descAddr) g ↔ ∃ k : ℕ, descAddr + 8 * k < dramSize ∧
        (descriptorAt g.dram (descAddr + 8 * k)).last = true) ∧
      (Finishes u (storeChain descAddr) g ↔ ∃ k : ℕ, descAddr + 8 * k < dramSize ∧
        StopsAt Memory.stored (fun d => ¬d.Fits) g.toMemory descAddr k) :=
  ⟨loadChain_finishes_iff, storeChain_finishes_iff⟩

/-- Nothing in a memory of zeros is a descriptor with its last flag. -/
theorem descriptorAt_init (addr : ℤ) :
    descriptorAt GoldenExecutor.init.dram addr = { dramAddr := 0, sramAddr := 0, size := 0 } := by
  have hword : wordAt GoldenExecutor.init.dram addr = 0 := by
    refine ofBytes_eq_zero fun x hx => ?_
    obtain ⟨i, rfl⟩ := List.mem_ofFn.mp hx
    rfl
  rw [descriptorAt, hword]
  rfl

/-- On a new core a chain of loads is executed forever. -/
theorem loadChain_init (u : Units) (fuel : ℕ) :
    GoldenExecutor.init.step u fuel (loadChain 0) = none := by
  rw [← Option.not_isSome_iff_eq_none]
  intro hsome
  obtain ⟨k, -, hlast⟩ := loadChain_finishes_iff.mp ⟨fuel, hsome⟩
  rw [descriptorAt_init] at hlast
  exact Bool.false_ne_true hlast

theorem zero_chain_runs : ¬Finishes exampleUnits (loadChain 0) GoldenExecutor.init := by
  rintro ⟨fuel, hsome⟩
  rw [loadChain_init] at hsome
  cases hsome

/-- The chain for no bytes has no descriptor, and executing it is not a load of no bytes. -/
theorem empty_chain_runs : buildWeightLoadChain 0 0 0 0 4096 = some (.ok []) ∧
    ChainAt GoldenExecutor.init.dram 0 [] ∧
    (GoldenExecutor.init.step exampleUnits 0 (loadRange 0 0 0)).isSome = true ∧
    ∀ fuel, GoldenExecutor.init.step exampleUnits fuel (loadChain 0) = none := by
  refine ⟨rfl, fun k d hk => ?_, rfl, loadChain_init exampleUnits⟩
  cases hk

end Core

end NpuArc
