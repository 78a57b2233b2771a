import NpuArc.Core.Frame
import NpuArc.Library.Patches

/-!
# Exchanging instructions

An instruction looks only at the ranges that it reads, and what it writes is a patch of the
memories that depends on them alone. Adjacent instructions that do not write what the other one
reads or writes can be exchanged, and so a program can be reordered.
-/

namespace NpuArc

namespace Core

variable {u : Units} {fuel : ℕ} {instr : NPUInstruction} {mem mem' mem₂ : Memory} {cycles : ℤ}

/-! ### Cells -/

/-- A byte of one of the memories. -/
abbrev Cell := Fin sramSize ⊕ Fin dramSize

namespace Memory

def bytes (mem : Memory) : Cell → UInt8 := Sum.elim mem.sram mem.dram

def ofBytes (b : Cell → UInt8) : Memory := ⟨fun i => b (.inl i), fun i => b (.inr i)⟩

/-- The memories after a patch. -/
def patched (mem : Memory) (p : Patch Cell UInt8) : Memory := ofBytes (p.apply mem.bytes)

theorem bytes_ofBytes (b : Cell → UInt8) : (ofBytes b).bytes = b := by
  funext c
  cases c <;> rfl

theorem bytes_patched (mem : Memory) (p : Patch Cell UInt8) :
    (mem.patched p).bytes = p.apply mem.bytes := bytes_ofBytes _

theorem patched_sram (mem : Memory) (p : Patch (Fin sramSize) UInt8) :
    mem.patched (Sum.elim p fun _ => none) = { mem with sram := p.apply mem.sram } := rfl

end Memory

/-- The bytes in ranges of the on-chip memory and of the main memory. -/
def cells (sram dram : List Span) : Set Cell :=
  {c | Sum.elim (fun i : Fin sramSize => ∃ s ∈ sram, s.Contains i)
    (fun i : Fin dramSize => ∃ s ∈ dram, s.Contains i) c}

/-- Ranges that are disjoint in both memories have no byte in common. -/
theorem disjoint_cells {sram sram' dram dram' : List Span}
    (hsram : ∀ s ∈ sram, ∀ s' ∈ sram', s.Disjoint s')
    (hdram : ∀ s ∈ dram, ∀ s' ∈ dram', s.Disjoint s') :
    Disjoint (cells sram dram) (cells sram' dram') := by
  rw [Set.disjoint_left]
  rintro (i | i) hi hi'
  · obtain ⟨s, hs, hsi⟩ := hi
    obtain ⟨s', hs', hsi'⟩ := hi'
    exact hsram s hs s' hs' i hsi hsi'
  · obtain ⟨s, hs, hsi⟩ := hi
    obtain ⟨s', hs', hsi'⟩ := hi'
    exact hdram s hs s' hs' i hsi hsi'

/-- The ranges that an instruction without a chain reads in the main memory. -/
def NPUInstruction.loads (instr : NPUInstruction) : List Span :=
  match instr.opcode with
  | .dmaLd => [⟨instr.operand "dram" 0, instr.operand "size" 0⟩]
  | _ => []

/-! ### Reads -/

/-- Two memories agree on a range. -/
def AgreeOn {n : ℕ} (s : Span) (m₂ m : FixedArray n UInt8) : Prop :=
  ∀ i : Fin n, s.Contains i → m₂ i = m i

theorem slice_congr {n : ℕ} {m₂ m : FixedArray n UInt8} {addr size : ℤ} (haddr : 0 ≤ addr)
    (hsize : 0 ≤ size) (h : AgreeOn ⟨addr, size⟩ m₂ m) :
    m₂.slice addr (addr + size) = m.slice addr (addr + size) := by
  have hlo : sliceBound n addr = min addr.toNat n := sliceBound_of_nonneg haddr
  have hhi : sliceBound n (addr + size) = min (addr + size).toNat n :=
    sliceBound_of_nonneg (by omega)
  unfold FixedArray.slice
  congr 1
  funext k
  have hk := k.isLt
  refine h _ ⟨?_, ?_⟩ <;> dsimp only <;> omega

theorem span_int8 {addr n : ℤ} : Access.span ⟨.int8, addr, n⟩ = ⟨addr, n⟩ := by
  unfold Access.span
  rw [Dtype.width, Nat.cast_one, mul_one]

section Reads

variable {sram₂ sram : SRAM} {addr n : ℤ}

theorem readBytes_congr (haddr : 0 ≤ addr) (hn : 0 ≤ n) (h : AgreeOn ⟨addr, n⟩ sram₂ sram) :
    sram₂.readBytes addr n = sram.readBytes addr n := by
  unfold SRAM.readBytes
  rw [slice_congr haddr hn h]

theorem readInt32_congr (haddr : 0 ≤ addr) (hn : 0 ≤ n)
    (h : AgreeOn (Access.span ⟨.int32, addr, n⟩) sram₂ sram) :
    sram₂.readInt32 addr n = sram.readInt32 addr n := by
  have hbytes : sram₂.readBytes addr (n * 4) = sram.readBytes addr (n * 4) :=
    readBytes_congr haddr (by omega) h
  rw [SRAM.readInt32, SRAM.readInt32, hbytes]

theorem readFloat16_congr (haddr : 0 ≤ addr) (hn : 0 ≤ n)
    (h : AgreeOn (Access.span ⟨.fp16, addr, n⟩) sram₂ sram) :
    sram₂.readFloat16 addr n = sram.readFloat16 addr n := by
  have hbytes : sram₂.readBytes addr (n * 2) = sram.readBytes addr (n * 2) :=
    readBytes_congr haddr (by omega) h
  rw [SRAM.readFloat16, SRAM.readFloat16, hbytes]

end Reads

/-! ### Writes -/

/-- A write is the same patch in every on-chip memory. -/
theorem exists_writeBytes {sram sram' : SRAM} {addr : ℤ} {data : List UInt8}
    (h : sram.writeBytes addr data = .ok sram') : ∃ p : Patch (Fin sramSize) UInt8,
      ∀ sram₂ : SRAM, sram₂.writeBytes addr data = .ok (p.apply sram₂) := by
  unfold SRAM.writeBytes at h ⊢
  split_ifs at h ⊢
  obtain ⟨p, hp⟩ := Patch.exists_setSlice (assignSlice_eq_ok h)
  refine ⟨p, fun sram₂ => ?_⟩
  rw [assignSlice, hp]

theorem unaryFloat_patch {f : List UInt16 → Except Error (List UInt16)} {count cost : ℤ}
    (h : unaryFloat f count cost instr mem = .ok (mem', cycles)) : ∃ p : Patch Cell UInt8,
      ∀ mem₂ : Memory, mem₂.sram.readFloat16 (instr.operand "sa" 0) count =
          mem.sram.readFloat16 (instr.operand "sa" 0) count →
        unaryFloat f count cost instr mem₂ = .ok (mem₂.patched p, cycles) := by
  obtain ⟨inp, out, sram, hinp, hout, hsram, -, hcost⟩ := unaryFloat_eq_ok.mp h
  obtain ⟨p, hp⟩ := exists_writeBytes hsram
  exact ⟨_, fun mem₂ hread => unaryFloat_eq_ok.mpr
    ⟨inp, out, _, hread.trans hinp, hout, hp mem₂.sram, (mem₂.patched_sram p).symm, hcost⟩⟩

theorem binaryInt_patch {f : List Int32 → List Int32 → Except Error (List Int32)}
    (h : binaryInt f instr mem = .ok (mem', cycles)) : ∃ p : Patch Cell UInt8, ∀ mem₂ : Memory,
      mem₂.sram.readInt32 (instr.operand "sa" 0) (instr.operand "len" 2560) =
          mem.sram.readInt32 (instr.operand "sa" 0) (instr.operand "len" 2560) →
        mem₂.sram.readInt32 (instr.operand "sa" 0 + instr.operand "len" 2560 * 4)
            (instr.operand "len" 2560) =
          mem.sram.readInt32 (instr.operand "sa" 0 + instr.operand "len" 2560 * 4)
            (instr.operand "len" 2560) →
        binaryInt f instr mem₂ = .ok (mem₂.patched p, cycles) := by
  obtain ⟨a, b, out, sram, ha, hb, hout, hsram, -, hcost⟩ := binaryInt_eq_ok.mp h
  obtain ⟨p, hp⟩ := exists_writeBytes hsram
  exact ⟨_, fun mem₂ hreada hreadb => binaryInt_eq_ok.mpr ⟨a, b, out, _, hreada.trans ha,
    hreadb.trans hb, hout, hp mem₂.sram, (mem₂.patched_sram p).symm, hcost⟩⟩

/-! ### Instructions -/

/-- What an instruction does is a patch that depends on what it reads alone. -/
def Patches (u : Units) (instr : NPUInstruction) (mem : Memory) (cycles : ℤ) : Prop :=
  ∃ p : Patch Cell UInt8, ∀ mem₂ : Memory,
    (∀ s ∈ instr.reads, AgreeOn s mem₂.sram mem.sram) →
      (∀ s ∈ instr.loads, AgreeOn s mem₂.dram mem.dram) →
        executeOp u instr mem₂ = .ok (mem₂.patched p, cycles)

theorem mem_reads_of_chainedRead {acc : Access} (h : instr.chainedRead = some acc) :
    acc.span ∈ instr.reads := by
  unfold NPUInstruction.reads
  rw [h]
  exact List.mem_cons_self

theorem mem_reads_of_otherReads {s : Span} (h : s ∈ instr.otherReads) : s ∈ instr.reads :=
  List.mem_append_right _ h

theorem mmul_patches (h : instr.Nonneg) (hopcode : instr.opcode = .mmul)
    (hop : executeOp u instr mem = .ok (mem', cycles)) : Patches u instr mem cycles := by
  have hk := h.operand "K" 2560 (by decide)
  have hmk := mul_nonneg (h.operand "M" 1 (by decide)) hk
  have hkn := mul_nonneg hk (h.operand "N" 2560 (by decide))
  have hact : Access.span ⟨.int8, instr.operand "ia" 0,
      instr.operand "M" 1 * instr.operand "K" 2560⟩ ∈ instr.reads := by
    refine mem_reads_of_chainedRead ?_
    unfold NPUInstruction.chainedRead
    rw [hopcode]
  have hweights : ⟨instr.operand "wa" 0,
      (instr.operand "K" 2560 * instr.operand "N" 2560 + 1) / 2⟩ ∈ instr.reads := by
    refine mem_reads_of_otherReads ?_
    unfold NPUInstruction.otherReads
    rw [hopcode]
    exact List.mem_cons_self
  rw [span_int8] at hact
  unfold Patches
  unfold executeOp at hop ⊢
  rw [hopcode] at hop ⊢
  dsimp only at hop ⊢
  obtain ⟨result, hresult, hop⟩ := bind_eq_ok.mp hop
  obtain ⟨sram, hsram, hop⟩ := bind_eq_ok.mp hop
  obtain ⟨p, hp⟩ := exists_writeBytes hsram
  cases hop
  refine ⟨Sum.elim p fun _ => none, fun mem₂ hagree _ => ?_⟩
  have hwrite : mem₂.sram.writeInt32 (instr.operand "oa" 0) result = .ok (p.apply mem₂.sram) :=
    hp mem₂.sram
  rw [slice_congr (h.operand "ia" 0 le_rfl) hmk (hagree _ hact),
    slice_congr (h.operand "wa" 0 le_rfl) (by omega) (hagree _ hweights), hresult,
    bind_eq_ok_left, hwrite]
  rfl

theorem vresid_patches (h : instr.Nonneg) (hopcode : instr.opcode = .vresid)
    (hop : executeOp u instr mem = .ok (mem', cycles)) : Patches u instr mem cycles := by
  have hsa := h.operand "sa" 0 le_rfl
  have hlen := h.operand "len" 2560 (by decide)
  have hsb := h.operand "sb" (instr.operand "sa" 0 + 1024) (by omega)
  have hb : Access.span ⟨.int32, instr.operand "sb" (instr.operand "sa" 0 + 1024),
      instr.operand "len" 2560⟩ ∈ instr.reads := by
    refine mem_reads_of_chainedRead ?_
    unfold NPUInstruction.chainedRead
    rw [hopcode]
  have ha : ⟨instr.operand "sa" 0, instr.operand "len" 2560 * 2⟩ ∈ instr.reads := by
    refine mem_reads_of_otherReads ?_
    unfold NPUInstruction.otherReads
    rw [hopcode]
    exact List.mem_cons_self
  unfold Patches
  unfold executeOp at hop ⊢
  rw [hopcode] at hop ⊢
  dsimp only at hop ⊢
  obtain ⟨a, hreada, hop⟩ := bind_eq_ok.mp hop
  obtain ⟨b, hreadb, hop⟩ := bind_eq_ok.mp hop
  obtain ⟨out, hout, hop⟩ := bind_eq_ok.mp hop
  obtain ⟨sram, hsram, hop⟩ := bind_eq_ok.mp hop
  obtain ⟨p, hp⟩ := exists_writeBytes hsram
  cases hop
  refine ⟨Sum.elim p fun _ => none, fun mem₂ hagree _ => ?_⟩
  have hwrite : mem₂.sram.writeInt32 (instr.operand "da" 0) out = .ok (p.apply mem₂.sram) :=
    hp mem₂.sram
  rw [readFloat16_congr hsa hlen (hagree _ ha), hreada, bind_eq_ok_left,
    readInt32_congr hsb hlen (hagree _ hb), hreadb, bind_eq_ok_left, hout, bind_eq_ok_left, hwrite]
  rfl

/-- A conversion reads its chained operand and writes it in another type. -/
theorem conversion_patches (h : instr.Nonneg)
    (hopcode : instr.opcode = .vconv ∨ instr.opcode = .vconvF16I32)
    (hop : executeOp u instr mem = .ok (mem', cycles)) : Patches u instr mem cycles := by
  have hsa := h.operand "sa" 0 le_rfl
  have hlen := h.operand "len" 2560 (by decide)
  have hread : ∀ acc, instr.chainedRead = some acc → acc.span ∈ instr.reads :=
    fun _ => mem_reads_of_chainedRead
  unfold NPUInstruction.chainedRead at hread
  unfold Patches
  unfold executeOp at hop ⊢
  rcases hopcode with hopcode | hopcode <;> rw [hopcode] at hop hread ⊢ <;>
    dsimp only at hop hread ⊢ <;> obtain ⟨inp, hinp, hop⟩ := bind_eq_ok.mp hop <;>
      obtain ⟨sram, hsram, hop⟩ := bind_eq_ok.mp hop <;>
        obtain ⟨p, hp⟩ := exists_writeBytes hsram <;> cases hop <;>
          refine ⟨Sum.elim p fun _ => none, fun mem₂ hagree _ => ?_⟩
  · have hwrite : mem₂.sram.writeFloat16 (instr.operand "da" 0) (inp.map u.convI32ToF16) =
      .ok (p.apply mem₂.sram) := hp mem₂.sram
    rw [readInt32_congr hsa hlen (hagree _ (hread _ rfl)), hinp, bind_eq_ok_left, hwrite]
    rfl
  · have hwrite : mem₂.sram.writeInt32 (instr.operand "da" 0) (inp.map u.convF16ToI32) =
      .ok (p.apply mem₂.sram) := hp mem₂.sram
    rw [readFloat16_congr hsa hlen (hagree _ (hread _ rfl)), hinp, bind_eq_ok_left, hwrite]
    rfl

theorem dmaLd_patches (h : instr.Nonneg) (hopcode : instr.opcode = .dmaLd)
    (hop : executeOp u instr mem = .ok (mem', cycles)) : Patches u instr mem cycles := by
  have hdata : ⟨instr.operand "dram" 0, instr.operand "size" 0⟩ ∈ instr.loads := by
    unfold NPUInstruction.loads
    rw [hopcode]
    exact List.mem_cons_self
  unfold Patches
  unfold executeOp at hop ⊢
  rw [hopcode] at hop ⊢
  dsimp only at hop ⊢
  obtain ⟨sram, hsram, hop⟩ := bind_eq_ok.mp hop
  obtain ⟨p, hp⟩ := exists_writeBytes hsram
  cases hop
  refine ⟨Sum.elim p fun _ => none, fun mem₂ _ hagree => ?_⟩
  rw [slice_congr (h.operand "dram" 0 le_rfl) (h.operand "size" 0 le_rfl) (hagree _ hdata), hp]
  rfl

theorem dmaSt_patches (h : instr.Nonneg) (hopcode : instr.opcode = .dmaSt)
    (hop : executeOp u instr mem = .ok (mem', cycles)) : Patches u instr mem cycles := by
  have hread : ⟨instr.operand "sram" 0, instr.operand "size" 0⟩ ∈ instr.reads := by
    refine mem_reads_of_otherReads ?_
    unfold NPUInstruction.otherReads
    rw [hopcode]
    exact List.mem_cons_self
  unfold Patches
  unfold executeOp at hop ⊢
  rw [hopcode] at hop ⊢
  dsimp only at hop ⊢
  obtain ⟨data, hdata, hop⟩ := bind_eq_ok.mp hop
  obtain ⟨dram, hdram, hop⟩ := bind_eq_ok.mp hop
  obtain ⟨p, hp⟩ := Patch.exists_setSlice (assignSlice_eq_ok hdram)
  cases hop
  refine ⟨Sum.elim (fun _ => none) p, fun mem₂ hagree _ => ?_⟩
  rw [readBytes_congr (h.operand "sram" 0 le_rfl) (h.operand "size" 0 le_rfl) (hagree _ hread),
    hdata, bind_eq_ok_left, assignSlice, hp]
  rfl

/-- Every instruction without a chain does a patch that depends on what it reads alone. -/
theorem executeOp_patches (h : instr.Nonneg) (hop : executeOp u instr mem = .ok (mem', cycles)) :
    Patches u instr mem cycles := by
  have hsa := h.operand "sa" 0 le_rfl
  have hlen := h.operand "len" 2560 (by decide)
  have hread : ∀ acc, instr.chainedRead = some acc → acc.span ∈ instr.reads :=
    fun _ => mem_reads_of_chainedRead
  have hother : ∀ s ∈ instr.otherReads, s ∈ instr.reads := fun _ => mem_reads_of_otherReads
  unfold NPUInstruction.chainedRead at hread
  unfold NPUInstruction.otherReads at hother
  have hrun := hop
  unfold executeOp at hop
  cases hopcode : instr.opcode <;> rw [hopcode] at hop hread hother <;>
    dsimp only at hop hread hother
  case mmul => exact mmul_patches h hopcode hrun
  case vresid => exact vresid_patches h hopcode hrun
  case vconv => exact conversion_patches h (.inl hopcode) hrun
  case vconvF16I32 => exact conversion_patches h (.inr hopcode) hrun
  case dmaLd => exact dmaLd_patches h hopcode hrun
  case dmaSt => exact dmaSt_patches h hopcode hrun
  all_goals
    unfold Patches executeOp
    rw [hopcode]
    dsimp only
  case softmax | layernorm | gelu | silu | relu | rope | vredMax | vredSum =>
    obtain ⟨p, hp⟩ := unaryFloat_patch hop
    exact ⟨p, fun mem₂ hagree _ =>
      hp mem₂ (readFloat16_congr hsa hlen (hagree _ (hread _ rfl)))⟩
  case rmsnorm =>
    split_ifs at hop ⊢ with helements
    obtain ⟨p, hp⟩ := unaryFloat_patch hop
    exact ⟨p, fun mem₂ hagree _ =>
      hp mem₂ (readFloat16_congr hsa (by omega) (hagree _ (hread _ rfl)))⟩
  case maxpool | avgpool =>
    obtain ⟨p, hp⟩ := unaryFloat_patch hop
    have hcount := mul_nonneg (h.operand "H" 2 (by decide)) (h.operand "W" 2 (by decide))
    exact ⟨p, fun mem₂ hagree _ =>
      hp mem₂ (readFloat16_congr hsa hcount (hagree _ (hread _ rfl)))⟩
  case vadd | vmul =>
    obtain ⟨p, hp⟩ := binaryInt_patch hop
    exact ⟨p, fun mem₂ hagree _ => hp mem₂
      (readInt32_congr hsa hlen (hagree _ (hread _ rfl)))
      (readInt32_congr (by omega) hlen (hagree _ (hother _ List.mem_cons_self)))⟩
  all_goals
    cases hop
    exact ⟨fun _ => none, fun mem₂ _ _ => rfl⟩

/-! ### Exchanging two instructions -/

/-- An instruction as an action on the bytes of the memories. -/
def action (u : Units) (instr : NPUInstruction) (b : Cell → UInt8) : Option ((Cell → UInt8) × ℤ) :=
  (executeOp u instr (.ofBytes b)).toOption.map fun r => (r.1.bytes, r.2)

theorem action_eq_some {b b' : Cell → UInt8} : action u instr b = some (b', cycles) ↔
    executeOp u instr (.ofBytes b) = .ok (.ofBytes b', cycles) := by
  unfold action
  rw [Option.map_eq_some_iff]
  constructor
  · rintro ⟨⟨mem, c⟩, hop, heq⟩
    obtain ⟨rfl, rfl⟩ := Prod.mk.injEq .. ▸ heq
    exact toOption_eq_some.mp hop
  · intro hop
    exact ⟨_, toOption_eq_some.mpr hop, by rw [Memory.bytes_ofBytes]⟩

/-- An instruction without a chain changes nothing outside of the ranges that it writes. -/
theorem action_frame (hshape : u.Shaped) (h : instr.Nonneg) (hload : instr.opcode ≠ .dmaLdd)
    (hstore : instr.opcode ≠ .dmaStd) {b b' : Cell → UInt8}
    (hact : action u instr b = some (b', cycles)) {c : Cell}
    (hc : c ∉ cells instr.writes instr.stores) : b' c = b c := by
  have hframe : Memory.Frame (instr.writesIn 0 (.ofBytes b)) (instr.storesIn 0 (.ofBytes b))
      (.ofBytes b) (.ofBytes b') := executeOp_frame hshape h (action_eq_some.mp hact)
  have hwrites : instr.writesIn 0 (.ofBytes b) = instr.writes := by
    unfold NPUInstruction.writesIn
    split
    · exact absurd ‹_› hload
    · rfl
  have hstores : instr.storesIn 0 (.ofBytes b) = instr.stores := by
    unfold NPUInstruction.storesIn
    split
    · exact absurd ‹_› hstore
    · rfl
  rw [hwrites, hstores] at hframe
  cases c with
  | inl i => exact hframe.sram i fun s hs hi => hc ⟨s, hs, hi⟩
  | inr i => exact hframe.dram i fun s hs hi => hc ⟨s, hs, hi⟩

/-- An instruction without a chain has the footprint that its ranges say. -/
theorem exists_acts (hshape : u.Shaped) (h : instr.Nonneg) (hload : instr.opcode ≠ .dmaLdd)
    (hstore : instr.opcode ≠ .dmaStd) (hop : executeOp u instr mem = .ok (mem', cycles)) :
    ∃ p : Patch Cell UInt8, mem' = mem.patched p ∧ p.support ⊆ cells instr.writes instr.stores ∧
      Acts (action u instr) mem.bytes (cells instr.reads instr.loads) p cycles := by
  obtain ⟨p, hp⟩ := executeOp_patches h hop
  have hacts : Acts (action u instr) mem.bytes (cells instr.reads instr.loads) p cycles := by
    intro b hb
    refine action_eq_some.mpr ?_
    rw [hp (.ofBytes b) (fun s hs i hi => hb (show Sum.inl i ∈ _ from ⟨s, hs, hi⟩))
      (fun s hs i hi => hb (show Sum.inr i ∈ _ from ⟨s, hs, hi⟩)), Memory.patched,
      Memory.bytes_ofBytes]
  have hrestrict := hacts.restrict fun b r hact c hc =>
    action_frame hshape h hload hstore hact hc
  refine ⟨_, ?_, Patch.support_restrict_subset, hrestrict⟩
  have hself := action_eq_some.mp (hrestrict mem.bytes (Set.eqOn_refl _ _))
  exact congrArg Prod.fst (Except.ok.inj (hop.symm.trans hself))

/-- An instruction without a chain and without a negative operand. -/
structure NPUInstruction.Plain (instr : NPUInstruction) : Prop where
  load : instr.opcode ≠ .dmaLdd
  store : instr.opcode ≠ .dmaStd
  nonneg : instr.Nonneg

/-- An instruction writes nothing that another one reads or writes. -/
structure Spares (instr instr' : NPUInstruction) : Prop where
  reads : Independent instr instr'
  writes : ∀ s ∈ instr.writes, ∀ s' ∈ instr'.writes, s.Disjoint s'
  loads : ∀ s ∈ instr.stores, ∀ s' ∈ instr'.loads, s.Disjoint s'
  stores : ∀ s ∈ instr.stores, ∀ s' ∈ instr'.stores, s.Disjoint s'

theorem Span.Disjoint.symm {s s' : Span} (h : s.Disjoint s') : s'.Disjoint s :=
  fun a ha ha' => h a ha' ha

theorem Spares.disjoint_reads {instr' : NPUInstruction} (h : Spares instr instr') :
    Disjoint (cells instr.writes instr.stores) (cells instr'.reads instr'.loads) :=
  disjoint_cells (fun s hs s' hs' => (h.reads s' hs' s hs).symm) h.loads

/-- Two instructions spare each other. -/
structure Exchangeable (instr instr' : NPUInstruction) : Prop where
  left : instr.Plain
  right : instr'.Plain
  forward : Spares instr instr'
  backward : Spares instr' instr

theorem Exchangeable.symm {instr' : NPUInstruction} (h : Exchangeable instr instr') :
    Exchangeable instr' instr := ⟨h.right, h.left, h.backward, h.forward⟩

/-- Exchangeable instructions leave the same memories in both orders. -/
theorem Exchangeable.exchange {instr' : NPUInstruction} (hshape : u.Shaped)
    (h : Exchangeable instr instr') {mem₁ : Memory} {cycles' : ℤ}
    (hop : executeOp u instr mem = .ok (mem₁, cycles))
    (hop' : executeOp u instr' mem₁ = .ok (mem₂, cycles')) : ∃ mem₁',
      executeOp u instr' mem = .ok (mem₁', cycles') ∧
        executeOp u instr mem₁' = .ok (mem₂, cycles) := by
  obtain ⟨p, rfl, hp, hacts⟩ :=
    exists_acts hshape h.left.nonneg h.left.load h.left.store hop
  obtain ⟨q, rfl, hq, hacts'⟩ :=
    exists_acts hshape h.right.nonneg h.right.load h.right.store hop'
  rw [Memory.bytes_patched] at hacts'
  obtain ⟨hfirst, hsecond⟩ := hacts.exchange hacts' (h.forward.disjoint_reads.mono_left hp)
    (h.backward.disjoint_reads.mono_left hq)
    ((disjoint_cells h.forward.writes h.forward.stores).mono hp hq)
  refine ⟨mem.patched q, action_eq_some.mp hfirst, ?_⟩
  rw [Memory.patched, Memory.patched, Memory.bytes_patched]
  exact action_eq_some.mp hsecond

/-! ### Reordered programs -/

/-- Two adjacent instructions of a program are exchanged. -/
inductive Exchanges : List NPUInstruction → List NPUInstruction → Prop
  | swap {instr instr' : NPUInstruction} (h : Exchangeable instr instr')
      (program : List NPUInstruction) : Exchanges (instr :: instr' :: program)
        (instr' :: instr :: program)
  | cons (instr : NPUInstruction) {program program' : List NPUInstruction}
      (h : Exchanges program program') : Exchanges (instr :: program) (instr :: program')

theorem Exchanges.symm {program program' : List NPUInstruction} (h : Exchanges program program') :
    Exchanges program' program := by
  induction h with
  | swap h program => exact .swap h.symm program
  | cons instr _ ih => exact .cons instr ih

namespace GoldenExecutor

variable {g g' : GoldenExecutor} {program program' : List NPUInstruction}

theorem executeProgram_cons_eq_ok : g.executeProgram u fuel (instr :: program) = some (.ok g') ↔
    ∃ g₁, g.step u fuel instr = some (.ok g₁) ∧
      g₁.executeProgram u fuel program = some (.ok g') := by
  rw [executeProgram]
  cases hstep : g.step u fuel instr with
  | none => simp
  | some r =>
    cases r with
    | error e => simp
    | ok g₁ => simp

/-- A plain instruction steps to the state after what it does. -/
theorem step_eq_ok_iff (h : instr.Plain) : g.step u fuel instr = some (.ok g') ↔
    ∃ mem cycles, executeOp u instr g.toMemory = .ok (mem, cycles) ∧ g' = g.after mem cycles := by
  unfold step
  rw [execute_of_ne_chain h.load h.store]
  cases hop : executeOp u instr g.toMemory with
  | error e =>
    refine iff_of_false ?_ ?_
    · rintro ⟨⟩
    · rintro ⟨mem, cycles, hok, -⟩
      cases hok
  | ok r =>
    constructor
    · intro hr
      exact ⟨r.1, r.2, rfl, (Except.ok.inj (Option.some.inj hr)).symm⟩
    · rintro ⟨mem, cycles, hok, rfl⟩
      cases hok
      rfl

/-- Steps of exchangeable instructions end in the same state in both orders. -/
theorem step_exchange {instr' : NPUInstruction} (hshape : u.Shaped)
    (h : Exchangeable instr instr') {g₁ g₂ : GoldenExecutor}
    (hstep : g.step u fuel instr = some (.ok g₁))
    (hstep' : g₁.step u fuel instr' = some (.ok g₂)) : ∃ g₁',
      g.step u fuel instr' = some (.ok g₁') ∧ g₁'.step u fuel instr = some (.ok g₂) := by
  obtain ⟨mem₁, cycles, hop, rfl⟩ := (step_eq_ok_iff h.left).mp hstep
  obtain ⟨mem₂, cycles', hop', rfl⟩ := (step_eq_ok_iff h.right).mp hstep'
  obtain ⟨mem₁', hfirst, hsecond⟩ := h.exchange hshape hop hop'
  refine ⟨g.after mem₁' cycles', (step_eq_ok_iff h.right).mpr ⟨_, _, hfirst, rfl⟩,
    (step_eq_ok_iff h.left).mpr ⟨_, _, hsecond, ?_⟩⟩
  unfold after
  rw [add_right_comm]

theorem executeProgram_of_exchanges (hshape : u.Shaped) (h : Exchanges program program')
    (hrun : g.executeProgram u fuel program = some (.ok g')) :
    g.executeProgram u fuel program' = some (.ok g') := by
  induction h generalizing g with
  | swap h program =>
    obtain ⟨g₁, hstep, hrest⟩ := executeProgram_cons_eq_ok.mp hrun
    obtain ⟨g₂, hstep', hrest⟩ := executeProgram_cons_eq_ok.mp hrest
    obtain ⟨g₁', hfirst, hsecond⟩ := step_exchange hshape h hstep hstep'
    exact executeProgram_cons_eq_ok.mpr
      ⟨g₁', hfirst, executeProgram_cons_eq_ok.mpr ⟨g₂, hsecond, hrest⟩⟩
  | cons instr _ ih =>
    obtain ⟨g₁, hstep, hrest⟩ := executeProgram_cons_eq_ok.mp hrun
    exact executeProgram_cons_eq_ok.mpr ⟨g₁, hstep, ih hrest⟩

/-- A program and one that comes from it by exchanges of adjacent instructions that spare each
other succeed from the same states, with the same memories, cycles and program counter. -/
theorem executeProgram_reordered (hshape : u.Shaped)
    (h : Relation.ReflTransGen Exchanges program program') :
    g.executeProgram u fuel program = some (.ok g') ↔
      g.executeProgram u fuel program' = some (.ok g') := by
  induction h with
  | refl => exact Iff.rfl
  | tail _ h ih =>
    exact ih.trans ⟨executeProgram_of_exchanges hshape h, executeProgram_of_exchanges hshape h.symm⟩

end GoldenExecutor

/-! ### An example -/

theorem disjoint_of_apart {l l' : List Span}
    (h : ∀ s ∈ l, ∀ s' ∈ l', s.lo + s.size ≤ s'.lo ∨ s'.lo + s'.size ≤ s.lo) :
    ∀ s ∈ l, ∀ s' ∈ l', s.Disjoint s' := by
  intro s hs s' hs'
  rcases h s hs s' hs' with hle | hle
  · exact Span.disjoint_of_le hle
  · exact (Span.disjoint_of_le hle).symm

/-- The sum and the rectification beside it give the same state in both orders. -/
theorem sumBesideRelu_reordered : ∃ g',
    floatOne.executeProgram shapedUnits 0 sumBesideRelu = some (.ok g') ∧
      floatOne.executeProgram shapedUnits 0 sumBesideRelu.reverse = some (.ok g') := by
  have hrun : byteAfter (floatOne.executeProgram shapedUnits 0 sumBesideRelu) 513 = some 0x3C := by
    decide +kernel
  obtain ⟨g', hrun, -⟩ := exists_of_byteAfter hrun
  have hexchange : Exchanges sumBesideRelu sumBesideRelu.reverse := by
    unfold sumBesideRelu
    refine .swap ⟨⟨by decide, by decide, by decide⟩, ⟨by decide, by decide, by decide⟩, ?_, ?_⟩ []
    · exact ⟨disjoint_of_apart (by decide), disjoint_of_apart (by decide),
        disjoint_of_apart (by decide), disjoint_of_apart (by decide)⟩
    · exact ⟨disjoint_of_apart (by decide), disjoint_of_apart (by decide),
        disjoint_of_apart (by decide), disjoint_of_apart (by decide)⟩
  exact ⟨g', hrun, (GoldenExecutor.executeProgram_reordered shapedUnits_shaped
    (.single hexchange)).mp hrun⟩

end Core

end NpuArc
