import NpuArc.Core.Chaining

/-!
# The scratch region

The conversions of a program write behind each other from the base of the scratch region on,
each into its own blocks. Nothing bounds the region, so the conversions stay inside the memory
exactly when the blocks of the whole program do, and each of them finds its source there.
-/

namespace NpuArc

namespace Core

/-- A range lies inside the on-chip memory. -/
def Span.Inside (s : Span) : Prop := 0 ≤ s.lo ∧ 0 ≤ s.size ∧ s.lo + s.size ≤ sramSize

/-- The items that are put between the instructions of a program. -/
def insertedFrom (prev : NPUInstruction) (scratch : ℤ) : List NPUInstruction → List Item
  | [] => []
  | instr :: program =>
    match convert prev instr scratch with
    | .ok (items, scratch') => items.dropLast ++ insertedFrom instr scratch' program
    | .error _ => []

/-- The items that are put between the instructions of a program. -/
def insertedItems (program : List NPUInstruction) (scratchBase : ℤ) : List Item :=
  match program with
  | [] => []
  | instr :: rest => insertedFrom instr scratchBase rest

/-- The ranges that items write. -/
def buffers (items : List Item) : List Span :=
  items.filterMap fun item => item.written.map Access.span

/-! ### The ranges of a program -/

/-- The ranges of the on-chip memory that the descriptors of a chain name. -/
def descriptorSpans (execute : Memory → DMADescriptor → Except Error Memory) :
    ℕ → ℤ → Memory → List Span
  | 0, _, _ => []
  | fuel + 1, addr, mem =>
    match DMADescriptor.decode (wordAt mem.dram addr) with
    | .error _ => []
    | .ok desc =>
      ⟨desc.sramAddr, desc.actualSize⟩ ::
        match execute mem desc with
        | .error _ => []
        | .ok mem' => if desc.last then [] else descriptorSpans execute fuel (addr + 8) mem'

/-- The ranges that an instruction reads in the on-chip memory. -/
def NPUInstruction.readsIn (instr : NPUInstruction) (fuel : ℕ) (mem : Memory) : List Span :=
  match instr.opcode with
  | .dmaStd => descriptorSpans executeStore fuel (instr.operand "sa" 0) mem
  | _ => instr.reads

/-- The ranges that an instruction writes in the on-chip memory. -/
def NPUInstruction.writesIn (instr : NPUInstruction) (fuel : ℕ) (mem : Memory) : List Span :=
  match instr.opcode with
  | .dmaLdd => descriptorSpans executeLoad fuel (instr.operand "sa" 0) mem
  | _ => instr.writes

/-- The ranges that the instructions of a program name one after the other. -/
def rangesAlong (u : Units) (fuel : ℕ) (ranges : NPUInstruction → Memory → List Span) :
    List NPUInstruction → GoldenExecutor → List Span
  | [], _ => []
  | instr :: program, g =>
    ranges instr g.toMemory ++
      match g.step u fuel instr with
      | some (.ok g') => rangesAlong u fuel ranges program g'
      | _ => []

/-- All ranges that a program reads and writes lie below an address. -/
def RangesBelow (u : Units) (fuel : ℕ) (program : List NPUInstruction) (g : GoldenExecutor)
    (scratchBase : ℤ) : Prop :=
  ∀ s ∈ rangesAlong u fuel (fun instr mem => instr.readsIn fuel mem ++ instr.writesIn fuel mem)
    program g, ∀ a, s.Contains a → 0 ≤ a ∧ a < scratchBase

/-- An item never fails. -/
def Runs (u : Units) (item : Item) : Prop :=
  ∀ (fuel : ℕ) (g : GoldenExecutor), ∃ g', g.runItem u fuel item = some (.ok g')

/-- No inserted conversion fails, and what the conversions write lies inside the memory, apart
from each other and from what the program writes. -/
structure ScratchSafe (u : Units) (fuel : ℕ) (program : List NPUInstruction) (scratchBase : ℤ)
    (g : GoldenExecutor) : Prop where
  runs : ∀ item ∈ insertedItems program scratchBase, Runs u item
  inside : ∀ s ∈ buffers (insertedItems program scratchBase), s.Inside
  disjoint : (buffers (insertedItems program scratchBase)).Pairwise Span.Disjoint
  apart : ∀ s ∈ buffers (insertedItems program scratchBase),
    ∀ s' ∈ rangesAlong u fuel (fun instr mem => instr.writesIn fuel mem) program g, s.Disjoint s'

/-- The bytes of scratch region that a pair of instructions takes. -/
def scratchUse (prev instr : NPUInstruction) : ℤ :=
  let length := prev.elementCount
  if Converts prev instr then
    match instr.opcode.inputDtype with
    | some .fp16 => scratchSize (length * 2)
    | some .int32 => scratchSize (length * 4)
    | some .int8 => scratchSize (length * 4) + scratchSize (length * 1)
    | none => 0
  else 0

/-- The bytes that the conversions of a pair write, with the gap between two of them. -/
def scratchNeed (prev instr : NPUInstruction) : ℤ :=
  let length := prev.elementCount
  match instr.opcode.inputDtype with
  | some .fp16 => length * 2
  | some .int32 => length * 4
  | some .int8 => scratchSize (length * 4) + length
  | none => 0

/-- The conversions of a pair stay in the memory, and find their source there. -/
def PairFits (prev instr : NPUInstruction) (scratch : ℤ) : Prop :=
  0 ≤ scratch ∧ 0 ≤ prev.elementCount ∧ scratch + scratchNeed prev instr ≤ sramSize ∧
    ∀ d ∈ prev.opcode.outputDtype, ∀ addr ∈ prev.dstAddr,
      Access.Readable ⟨d, addr, prev.elementCount⟩

/-- The conversions of a program stay in the memory, and find their sources there. -/
def ScratchFitsFrom (prev : NPUInstruction) (scratch : ℤ) : List NPUInstruction → Prop
  | [] => True
  | instr :: program => (Converts prev instr → PairFits prev instr scratch) ∧
    ScratchFitsFrom instr (scratch + scratchUse prev instr) program

/-- The conversions of a program stay in the memory, and find their sources there. -/
def ScratchFits (program : List NPUInstruction) (scratchBase : ℤ) : Prop :=
  match program with
  | [] => True
  | instr :: rest => ScratchFitsFrom instr scratchBase rest

/-! ### One conversion -/

/-- A read of numbers succeeds exactly where the range is readable. -/
theorem exists_read_iff {α : Type} {mem : SRAM} {addr size : ℤ} {width : ℕ} (f : List ℕ → α) :
    (∃ data, (do
      let raw ← mem.readBytes addr size
      let words ← fromBuffer width raw
      return f words : Except Error α) = .ok data) ↔
      addr + size ≤ sramSize ∧ Span.found ⟨addr, size⟩ % width = 0 := by
  by_cases hend : addr + size ≤ sramSize
  · rw [SRAM.readBytes_eq_ok hend, bind_eq_ok_left, fromBuffer, FixedArray.length_slice]
    change (∃ data, (if Span.found ⟨addr, size⟩ % width = 0 then _ else _) >>= _ = _) ↔ _
    by_cases hwidth : Span.found ⟨addr, size⟩ % width = 0
    · rw [if_pos hwidth]
      exact iff_of_true ⟨_, rfl⟩ ⟨hend, hwidth⟩
    · rw [if_neg hwidth]
      refine iff_of_false ?_ fun h => hwidth h.2
      rintro ⟨data, hdata⟩
      cases hdata
  · rw [SRAM.readBytes, if_pos (by omega)]
    refine iff_of_false ?_ fun h => hend h.1
    rintro ⟨data, hdata⟩
    cases hdata

theorem exists_readInt32_iff {mem : SRAM} {addr n : ℤ} :
    (∃ data, mem.readInt32 addr n = .ok data) ↔ Access.Readable ⟨.int32, addr, n⟩ :=
  exists_read_iff _

theorem exists_readFloat16_iff {mem : SRAM} {addr n : ℤ} :
    (∃ data, mem.readFloat16 addr n = .ok data) ↔ Access.Readable ⟨.fp16, addr, n⟩ :=
  exists_read_iff _

theorem length_flatMap_toBytes {α : Type} (width : ℕ) (f : α → ℕ) (data : List α) :
    (data.flatMap fun x => toBytes width (f x)).length = data.length * width := by
  induction data with
  | nil => simp
  | cons x data ih =>
    rw [List.flatMap_cons, List.length_append, ih, length_toBytes, List.length_cons, Nat.succ_mul,
      Nat.add_comm]

/-- Numbers are written into a range inside the memory. -/
theorem exists_writeInt32 (mem : SRAM) {addr : ℤ} (data : List Int32) (h0 : 0 ≤ addr)
    (h : addr + data.length * 4 ≤ sramSize) : ∃ mem', mem.writeInt32 addr data = .ok mem' := by
  refine ⟨_, SRAM.writeBytes_eq_ok h0 ?_⟩
  rw [length_flatMap_toBytes]
  omega

theorem exists_writeFloat16 (mem : SRAM) {addr : ℤ} (data : List UInt16) (h0 : 0 ≤ addr)
    (h : addr + data.length * 2 ≤ sramSize) : ∃ mem', mem.writeFloat16 addr data = .ok mem' := by
  refine ⟨_, SRAM.writeBytes_eq_ok h0 ?_⟩
  rw [length_flatMap_toBytes]
  omega

theorem exists_writeInt8 (mem : SRAM) {addr : ℤ} (data : List Int8) (h0 : 0 ≤ addr)
    (h : addr + data.length ≤ sramSize) : ∃ mem', mem.writeInt8 addr data = .ok mem' := by
  refine ⟨_, SRAM.writeBytes_eq_ok h0 ?_⟩
  rw [List.length_map]
  omega

/-- An instruction that reads no descriptors runs when its operation does. -/
theorem exists_runItem_iff {u : Units} {fuel : ℕ} {instr : NPUInstruction} {g : GoldenExecutor}
    (h : execute u fuel instr g.toMemory =
      some ((executeOp u instr g.toMemory).mapError fun e => (e, g.toMemory, 0))) :
    (∃ g', g.runItem u fuel (.instr instr) = some (.ok g')) ↔
      ∃ r, executeOp u instr g.toMemory = .ok r := by
  rw [GoldenExecutor.runItem, GoldenExecutor.step, h]
  cases executeOp u instr g.toMemory with
  | error e =>
    refine iff_of_false ?_ ?_
    · rintro ⟨g', hg'⟩
      cases hg'
    · rintro ⟨r, hr⟩
      cases hr
  | ok r => exact iff_of_true ⟨_, rfl⟩ ⟨r, rfl⟩

section Conversions

variable {u : Units} {src dst length : ℤ}

/-- A conversion to floats runs if its buffer lies in the memory, and finds its source. -/
theorem runs_vconv_iff (hlength : 0 ≤ length) (hdst : 0 ≤ dst) (hend : dst + length * 2 ≤ sramSize) :
    Runs u (.instr (conversion .vconv src dst length)) ↔ Access.Readable ⟨.int32, src, length⟩ := by
  have hop : ∀ mem : Memory, executeOp u (conversion .vconv src dst length) mem = (do
      let inp ← mem.sram.readInt32 src length
      let sram ← mem.sram.writeFloat16 dst (inp.map u.convI32ToF16)
      return ({ mem with sram }, length / 128 + 2)) := fun _ => rfl
  constructor
  · intro h
    obtain ⟨r, hr⟩ := (exists_runItem_iff rfl).mp (h 0 GoldenExecutor.init)
    rw [hop] at hr
    obtain ⟨inp, hinp, -⟩ := bind_eq_ok.mp hr
    exact exists_readInt32_iff.mp ⟨inp, hinp⟩
  · intro hread fuel g
    obtain ⟨inp, hinp⟩ : ∃ inp, g.sram.readInt32 src length = .ok inp :=
      exists_readInt32_iff.mpr hread
    have hcount : (inp.length : ℤ) ≤ length := by
      rw [length_readInt32 hinp]
      exact Access.found_le hlength
    obtain ⟨sram, hsram⟩ := exists_writeFloat16 g.sram (inp.map u.convI32ToF16) hdst (by
      rw [List.length_map]
      omega)
    refine (exists_runItem_iff rfl).mpr ?_
    rw [hop, hinp, bind_eq_ok_left, hsram]
    exact ⟨_, rfl⟩

/-- A conversion to integers runs if its buffer lies in the memory, and finds its source. -/
theorem runs_vconvF16I32_iff (hlength : 0 ≤ length) (hdst : 0 ≤ dst)
    (hend : dst + length * 4 ≤ sramSize) :
    Runs u (.instr (conversion .vconvF16I32 src dst length)) ↔
      Access.Readable ⟨.fp16, src, length⟩ := by
  have hop : ∀ mem : Memory, executeOp u (conversion .vconvF16I32 src dst length) mem = (do
      let inp ← mem.sram.readFloat16 src length
      let sram ← mem.sram.writeInt32 dst (inp.map u.convF16ToI32)
      return ({ mem with sram }, length / 128 + 2)) := fun _ => rfl
  constructor
  · intro h
    obtain ⟨r, hr⟩ := (exists_runItem_iff rfl).mp (h 0 GoldenExecutor.init)
    rw [hop] at hr
    obtain ⟨inp, hinp, -⟩ := bind_eq_ok.mp hr
    exact exists_readFloat16_iff.mp ⟨inp, hinp⟩
  · intro hread fuel g
    obtain ⟨inp, hinp⟩ : ∃ inp, g.sram.readFloat16 src length = .ok inp :=
      exists_readFloat16_iff.mpr hread
    have hcount : (inp.length : ℤ) ≤ length := by
      rw [length_readFloat16 hinp]
      exact Access.found_le hlength
    obtain ⟨sram, hsram⟩ := exists_writeInt32 g.sram (inp.map u.convF16ToI32) hdst (by
      rw [List.length_map]
      omega)
    refine (exists_runItem_iff rfl).mpr ?_
    rw [hop, hinp, bind_eq_ok_left, hsram]
    exact ⟨_, rfl⟩

/-- A rewrite to 8 bits runs between two buffers in the memory. -/
theorem runs_int8Clip (hlength : 0 ≤ length) (hsrc : 0 ≤ src) (hsrc' : src + length * 4 ≤ sramSize)
    (hdst : 0 ≤ dst) (hdst' : dst + length ≤ sramSize) : Runs u (.int8Clip src dst length) := by
  intro fuel g
  have hfound : (Span.found ⟨src, length * (4 : ℕ)⟩ : ℤ) = length * 4 := by
    unfold Span.found
    rw [sliceBound_of_nonneg hsrc, sliceBound_of_nonneg (by dsimp only; omega)]
    dsimp only
    omega
  obtain ⟨data, hdata⟩ : ∃ data, g.sram.readInt32 src length = .ok data := by
    refine exists_readInt32_iff.mpr ⟨hsrc', ?_⟩
    change Span.found ⟨src, length * (4 : ℕ)⟩ % 4 = 0
    omega
  have hcount : (data.length : ℤ) = length := by
    rw [length_readInt32 hdata]
    change ((Span.found ⟨src, length * (4 : ℕ)⟩ / 4 : ℕ) : ℤ) = length
    omega
  obtain ⟨sram, hsram⟩ := exists_writeInt8 g.sram (data.map clipInt8) hdst (by
    rw [List.length_map]
    omega)
  have hclip : int8Clip g.toMemory src dst length = .ok { g.toMemory with sram } := by
    rw [int8Clip, hdata, bind_eq_ok_left, hsram]
    rfl
  refine ⟨{ g with sram }, ?_⟩
  rw [GoldenExecutor.runItem, hclip]

end Conversions

theorem le_scratchSize (bytes : ℤ) : bytes ≤ scratchSize bytes := by
  unfold scratchSize
  omega

/-! ### All conversions -/

/-- The conversions of a pair run inside the memory exactly when they fit. -/
theorem Expands.safe_iff {u : Units} {prev instr executed : NPUInstruction}
    {scratch scratch' : ℤ} {inserted : List Item}
    (h : Expands prev instr scratch inserted executed scratch') (hconverts : Converts prev instr) :
    ((∀ item ∈ inserted, Runs u item) ∧ ∀ s ∈ buffers inserted, s.Inside) ↔
      PairFits prev instr scratch := by
  have hblock := le_scratchSize (prev.elementCount * 4)
  unfold PairFits scratchNeed
  cases h with
  | matched hnot => exact absurd hconverts hnot
  | toFloat dst hdst hout hin =>
    have hbuffers : buffers [.instr (conversion .vconv dst scratch prev.elementCount)] =
        [⟨scratch, prev.elementCount * (2 : ℕ)⟩] := rfl
    rw [hbuffers, List.forall_mem_singleton, List.forall_mem_singleton, hout, hin, hdst]
    simp only [Option.mem_def, Option.some_inj, forall_eq']
    constructor
    · rintro ⟨hruns, h0, hsize, hend⟩
      dsimp only at h0 hsize hend
      have hlength : 0 ≤ prev.elementCount := by omega
      exact ⟨h0, hlength, hend, (runs_vconv_iff hlength h0 hend).mp hruns⟩
    · rintro ⟨h0, hlength, hend, hread⟩
      refine ⟨(runs_vconv_iff hlength h0 hend).mpr hread, h0, ?_, hend⟩
      dsimp only
      omega
  | toInt32 dst hdst hout hin =>
    have hbuffers : buffers [.instr (conversion .vconvF16I32 dst scratch prev.elementCount)] =
        [⟨scratch, prev.elementCount * (4 : ℕ)⟩] := rfl
    rw [hbuffers, List.forall_mem_singleton, List.forall_mem_singleton, hout, hin, hdst]
    simp only [Option.mem_def, Option.some_inj, forall_eq']
    constructor
    · rintro ⟨hruns, h0, hsize, hend⟩
      dsimp only at h0 hsize hend
      have hlength : 0 ≤ prev.elementCount := by omega
      exact ⟨h0, hlength, hend, (runs_vconvF16I32_iff hlength h0 hend).mp hruns⟩
    · rintro ⟨h0, hlength, hend, hread⟩
      refine ⟨(runs_vconvF16I32_iff hlength h0 hend).mpr hread, h0, ?_, hend⟩
      dsimp only
      omega
  | toInt8 dst hdst hout hin =>
    have hbuffers : buffers [.instr (conversion .vconvF16I32 dst scratch prev.elementCount),
        .int8Clip scratch (scratch + scratchSize (prev.elementCount * 4)) prev.elementCount] =
        [⟨scratch, prev.elementCount * (4 : ℕ)⟩,
          ⟨scratch + scratchSize (prev.elementCount * 4), prev.elementCount * (1 : ℕ)⟩] := rfl
    rw [hbuffers, List.forall_mem_cons, List.forall_mem_singleton, List.forall_mem_cons,
      List.forall_mem_singleton, hout, hin, hdst]
    simp only [Option.mem_def, Option.some_inj, forall_eq']
    constructor
    · rintro ⟨⟨hruns, -⟩, ⟨h0, hsize, hend⟩, -, -, hend'⟩
      dsimp only at h0 hsize hend hend'
      have hlength : 0 ≤ prev.elementCount := by omega
      exact ⟨h0, hlength, by omega, (runs_vconvF16I32_iff hlength h0 hend).mp hruns⟩
    · rintro ⟨h0, hlength, hend, hread⟩
      have hend' : scratch + prev.elementCount * 4 ≤ sramSize := by omega
      refine ⟨⟨(runs_vconvF16I32_iff hlength h0 hend').mpr hread,
        runs_int8Clip hlength h0 hend' (by omega) (by omega)⟩, ⟨h0, ?_, hend'⟩, ?_, ?_, ?_⟩ <;>
      · dsimp only
        omega

/-- Something is inserted exactly where a conversion is needed. -/
theorem Expands.converts_iff {prev instr executed : NPUInstruction} {scratch scratch' : ℤ}
    {inserted : List Item} (h : Expands prev instr scratch inserted executed scratch') :
    Converts prev instr ↔ inserted ≠ [] := by
  have hconverts : ∀ {out input : Dtype}, prev.opcode.outputDtype = some out →
      instr.opcode.inputDtype = some input → out ≠ input → Converts prev instr := by
    intro out input hout hin hne
    rw [Converts, hout, hin]
    exact ⟨rfl, rfl, fun heq => hne (Option.some_inj.mp heq)⟩
  cases h with
  | matched hnot => exact iff_of_false hnot fun h => h rfl
  | toFloat dst hdst hout hin =>
    exact iff_of_true (hconverts hout hin (by decide)) (List.cons_ne_nil _ _)
  | toInt32 dst hdst hout hin =>
    exact iff_of_true (hconverts hout hin (by decide)) (List.cons_ne_nil _ _)
  | toInt8 dst hdst hout hin =>
    exact iff_of_true (hconverts hout hin (by decide)) (List.cons_ne_nil _ _)

theorem Expands.scratch_eq {prev instr executed : NPUInstruction} {scratch scratch' : ℤ}
    {inserted : List Item} (h : Expands prev instr scratch inserted executed scratch') :
    scratch' = scratch + scratchUse prev instr := by
  have hconverts := h.converts_iff
  unfold scratchUse
  cases h with
  | matched hnot => rw [if_neg hnot, add_zero]
  | toFloat dst hdst hout hin => rw [if_pos (hconverts.mpr (List.cons_ne_nil _ _)), hin]
  | toInt32 dst hdst hout hin => rw [if_pos (hconverts.mpr (List.cons_ne_nil _ _)), hin]
  | toInt8 dst hdst hout hin =>
    rw [if_pos (hconverts.mpr (List.cons_ne_nil _ _)), hin]
    exact add_assoc _ _ _

theorem Span.disjoint_of_le {s s' : Span} (h : s.lo + s.size ≤ s'.lo) : s.Disjoint s' := by
  intro a ha ha'
  obtain ⟨-, hhi⟩ := ha
  obtain ⟨hlo, -⟩ := ha'
  omega

/-- The conversions of a pair write into their own part of the region. -/
theorem Expands.buffers_within {prev instr executed : NPUInstruction} {scratch scratch' : ℤ}
    {inserted : List Item} (h : Expands prev instr scratch inserted executed scratch')
    (hlength : inserted ≠ [] → 0 ≤ prev.elementCount) :
    scratch ≤ scratch' ∧ (∀ s ∈ buffers inserted, scratch ≤ s.lo ∧ s.lo + s.size ≤ scratch') ∧
      (buffers inserted).Pairwise Span.Disjoint := by
  cases h with
  | matched hnot => exact ⟨le_rfl, List.forall_mem_nil _, .nil⟩
  | toFloat dst hdst hout hin =>
    have hcount := hlength (List.cons_ne_nil _ _)
    have hblock := le_scratchSize (prev.elementCount * 2)
    have hbuffers : buffers [.instr (conversion .vconv dst scratch prev.elementCount)] =
        [⟨scratch, prev.elementCount * (2 : ℕ)⟩] := rfl
    rw [hbuffers, List.forall_mem_singleton]
    refine ⟨by omega, ⟨le_rfl, ?_⟩, List.pairwise_singleton _ _⟩
    dsimp only
    omega
  | toInt32 dst hdst hout hin =>
    have hcount := hlength (List.cons_ne_nil _ _)
    have hblock := le_scratchSize (prev.elementCount * 4)
    have hbuffers : buffers [.instr (conversion .vconvF16I32 dst scratch prev.elementCount)] =
        [⟨scratch, prev.elementCount * (4 : ℕ)⟩] := rfl
    rw [hbuffers, List.forall_mem_singleton]
    refine ⟨by omega, ⟨le_rfl, ?_⟩, List.pairwise_singleton _ _⟩
    dsimp only
    omega
  | toInt8 dst hdst hout hin =>
    have hcount := hlength (List.cons_ne_nil _ _)
    have hblock := le_scratchSize (prev.elementCount * 4)
    have hblock' := le_scratchSize (prev.elementCount * 1)
    have hbuffers : buffers [.instr (conversion .vconvF16I32 dst scratch prev.elementCount),
        .int8Clip scratch (scratch + scratchSize (prev.elementCount * 4)) prev.elementCount] =
        [⟨scratch, prev.elementCount * (4 : ℕ)⟩,
          ⟨scratch + scratchSize (prev.elementCount * 4), prev.elementCount * (1 : ℕ)⟩] := rfl
    rw [hbuffers, List.forall_mem_cons, List.forall_mem_singleton, List.pairwise_pair]
    refine ⟨by omega, ⟨⟨le_rfl, ?_⟩, ?_, ?_⟩, Span.disjoint_of_le ?_⟩ <;>
    · dsimp only
      omega

theorem buffers_append (items items' : List Item) :
    buffers (items ++ items') = buffers items ++ buffers items' :=
  List.filterMap_append

section Program

variable {u : Units} {prev : NPUInstruction} {scratch : ℤ} {program : List NPUInstruction}
  {items : List Item}

theorem insertedFrom_eq {instr executed : NPUInstruction} {inserted : List Item} {scratch' : ℤ}
    (h : convert prev instr scratch = .ok (inserted ++ [.instr executed], scratch')) :
    insertedFrom prev scratch (instr :: program) =
      inserted ++ insertedFrom instr scratch' program := by
  rw [insertedFrom, h]
  dsimp only
  rw [List.dropLast_concat]

/-- The inserted conversions run inside the memory exactly when they fit. -/
theorem insertedFrom_safe_iff (h : convertFrom prev scratch program = .ok items) :
    ((∀ item ∈ insertedFrom prev scratch program, Runs u item) ∧
        ∀ s ∈ buffers (insertedFrom prev scratch program), s.Inside) ↔
      ScratchFitsFrom prev scratch program := by
  induction program generalizing prev scratch items with
  | nil => exact iff_of_true ⟨List.forall_mem_nil _, List.forall_mem_nil _⟩ trivial
  | cons instr program ih =>
    obtain ⟨r, hconvert, h⟩ := bind_eq_ok.mp h
    obtain ⟨rest, hrest, -⟩ := bind_eq_ok.mp h
    obtain ⟨inserted, executed, heq, hexpands⟩ := exists_expands hconvert
    rw [← Prod.eta r, heq] at hconvert
    rw [insertedFrom_eq hconvert, ScratchFitsFrom, ← hexpands.scratch_eq, ← ih hrest,
      buffers_append, List.forall_mem_append, List.forall_mem_append]
    have hpair : ((∀ item ∈ inserted, Runs u item) ∧ ∀ s ∈ buffers inserted, s.Inside) ↔
        (Converts prev instr → PairFits prev instr scratch) := by
      by_cases hconverts : Converts prev instr
      · rw [hexpands.safe_iff hconverts, forall_prop_of_true hconverts]
      · obtain rfl : inserted = [] := not_not.mp fun hne => hconverts (hexpands.converts_iff.mpr hne)
        exact iff_of_true ⟨List.forall_mem_nil _, List.forall_mem_nil _⟩
          fun h => absurd h hconverts
    rw [← hpair]
    tauto

/-- The conversions write behind each other. -/
theorem insertedFrom_within (h : convertFrom prev scratch program = .ok items)
    (hfits : ScratchFitsFrom prev scratch program) :
    (∀ s ∈ buffers (insertedFrom prev scratch program), scratch ≤ s.lo) ∧
      (buffers (insertedFrom prev scratch program)).Pairwise Span.Disjoint := by
  induction program generalizing prev scratch items with
  | nil => exact ⟨List.forall_mem_nil _, .nil⟩
  | cons instr program ih =>
    obtain ⟨r, hconvert, h⟩ := bind_eq_ok.mp h
    obtain ⟨rest, hrest, -⟩ := bind_eq_ok.mp h
    obtain ⟨inserted, executed, heq, hexpands⟩ := exists_expands hconvert
    rw [← Prod.eta r, heq] at hconvert
    obtain ⟨hpair, hfits⟩ := hfits
    rw [← hexpands.scratch_eq] at hfits
    obtain ⟨hlo, hdisjoint⟩ := ih hrest hfits
    have hlength : inserted ≠ [] → 0 ≤ prev.elementCount := fun hne =>
      (hpair (hexpands.converts_iff.mpr hne)).2.1
    obtain ⟨hle, hwithin, hown⟩ := hexpands.buffers_within hlength
    rw [insertedFrom_eq hconvert, buffers_append, List.forall_mem_append, List.pairwise_append]
    refine ⟨⟨fun s hs => (hwithin s hs).1, fun s hs => hle.trans (hlo s hs)⟩, hown, hdisjoint,
      fun s hs s' hs' => Span.disjoint_of_le ((hwithin s hs).2.trans (hlo s' hs'))⟩

end Program

/-- The ranges that a program writes are among those that lie below the scratch region. -/
theorem rangesAlong_subset {u : Units} {fuel : ℕ} {ranges ranges' : NPUInstruction → Memory → List Span}
    (h : ∀ instr mem, ranges instr mem ⊆ ranges' instr mem) (program : List NPUInstruction)
    (g : GoldenExecutor) :
    rangesAlong u fuel ranges program g ⊆ rangesAlong u fuel ranges' program g := by
  induction program generalizing g with
  | nil => exact List.Subset.refl _
  | cons instr program ih =>
    rw [rangesAlong, rangesAlong]
    refine List.append_subset.mpr ⟨List.subset_append_of_subset_left _ (h instr g.toMemory),
      List.subset_append_of_subset_right _ ?_⟩
    cases g.step u fuel instr with
    | none => exact List.Subset.refl _
    | some r =>
      cases r with
      | error e => exact List.Subset.refl _
      | ok g' => exact ih g'

/-- For a program whose ranges lie below the scratch region, the conversions are safe exactly
when their buffers lie in the memory and their sources are found there. -/
theorem scratchSafe_iff {u : Units} {fuel : ℕ} {program : List NPUInstruction} {scratchBase : ℤ}
    {g : GoldenExecutor} {items : List Item}
    (hitems : insertDtypeConverters program scratchBase = .ok items)
    (hbelow : RangesBelow u fuel program g scratchBase) :
    ScratchSafe u fuel program scratchBase g ↔ ScratchFits program scratchBase := by
  have hwrites : ∀ s' ∈ rangesAlong u fuel (fun instr mem => instr.writesIn fuel mem) program g,
      ∀ a, s'.Contains a → a < scratchBase := fun s' hs' a ha =>
    (hbelow s' (rangesAlong_subset (fun _ _ => List.subset_append_right _ _) program g hs') a ha).2
  cases program with
  | nil =>
    exact iff_of_true ⟨List.forall_mem_nil _, List.forall_mem_nil _, .nil, List.forall_mem_nil _⟩
      trivial
  | cons instr program =>
    obtain ⟨rest, hrest, -⟩ := bind_eq_ok.mp hitems
    have hsafe := insertedFrom_safe_iff (u := u) hrest
    constructor
    · exact fun h => hsafe.mp ⟨h.runs, h.inside⟩
    · intro hfits
      obtain ⟨hruns, hinside⟩ := hsafe.mpr hfits
      obtain ⟨hlo, hdisjoint⟩ := insertedFrom_within hrest hfits
      refine ⟨hruns, hinside, hdisjoint, fun s hs s' hs' a ha ha' => ?_⟩
      have hbase := hlo s hs
      have hbelow := hwrites s' hs' a ha'
      obtain ⟨ha, -⟩ := ha
      omega

theorem exists_of_mem_rangesAlong {u : Units} {fuel : ℕ}
    {ranges : NPUInstruction → Memory → List Span} {program : List NPUInstruction}
    {g : GoldenExecutor} {s : Span} (h : s ∈ rangesAlong u fuel ranges program g) :
    ∃ instr ∈ program, ∃ mem, s ∈ ranges instr mem := by
  induction program generalizing g with
  | nil => cases h
  | cons instr program ih =>
    rw [rangesAlong, List.mem_append] at h
    rcases h with h | h
    · exact ⟨instr, List.mem_cons_self, g.toMemory, h⟩
    · cases hstep : g.step u fuel instr with
      | none =>
        rw [hstep] at h
        cases h
      | some r =>
        cases r with
        | error e =>
          rw [hstep] at h
          cases h
        | ok g' =>
          rw [hstep] at h
          obtain ⟨i, hi, hmem⟩ := ih h
          exact ⟨i, List.mem_cons_of_mem _ hi, hmem⟩

/-- A sum that is converted twice. -/
def sumReluSum : List NPUInstruction :=
  sumThenRelu ++ [{ opcode := .vadd, operands := .ofList [("sa", 128), ("da", 192), ("len", 1)] }]

/-- An instruction without descriptors names its ranges in its operands. -/
theorem readsIn_append_writesIn {instr : NPUInstruction}
    (h : instr.opcode ≠ .dmaLdd ∧ instr.opcode ≠ .dmaStd) (fuel : ℕ) (mem : Memory) :
    instr.readsIn fuel mem ++ instr.writesIn fuel mem = instr.reads ++ instr.writes := by
  unfold NPUInstruction.readsIn NPUInstruction.writesIn
  cases hop : instr.opcode <;> first | rfl | exact absurd hop h.1 | exact absurd hop h.2

theorem rangesBelow_sumReluSum {scratchBase : ℤ} (hbase : 256 ≤ scratchBase) (g : GoldenExecutor) :
    RangesBelow exampleUnits 0 sumReluSum g scratchBase := by
  have hall : ∀ instr ∈ sumReluSum, (instr.opcode ≠ .dmaLdd ∧ instr.opcode ≠ .dmaStd) ∧
      ∀ s ∈ instr.reads ++ instr.writes, 0 ≤ s.lo ∧ s.lo + s.size ≤ 256 := by decide
  intro s hs a ha
  obtain ⟨instr, hinstr, mem, hs⟩ := exists_of_mem_rangesAlong hs
  obtain ⟨hop, hspans⟩ := hall instr hinstr
  rw [readsIn_append_writesIn hop] at hs
  obtain ⟨hlo, hhi⟩ := hspans s hs
  obtain ⟨ha, ha'⟩ := ha
  omega

instance (prev instr : NPUInstruction) (scratch : ℤ) : Decidable (PairFits prev instr scratch) :=
  inferInstanceAs (Decidable (_ ∧ _ ∧ _ ∧ ∀ d ∈ prev.opcode.outputDtype, ∀ addr ∈ prev.dstAddr,
    Access.Readable ⟨d, addr, prev.elementCount⟩))

/-- Two conversions in the region of the code. -/
theorem sumReluSum_scratchSafe :
    ScratchSafe exampleUnits 0 sumReluSum 0x380000 GoldenExecutor.init := by
  obtain ⟨items, hitems⟩ : ∃ items, insertDtypeConverters sumReluSum 0x380000 = .ok items :=
    ⟨_, rfl⟩
  have hfits : ScratchFits sumReluSum 0x380000 :=
    ⟨fun _ => by decide +kernel, fun _ => by decide +kernel, trivial⟩
  exact (scratchSafe_iff hitems (rangesBelow_sumReluSum (by decide) _)).mpr hfits

/-- In a region of one block at the end of the memory, the second conversion leaves it. -/
theorem sumReluSum_not_scratchSafe :
    ¬∀ (u : Units) (fuel : ℕ) (program : List NPUInstruction) (scratchBase : ℤ)
      (g g' : GoldenExecutor) (items : List Item),
      g.executeProgram u fuel program = some (.ok g') →
      insertDtypeConverters program scratchBase = .ok items →
      RangesBelow u fuel program g scratchBase → ScratchSafe u fuel program scratchBase g := by
  intro h
  have hrun : byteAfter (GoldenExecutor.init.executeProgram exampleUnits 0 sumReluSum) 0 =
      some 0 := by decide +kernel
  obtain ⟨g', hrun, -⟩ := exists_of_byteAfter hrun
  obtain ⟨items, hitems⟩ : ∃ items, insertDtypeConverters sumReluSum 0x3FFFC0 = .ok items :=
    ⟨_, rfl⟩
  have hbelow := rangesBelow_sumReluSum (show 256 ≤ (0x3FFFC0 : ℤ) by decide) GoldenExecutor.init
  have hfits := (scratchSafe_iff hitems hbelow).mp
    (h exampleUnits 0 sumReluSum 0x3FFFC0 GoldenExecutor.init g' items hrun hitems hbelow)
  exact absurd (hfits.2.1 (by decide)) (by decide +kernel)

end Core

end NpuArc
