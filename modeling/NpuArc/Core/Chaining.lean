import NpuArc.Core.NoEffects
import NpuArc.Core.Ranges

/-!
# Chained operands

An instruction whose type fits that of the instruction before it is left alone by the
expansion, and any other one is led to a converted copy of the result before it. The elements
that arrive there are those that were written only if the tables of types, the destination and
the length that the expansion assumes are those of the execution.
-/

namespace NpuArc

namespace Core

/-! ### Programs that are left alone -/

/-- No instruction reads another type than the one before it has written. -/
def Matched (program : List NPUInstruction) : Prop :=
  program.IsChain fun prev instr => ¬Converts prev instr

instance (program : List NPUInstruction) : Decidable (Matched program) :=
  inferInstanceAs (Decidable (List.IsChain _ _))

/-- Such a program is its own expansion. -/
theorem convertFrom_of_matched {prev : NPUInstruction} {program : List NPUInstruction}
    {scratch : ℤ} (h : Matched (prev :: program)) :
    convertFrom prev scratch program = .ok (program.map .instr) := by
  induction program generalizing prev with
  | nil => rfl
  | cons instr program ih =>
    obtain ⟨hfirst, hrest⟩ := List.isChain_cons_cons.mp h
    rw [convertFrom_of_not_converts hfirst, ih hrest]
    rfl

theorem insertDtypeConverters_of_matched {program : List NPUInstruction} (h : Matched program)
    (scratchBase : ℤ) : insertDtypeConverters program scratchBase = .ok (program.map .instr) := by
  cases program with
  | nil => rfl
  | cons instr program =>
    rw [insertDtypeConverters, convertFrom_of_matched h]
    rfl

/-- Items that are instructions run as their program. -/
theorem runItems_map_instr (u : Units) (fuel : ℕ) (program : List NPUInstruction)
    (g : GoldenExecutor) :
    g.runItems u fuel (program.map .instr) = g.executeProgram u fuel program := by
  induction program generalizing g with
  | nil => rfl
  | cons instr program ih =>
    rw [List.map_cons, GoldenExecutor.runItems, GoldenExecutor.executeProgram,
      GoldenExecutor.runItem]
    cases g.step u fuel instr with
    | none => rfl
    | some r =>
      cases r with
      | error e => rfl
      | ok g' => exact ih g'

/-- A program in which no instruction reads another type than the one before it has written
runs as it does without automatic conversions. -/
theorem runOpChain_eq_executeProgram {program : List NPUInstruction} (h : Matched program)
    (u : Units) (fuel : ℕ) (scratchBase : ℤ) (g : GoldenExecutor) :
    g.runOpChain u fuel program scratchBase = g.executeProgram u fuel program := by
  rw [GoldenExecutor.runOpChain, insertDtypeConverters_of_matched h]
  exact runItems_map_instr u fuel program g

/-- A sum that is multiplied. -/
def sumThenProduct : List NPUInstruction :=
  [{ opcode := .vadd, operands := .ofList [("len", 1), ("da", 64)] },
    { opcode := .vmul, operands := .ofList [("sa", 64), ("len", 1), ("da", 128)] }]

/-- A sum that is multiplied needs no conversion. -/
theorem sumThenProduct_matched :
    GoldenExecutor.init.runOpChain exampleUnits 0 sumThenProduct 0x380000 =
      GoldenExecutor.init.executeProgram exampleUnits 0 sumThenProduct :=
  runOpChain_eq_executeProgram (by decide) exampleUnits 0 0x380000 GoldenExecutor.init

/-- An instruction reads nothing that the one before it writes. -/
def Independent (prev instr : NPUInstruction) : Prop :=
  ∀ s ∈ instr.reads, ∀ s' ∈ prev.writes, s.Disjoint s'

/-- A sum, and a float elsewhere that is rectified. -/
def sumBesideRelu : List NPUInstruction :=
  [{ opcode := .vadd, operands := .ofList [("sa", 64), ("da", 128), ("len", 1)] },
    { opcode := .relu, operands := .ofList [("sa", 256), ("da", 512), ("len", 1)] }]

theorem sumBesideRelu_independent : sumBesideRelu.IsChain Independent := by
  refine List.isChain_cons_cons.mpr ⟨?_, .singleton _⟩
  intro s hs s' hs' a ha ha'
  obtain rfl : s = ⟨256, 2⟩ := List.mem_singleton.mp hs
  obtain rfl : s' = ⟨128, 4⟩ := List.mem_singleton.mp hs'
  obtain ⟨hlo, -⟩ := ha
  obtain ⟨-, hhi⟩ := ha'
  dsimp only at hlo hhi
  omega

theorem head_slice {n a : ℕ} (m : FixedArray n UInt8) (h : a < n) :
    (m.slice a (a + 1)).head? = some (m ⟨a, h⟩) := by
  have ha : sliceBound n a = a := by
    rw [sliceBound_of_nonneg (by omega)]
    omega
  have hb : sliceBound n (a + 1) = a + 1 := by
    rw [sliceBound_of_nonneg (by omega)]
    omega
  rw [List.head?_eq_getElem?, FixedArray.getElem?_slice m (by omega)]
  congr 2
  rw [Fin.mk.injEq]
  omega

/-- A core with the float one at its place. -/
def floatOne : GoldenExecutor :=
  { GoldenExecutor.init with sram := GoldenExecutor.init.sram.overwrite 257 [0x3C] }

/-- An instruction is led away from its own operand, although it reads nothing that the one
before it has written. -/
theorem independent_not_preserved :
    ¬∀ (u : Units) (fuel : ℕ) (program : List NPUInstruction) (scratchBase : ℤ)
      (g g₁ g₂ : GoldenExecutor),
      (∀ instr ∈ program, instr.opcode ≠ .dmaLdd ∧ instr.opcode ≠ .dmaStd) →
      program.IsChain Independent →
      g.executeProgram u fuel program = some (.ok g₁) →
      g.runOpChain u fuel program scratchBase = some (.ok g₂) →
      g₂.dram = g₁.dram ∧ ∀ a : Fin sramSize, (a : ℤ) < scratchBase → g₂.sram a = g₁.sram a := by
  intro h
  have hrun : byteAfter (floatOne.executeProgram exampleUnits 0 sumBesideRelu) 513 = some 0x3C := by
    decide +kernel
  have hchain : byteAfter (floatOne.runOpChain exampleUnits 0 sumBesideRelu 0x380000) 513 =
      some 0 := by decide +kernel
  obtain ⟨g₁, hrun, hbyte₁⟩ := exists_of_byteAfter hrun
  obtain ⟨g₂, hchain, hbyte₂⟩ := exists_of_byteAfter hchain
  have hequal := (h exampleUnits 0 sumBesideRelu 0x380000 floatOne g₁ g₂ (by decide)
    sumBesideRelu_independent hrun hchain).2 ⟨513, by decide⟩ (by decide)
  rw [head_slice _ (by decide)] at hbyte₁ hbyte₂
  rw [hequal, hbyte₁] at hbyte₂
  exact absurd (Option.some_inj.mp hbyte₂) (by decide)

/-! ### The conversions of a pair -/

/-- What a conversion that succeeds puts before an instruction, and the instruction with its
source replaced. -/
inductive Expands (prev instr : NPUInstruction) (scratch : ℤ) :
    List Item → NPUInstruction → ℤ → Prop
  | matched (h : ¬Converts prev instr) : Expands prev instr scratch [] instr scratch
  | toFloat (dst : ℤ) (hdst : prev.dstAddr = some dst)
      (hout : prev.opcode.outputDtype = some .int32) (hin : instr.opcode.inputDtype = some .fp16) :
      Expands prev instr scratch [.instr (conversion .vconv dst scratch prev.elementCount)]
        (instr.setSrcAddr scratch) (scratch + scratchSize (prev.elementCount * 2))
  | toInt32 (dst : ℤ) (hdst : prev.dstAddr = some dst)
      (hout : prev.opcode.outputDtype = some .fp16) (hin : instr.opcode.inputDtype = some .int32) :
      Expands prev instr scratch [.instr (conversion .vconvF16I32 dst scratch prev.elementCount)]
        (instr.setSrcAddr scratch) (scratch + scratchSize (prev.elementCount * 4))
  | toInt8 (dst : ℤ) (hdst : prev.dstAddr = some dst)
      (hout : prev.opcode.outputDtype = some .fp16) (hin : instr.opcode.inputDtype = some .int8) :
      Expands prev instr scratch
        [.instr (conversion .vconvF16I32 dst scratch prev.elementCount),
          .int8Clip scratch (scratch + scratchSize (prev.elementCount * 4)) prev.elementCount]
        (instr.setSrcAddr (scratch + scratchSize (prev.elementCount * 4)))
        (scratch + scratchSize (prev.elementCount * 4) + scratchSize (prev.elementCount * 1))

/-- Every conversion that succeeds is one of these. -/
theorem exists_expands {prev instr : NPUInstruction} {scratch scratch' : ℤ} {items : List Item}
    (h : convert prev instr scratch = .ok (items, scratch')) :
    ∃ inserted executed, items = inserted ++ [.instr executed] ∧
      Expands prev instr scratch inserted executed scratch' := by
  by_cases hconverts : Converts prev instr
  · obtain ⟨hout, hin, hne⟩ := hconverts
    obtain ⟨out, hout⟩ := Option.isSome_iff_exists.mp hout
    obtain ⟨input, hin⟩ := Option.isSome_iff_exists.mp hin
    rw [hout, hin, ne_eq, Option.some_inj] at hne
    rw [convert, hout, hin] at h
    dsimp only at h
    rw [if_neg hne] at h
    cases hdst : prev.dstAddr with
    | none =>
      rw [hdst] at h
      cases h
    | some dst =>
      rw [hdst] at h
      cases out <;> cases input <;> cases h
      · exact ⟨[_], _, rfl, .toFloat dst hdst hout hin⟩
      · exact ⟨[_, _], _, rfl, .toInt8 dst hdst hout hin⟩
      · exact ⟨[_], _, rfl, .toInt32 dst hdst hout hin⟩
  · rw [convert_of_not_converts hconverts] at h
    cases h
    exact ⟨[], _, rfl, .matched hconverts⟩

theorem expands_of_convert {prev instr executed : NPUInstruction} {scratch scratch' : ℤ}
    {inserted : List Item}
    (h : convert prev instr scratch = .ok (inserted ++ [.instr executed], scratch')) :
    Expands prev instr scratch inserted executed scratch' := by
  obtain ⟨inserted', executed', heq, hexpands⟩ := exists_expands h
  obtain ⟨rfl, hlast⟩ := List.append_inj' heq rfl
  cases hlast
  exact hexpands

/-- A result that the next instruction may take as its chained operand. -/
def Typed (prev instr : NPUInstruction) : Prop :=
  prev.opcode.outputDtype.isSome = true ∧ instr.opcode.inputDtype.isSome = true

instance (prev instr : NPUInstruction) : Decidable (Typed prev instr) :=
  inferInstanceAs (Decidable (_ ∧ _))

/-- The table gives the type in which an instruction writes. -/
theorem exists_written {instr : NPUInstruction} {d : Dtype}
    (h : instr.opcode.outputDtype = some d) :
    ∃ addr count, instr.written = some ⟨d, addr, count⟩ := by
  unfold NPUInstruction.written
  cases hop : instr.opcode <;> rw [hop] at h <;> cases h <;> exact ⟨_, _, rfl⟩

/-- The table gives the type in which an instruction reads its chained operand, except for
reductions. -/
theorem exists_chainedRead {instr : NPUInstruction} {d : Dtype}
    (h : instr.opcode.inputDtype = some d) :
    ∃ acc, instr.chainedRead = some acc ∧
      (acc.dtype = d ↔ instr.opcode ≠ .vredMax ∧ instr.opcode ≠ .vredSum) := by
  unfold NPUInstruction.chainedRead
  cases hop : instr.opcode <;> rw [hop] at h <;> cases h <;> exact ⟨_, rfl, by simp⟩

theorem operand_setSrcAddr_of_ne {instr : NPUInstruction} {key : String}
    (h : key ≠ "ia" ∧ key ≠ "sb" ∧ key ≠ "sa") (addr default : ℤ) :
    (instr.setSrcAddr addr).operand key default = instr.operand key default := by
  unfold NPUInstruction.operand NPUInstruction.setSrcAddr
  dsimp only
  rw [Dict.get?_insert, if_neg]
  split
  · exact h.1
  · exact h.2.1
  · exact h.2.2

/-- Another source does not change what is written. -/
theorem written_setSrcAddr (instr : NPUInstruction) (addr : ℤ) :
    (instr.setSrcAddr addr).written = instr.written := by
  have hopcode : (instr.setSrcAddr addr).opcode = instr.opcode := rfl
  unfold NPUInstruction.written
  rw [hopcode, operand_setSrcAddr_of_ne (by decide), operand_setSrcAddr_of_ne (by decide),
    operand_setSrcAddr_of_ne (by decide), operand_setSrcAddr_of_ne (by decide),
    operand_setSrcAddr_of_ne (by decide), operand_setSrcAddr_of_ne (by decide),
    operand_setSrcAddr_of_ne (by decide), operand_setSrcAddr_of_ne (by decide)]

/-- The chained operand is read from the new source. -/
theorem chainedRead_setSrcAddr {instr : NPUInstruction} {acc : Access}
    (h : instr.chainedRead = some acc) (addr : ℤ) :
    (instr.setSrcAddr addr).chainedRead = some { acc with addr } := by
  unfold NPUInstruction.chainedRead NPUInstruction.setSrcAddr NPUInstruction.operand at *
  cases hop : instr.opcode <;> rw [hop] at h <;> cases h <;> simp [Dict.get?_insert]

/-- A slice finds at most the bytes of its range. -/
theorem Span.found_le {s : Span} (h : 0 ≤ s.size) : (s.found : ℤ) ≤ s.size := by
  unfold Span.found sliceBound
  split_ifs <;> omega

theorem Access.found_le {acc : Access} (h : 0 ≤ acc.count) : (acc.found : ℤ) ≤ acc.count := by
  have hwidth : 0 < (acc.dtype.width : ℤ) := by cases acc.dtype <;> decide
  have hsize := Span.found_le (s := acc.span) (mul_nonneg h hwidth.le)
  rw [Access.found, Int.natCast_ediv]
  exact Int.ediv_le_of_le_mul hwidth hsize

/-! ### Chains of types -/

namespace Item

/-- The operand that is chained to the result of the item before. -/
def chainedRead : Item → Option Access
  | .instr i => i.chainedRead
  | .int8Clip src _ length => some ⟨.int32, src, length⟩

/-- The elements that are written. -/
def written : Item → Option Access
  | .instr i => i.written
  | .int8Clip _ dst length => some ⟨.int8, dst, length⟩

/-- The number of elements that an execution writes. -/
def writtenCount : Item → ℕ
  | .instr i => i.writtenCount
  | .int8Clip src _ length => Access.found ⟨.int32, src, length⟩

end Item

theorem Item.chainedRead_vconv (src dst length : ℤ) :
    (Item.instr (conversion .vconv src dst length)).chainedRead = some ⟨.int32, src, length⟩ := rfl

theorem Item.chainedRead_vconvF16I32 (src dst length : ℤ) :
    (Item.instr (conversion .vconvF16I32 src dst length)).chainedRead =
      some ⟨.fp16, src, length⟩ := rfl

theorem Item.chainedRead_int8Clip (src dst length : ℤ) :
    (Item.int8Clip src dst length).chainedRead = some ⟨.int32, src, length⟩ := rfl

theorem Item.written_vconv (src dst length : ℤ) :
    (Item.instr (conversion .vconv src dst length)).written = some ⟨.fp16, dst, length⟩ := rfl

theorem Item.written_vconvF16I32 (src dst length : ℤ) :
    (Item.instr (conversion .vconvF16I32 src dst length)).written =
      some ⟨.int32, dst, length⟩ := rfl

theorem Item.written_int8Clip (src dst length : ℤ) :
    (Item.int8Clip src dst length).written = some ⟨.int8, dst, length⟩ := rfl

/-- An item reads its chained operand where the item before it has written, in the same type. -/
def Feeds (prev item : Item) : Prop :=
  ∃ acc acc', item.chainedRead = some acc ∧ prev.written = some acc' ∧
    acc.dtype = acc'.dtype ∧ acc.addr = acc'.addr

/-- An item reads all the elements that the item before it writes. -/
def Covers (prev item : Item) : Prop :=
  ∃ acc, item.chainedRead = some acc ∧ (prev.writtenCount : ℤ) ≤ acc.count

/-- A result passes through conversions of all its elements to an instruction. -/
def Passes (prev : Item) : List Item → NPUInstruction → Prop
  | [], instr => Feeds prev (.instr instr)
  | item :: items, instr => Feeds prev item ∧ Covers prev item ∧ Passes item items instr

/-- Each result passes to the next instruction. The instruction that was executed before and
the one of the program differ by their sources. -/
def ChainSoundFrom (executed prev : NPUInstruction) (scratch : ℤ) : List NPUInstruction → Prop
  | [] => True
  | instr :: program => ∀ inserted executed' scratch',
      convert prev instr scratch = .ok (inserted ++ [.instr executed'], scratch') →
      (Typed prev instr → Passes (.instr executed) inserted executed') ∧
        ChainSoundFrom executed' instr scratch' program

/-- In an expanded program, each instruction reads the elements that the one before it has
written, and conversions cover all of them. -/
def ChainSound (program : List NPUInstruction) (scratchBase : ℤ) : Prop :=
  match program with
  | [] => True
  | instr :: rest => ChainSoundFrom instr instr scratchBase rest

/-- The chained source of each instruction is the destination of the one before it. -/
def Chained (program : List NPUInstruction) : Prop :=
  program.IsChain fun prev instr => Typed prev instr →
    instr.chainedRead.map Access.addr = prev.written.map Access.addr

/-- The tables agree with the execution: the instruction is no reduction, and a conversion finds
the destination and the number of elements in the operands. -/
def Fits (executed prev instr : NPUInstruction) : Prop :=
  (instr.opcode ≠ .vredMax ∧ instr.opcode ≠ .vredSum) ∧
    (Converts prev instr → prev.dstAddr = prev.written.map Access.addr ∧
      (executed.writtenCount : ℤ) ≤ prev.elementCount)

/-- The tables agree with the execution at every instruction. -/
def ChainFitsFrom (executed prev : NPUInstruction) (scratch : ℤ) : List NPUInstruction → Prop
  | [] => True
  | instr :: program => ∀ inserted executed' scratch',
      convert prev instr scratch = .ok (inserted ++ [.instr executed'], scratch') →
      (Typed prev instr → Fits executed prev instr) ∧
        ChainFitsFrom executed' instr scratch' program

/-- The tables agree with the execution at every instruction. -/
def ChainFits (program : List NPUInstruction) (scratchBase : ℤ) : Prop :=
  match program with
  | [] => True
  | instr :: rest => ChainFitsFrom instr instr scratchBase rest

theorem feeds_iff {prev item : Item} {acc acc' : Access} (hread : item.chainedRead = some acc)
    (hwritten : prev.written = some acc') :
    Feeds prev item ↔ acc.dtype = acc'.dtype ∧ acc.addr = acc'.addr := by
  constructor
  · rintro ⟨a, a', ha, ha', h⟩
    rw [hread] at ha
    rw [hwritten] at ha'
    cases ha
    cases ha'
    exact h
  · exact fun h => ⟨acc, acc', hread, hwritten, h⟩

theorem item_covers_iff {prev item : Item} {acc : Access} (hread : item.chainedRead = some acc) :
    Covers prev item ↔ (prev.writtenCount : ℤ) ≤ acc.count := by
  constructor
  · rintro ⟨a, ha, h⟩
    rw [hread] at ha
    cases ha
    exact h
  · exact fun h => ⟨acc, hread, h⟩

theorem Expands.written {prev instr executed : NPUInstruction} {scratch scratch' : ℤ}
    {inserted : List Item} (h : Expands prev instr scratch inserted executed scratch') :
    executed.written = instr.written := by
  cases h with
  | matched => rfl
  | toFloat | toInt32 | toInt8 => exact written_setSrcAddr _ _

/-- A result passes to the next instruction exactly when the tables agree with the execution. -/
theorem Expands.passes_iff {executed prev instr executed' : NPUInstruction} {scratch scratch' : ℤ}
    {inserted : List Item} (h : Expands prev instr scratch inserted executed' scratch')
    (htyped : Typed prev instr) (hwritten : executed.written = prev.written)
    (hsource : instr.chainedRead.map Access.addr = prev.written.map Access.addr) :
    Passes (.instr executed) inserted executed' ↔ Fits executed prev instr := by
  obtain ⟨out, hout⟩ := Option.isSome_iff_exists.mp htyped.1
  obtain ⟨input, hin⟩ := Option.isSome_iff_exists.mp htyped.2
  obtain ⟨addr, count, hprev⟩ := exists_written hout
  obtain ⟨acc, hread, hdtype⟩ := exists_chainedRead hin
  rw [hread, hprev, Option.map_some, Option.map_some, Option.some_inj] at hsource
  rw [hprev] at hwritten
  rw [Fits, hprev, ← hdtype]
  have hwritten : (Item.instr executed).written = some ⟨out, addr, count⟩ := hwritten
  have hread' : ∀ src, (Item.instr (instr.setSrcAddr src)).chainedRead =
      some { acc with addr := src } := chainedRead_setSrcAddr hread
  have hconverts : out ≠ input → Converts prev instr := fun hne =>
    ⟨htyped.1, htyped.2, by rwa [hout, hin, ne_eq, Option.some_inj]⟩
  cases h with
  | matched hnot =>
    have heq : out = input := not_not.mp fun hne => hnot (hconverts hne)
    have hread : (Item.instr instr).chainedRead = some acc := hread
    rw [Passes, feeds_iff hread hwritten, ← heq]
    exact ⟨fun h => ⟨h.1, fun hconverts => absurd hconverts hnot⟩, fun h => ⟨h.1, hsource⟩⟩
  | toFloat dst hdst hout' hin' =>
    rw [hout] at hout'
    rw [hin] at hin'
    cases hout'
    cases hin'
    rw [Passes, Passes, feeds_iff (Item.chainedRead_vconv _ _ _) hwritten,
      item_covers_iff (Item.chainedRead_vconv _ _ _),
      feeds_iff (hread' _) (Item.written_vconv _ _ _), hdst]
    constructor
    · rintro ⟨⟨-, haddr⟩, hcovers, hdtype', -⟩
      exact ⟨hdtype', fun _ => ⟨congrArg some haddr, hcovers⟩⟩
    · rintro ⟨hdtype', hfits⟩
      obtain ⟨haddr, hcovers⟩ := hfits (hconverts (by decide))
      exact ⟨⟨rfl, Option.some_inj.mp haddr⟩, hcovers, hdtype', rfl⟩
  | toInt32 dst hdst hout' hin' =>
    rw [hout] at hout'
    rw [hin] at hin'
    cases hout'
    cases hin'
    rw [Passes, Passes, feeds_iff (Item.chainedRead_vconvF16I32 _ _ _) hwritten,
      item_covers_iff (Item.chainedRead_vconvF16I32 _ _ _),
      feeds_iff (hread' _) (Item.written_vconvF16I32 _ _ _), hdst]
    constructor
    · rintro ⟨⟨-, haddr⟩, hcovers, hdtype', -⟩
      exact ⟨hdtype', fun _ => ⟨congrArg some haddr, hcovers⟩⟩
    · rintro ⟨hdtype', hfits⟩
      obtain ⟨haddr, hcovers⟩ := hfits (hconverts (by decide))
      exact ⟨⟨rfl, Option.some_inj.mp haddr⟩, hcovers, hdtype', rfl⟩
  | toInt8 dst hdst hout' hin' =>
    rw [hout] at hout'
    rw [hin] at hin'
    cases hout'
    cases hin'
    rw [Passes, Passes, Passes, feeds_iff (Item.chainedRead_vconvF16I32 _ _ _) hwritten,
      item_covers_iff (Item.chainedRead_vconvF16I32 _ _ _),
      feeds_iff (Item.chainedRead_int8Clip _ _ _) (Item.written_vconvF16I32 _ _ _),
      item_covers_iff (Item.chainedRead_int8Clip _ _ _),
      feeds_iff (hread' _) (Item.written_int8Clip _ _ _), hdst]
    constructor
    · rintro ⟨⟨-, haddr⟩, hcovers, -, -, hdtype', -⟩
      exact ⟨hdtype', fun _ => ⟨congrArg some haddr, hcovers⟩⟩
    · rintro ⟨hdtype', hfits⟩
      obtain ⟨haddr, hcovers⟩ := hfits (hconverts (by decide))
      have hclipped : (Access.found ⟨.fp16, dst, prev.elementCount⟩ : ℤ) ≤ prev.elementCount :=
        Access.found_le (le_trans (Int.natCast_nonneg _) hcovers)
      exact ⟨⟨rfl, Option.some_inj.mp haddr⟩, hcovers, ⟨rfl, rfl⟩, hclipped, hdtype', rfl⟩

theorem chainSoundFrom_iff {executed prev : NPUInstruction} {scratch : ℤ}
    {program : List NPUInstruction} (hwritten : executed.written = prev.written)
    (hchained : Chained (prev :: program)) :
    ChainSoundFrom executed prev scratch program ↔ ChainFitsFrom executed prev scratch program := by
  induction program generalizing executed prev scratch with
  | nil => exact Iff.rfl
  | cons instr program ih =>
    obtain ⟨hsource, hchained⟩ := List.isChain_cons_cons.mp hchained
    refine forall₄_congr fun inserted executed' scratch' hconvert => ?_
    have hexpands := expands_of_convert hconvert
    refine and_congr ?_ (ih hexpands.written hchained)
    exact forall_congr' fun htyped => hexpands.passes_iff htyped hwritten (hsource htyped)

/-- In an expanded program, each instruction reads the elements that the one before it has
written exactly when the tables agree with the execution at each of them. -/
theorem chainSound_iff {program : List NPUInstruction} (scratchBase : ℤ)
    (hchained : Chained program) :
    ChainSound program scratchBase ↔ ChainFits program scratchBase := by
  cases program with
  | nil => exact Iff.rfl
  | cons instr program => exact chainSoundFrom_iff rfl hchained

instance (program : List NPUInstruction) : Decidable (Chained program) :=
  inferInstanceAs (Decidable (List.IsChain _ _))

instance (executed prev instr : NPUInstruction) : Decidable (Fits executed prev instr) :=
  inferInstanceAs (Decidable ((_ ∧ _) ∧ _))

/-- A sum that is converted and rectified. -/
theorem sumThenRelu_chainSound : ChainSound sumThenRelu 0x380000 :=
  (chainSound_iff 0x380000 (by decide)).mpr fun _ _ _ _ => ⟨fun _ => by decide, trivial⟩

/-- A sum whose maximum is taken. -/
def sumThenMax : List NPUInstruction :=
  [{ opcode := .vadd, operands := .ofList [("sa", 0), ("da", 64), ("len", 1)] },
    { opcode := .vredMax, operands := .ofList [("sa", 64), ("da", 128), ("len", 1)] }]

/-- A reduction reads the integers before it as floats. -/
theorem sumThenMax_not_chainSound :
    ¬∀ (program : List NPUInstruction) (scratchBase : ℤ) (items : List Item),
      insertDtypeConverters program scratchBase = .ok items → Chained program →
      ChainSound program scratchBase := by
  intro h
  have hchained : Chained sumThenMax := by decide
  have hfits := (chainSound_iff 0x380000 hchained).mp
    (h sumThenMax 0x380000 (sumThenMax.map .instr) rfl hchained)
  exact ((hfits [] _ _ rfl).1 (by decide)).1.1 rfl

end Core

end NpuArc
