import NpuArc.Core.Executor

/-!
# Automatic conversions between instructions

A program is expanded before it is run: where an instruction reads another type of elements
than the instruction just before it has written, a conversion into a scratch region is put
between them and the source of the second one is replaced. An instruction without an effect on
the memories has no types, so it separates its neighbours and no conversion is put there.
-/

namespace NpuArc

namespace Core

/-- The types of elements in memory. -/
inductive Dtype
  | int8
  | int32
  | fp16
  deriving DecidableEq

/-- The name of a type. -/
def Dtype.name : Dtype → String
  | .int8 => "int8"
  | .int32 => "int32"
  | .fp16 => "fp16"

/-- The type that the chained operand must have. -/
def OpCode.inputDtype : OpCode → Option Dtype
  | .mmul => some .int8
  | .softmax | .layernorm | .gelu | .relu | .rope | .silu | .maxpool | .avgpool | .rmsnorm =>
    some .fp16
  | .vadd | .vmul | .vredMax | .vredSum | .vconv => some .int32
  | .vconvF16I32 => some .fp16
  | .vresid => some .int32
  | .dmaLd | .dmaSt | .kvLoad | .kvStore | .barrier | .nop | .dmaLdd | .dmaStd => none

/-- The type of the elements that are written. -/
def OpCode.outputDtype : OpCode → Option Dtype
  | .mmul => some .int32
  | .softmax | .layernorm | .gelu | .relu | .rope | .silu | .maxpool | .avgpool | .rmsnorm =>
    some .fp16
  | .vadd | .vmul => some .int32
  | .vredMax | .vredSum | .vconv => some .fp16
  | .vconvF16I32 | .vresid => some .int32
  | .dmaLd | .dmaSt | .kvLoad | .kvStore | .barrier | .nop | .dmaLdd | .dmaStd => none

namespace NPUInstruction

/-- The destination address. An address zero counts as absent under its first name. -/
def dstAddr (instr : NPUInstruction) : Option ℤ :=
  match instr.operands.get? "da" with
  | some addr => if addr = 0 then instr.operands.get? "oa" else some addr
  | none => instr.operands.get? "oa"

/-- Replace the source address. -/
def setSrcAddr (instr : NPUInstruction) (addr : ℤ) : NPUInstruction :=
  let key :=
    match instr.opcode with
    | .mmul => "ia"
    | .vresid => "sb"
    | _ => "sa"
  { instr with operands := instr.operands.insert key addr }

/-- The number of elements that are written, as the operands give it. -/
def elementCount (instr : NPUInstruction) : ℤ :=
  match instr.opcode with
  | .mmul => instr.operand "M" 1 * instr.operand "N" 2560
  | .rmsnorm => instr.operand "elements" 0
  | _ => instr.operand "len" 0

end NPUInstruction

/-- An element of an expanded program: an instruction, or a rewrite of integers to 8 bits. -/
inductive Item
  | instr (instr : NPUInstruction)
  | int8Clip (src dst length : ℤ)

/-- A number of bytes, rounded up to blocks of the scratch region. -/
def scratchSize (bytes : ℤ) : ℤ := (bytes + 63) / 64 * 64

/-- A conversion instruction. -/
def conversion (opcode : OpCode) (src dst length : ℤ) : NPUInstruction :=
  { opcode, operands := .ofList [("sa", src), ("da", dst), ("len", length)] }

/-- The items for an instruction after another one, and the scratch address after them. -/
def convert (prev instr : NPUInstruction) (scratch : ℤ) : Except Error (List Item × ℤ) :=
  match prev.opcode.outputDtype, instr.opcode.inputDtype with
  | some prevOut, some nextIn =>
    if prevOut = nextIn then .ok ([.instr instr], scratch)
    else
      let length := prev.elementCount
      match prev.dstAddr with
      | none => .error (.valueError
          s!"Cannot chain from {prev.opcode.name}: no destination address")
      | some prevDst =>
        match prevOut, nextIn with
        | .int32, .fp16 =>
          .ok ([.instr (conversion .vconv prevDst scratch length),
            .instr (instr.setSrcAddr scratch)], scratch + scratchSize (length * 2))
        | .fp16, .int32 =>
          .ok ([.instr (conversion .vconvF16I32 prevDst scratch length),
            .instr (instr.setSrcAddr scratch)], scratch + scratchSize (length * 4))
        | .fp16, .int8 =>
          let int8Addr := scratch + scratchSize (length * 4)
          .ok ([.instr (conversion .vconvF16I32 prevDst scratch length),
            .int8Clip scratch int8Addr length, .instr (instr.setSrcAddr int8Addr)],
            int8Addr + scratchSize (length * 1))
        | _, _ => .error (.valueError
            (s!"Unsupported dtype transition {prevOut.name} -> {nextIn.name} " ++
              s!"between {prev.opcode.name} and {instr.opcode.name}"))
  | _, _ => .ok ([.instr instr], scratch)

/-- The items for the instructions after another one. -/
def convertFrom (prev : NPUInstruction) (scratch : ℤ) :
    List NPUInstruction → Except Error (List Item)
  | [] => .ok []
  | instr :: program => do
    let (items, scratch') ← convert prev instr scratch
    let expanded ← convertFrom instr scratch' program
    return items ++ expanded

/-- Expand a program by conversions between mismatched instructions. -/
def insertDtypeConverters (program : List NPUInstruction) (scratchBase : ℤ) :
    Except Error (List Item) :=
  match program with
  | [] => .ok []
  | instr :: rest => do
    let expanded ← convertFrom instr scratchBase rest
    return .instr instr :: expanded

/-- Rewrite 32-bit integers as 8-bit integers. -/
def int8Clip (mem : Memory) (src dst length : ℤ) : Except Error Memory := do
  let int32 ← mem.sram.readInt32 src length
  let sram ← mem.sram.writeInt8 dst (int32.map clipInt8)
  return { mem with sram }

namespace GoldenExecutor

/-- Execute an element of an expanded program. -/
def runItem (u : Units) (fuel : ℕ) (g : GoldenExecutor) :
    Item → Option (Except (Error × GoldenExecutor) GoldenExecutor)
  | .instr instr => g.step u fuel instr
  | .int8Clip src dst length =>
    match int8Clip g.toMemory src dst length with
    | .ok mem => some (.ok { g with toMemory := mem })
    | .error e => some (.error (e, g))

/-- Execute an expanded program. -/
def runItems (u : Units) (fuel : ℕ) :
    List Item → GoldenExecutor → Option (Except (Error × GoldenExecutor) GoldenExecutor)
  | [], g => some (.ok g)
  | item :: items, g =>
    match g.runItem u fuel item with
    | some (.ok g') => runItems u fuel items g'
    | other => other

/-- Execute a program with automatic insertion of conversions. -/
def runOpChain (u : Units) (fuel : ℕ) (program : List NPUInstruction) (scratchBase : ℤ)
    (g : GoldenExecutor) : Option (Except (Error × GoldenExecutor) GoldenExecutor) :=
  match insertDtypeConverters program scratchBase with
  | .error e => some (.error (e, g))
  | .ok items => runItems u fuel items g

end GoldenExecutor

end Core

end NpuArc
