import NpuArc.Contracts.Errors
import NpuArc.Library.BitFields
import NpuArc.Library.Dict

/-!
# The instruction set

An instruction is one operator with named operands. It is packed into one word, or two for a
matrix multiplication: the opcode takes the highest five bits, and each operand is masked to
the width of its field.
-/

namespace NpuArc

namespace Core

/-- The operation codes. -/
inductive OpCode
  | mmul | softmax | layernorm | gelu | relu | rope | silu | maxpool | avgpool
  | dmaLd | dmaSt | kvLoad | kvStore | barrier | nop
  | vadd | vmul | vredMax | vredSum | vconv | vresid
  | dmaLdd | dmaStd | rmsnorm | vconvF16I32
  deriving DecidableEq

/-- The name of an operation code. -/
def OpCode.name : OpCode → String
  | .mmul => "MMUL"
  | .softmax => "SOFTMAX"
  | .layernorm => "LAYERNORM"
  | .gelu => "GELU"
  | .relu => "RELU"
  | .rope => "ROPE"
  | .silu => "SILU"
  | .maxpool => "MAXPOOL"
  | .avgpool => "AVGPOOL"
  | .dmaLd => "DMA_LD"
  | .dmaSt => "DMA_ST"
  | .kvLoad => "KV_LOAD"
  | .kvStore => "KV_STORE"
  | .barrier => "BARRIER"
  | .nop => "NOP"
  | .vadd => "VADD"
  | .vmul => "VMUL"
  | .vredMax => "VRED_MAX"
  | .vredSum => "VRED_SUM"
  | .vconv => "VCONV"
  | .vresid => "VRESID"
  | .dmaLdd => "DMA_LDD"
  | .dmaStd => "DMA_STD"
  | .rmsnorm => "RMSNORM"
  | .vconvF16I32 => "VCONV_F16_I32"

/-- A decoded instruction. -/
structure NPUInstruction where
  opcode : OpCode
  operands : Dict String ℤ := .empty
  comment : String := ""

/-- An operand, or its default. -/
def NPUInstruction.operand (instr : NPUInstruction) (key : String) (default : ℤ) : ℤ :=
  (instr.operands.get? key).getD default

/-- The number of an operation code. -/
def OpCode.value : OpCode → ℕ
  | .mmul => 0x00
  | .softmax => 0x01
  | .layernorm => 0x02
  | .gelu => 0x03
  | .relu => 0x04
  | .rope => 0x05
  | .silu => 0x06
  | .maxpool => 0x07
  | .avgpool => 0x08
  | .dmaLd => 0x09
  | .dmaSt => 0x0A
  | .kvLoad => 0x0B
  | .kvStore => 0x0C
  | .barrier => 0x0D
  | .nop => 0x0E
  | .vadd => 0x0F
  | .vmul => 0x10
  | .vredMax => 0x11
  | .vredSum => 0x12
  | .vconv => 0x13
  | .vresid => 0x14
  | .dmaLdd => 0x15
  | .dmaStd => 0x16
  | .rmsnorm => 0x17
  | .vconvF16I32 => 0x18

/-- All operation codes in the order of their numbers. -/
def OpCode.all : List OpCode :=
  [.mmul, .softmax, .layernorm, .gelu, .relu, .rope, .silu, .maxpool, .avgpool, .dmaLd, .dmaSt,
    .kvLoad, .kvStore, .barrier, .nop, .vadd, .vmul, .vredMax, .vredSum, .vconv, .vresid, .dmaLdd,
    .dmaStd, .rmsnorm, .vconvF16I32]

/-- The operation code of a number. -/
def OpCode.ofValue (n : ℕ) : Except Error OpCode :=
  match OpCode.all[n]? with
  | some op => .ok op
  | none => .error (.valueError s!"{n} is not a valid OpCode")

theorem OpCode.ofValue_value (op : OpCode) : ofValue op.value = .ok op := by
  cases op <;> rfl

theorem OpCode.value_lt (op : OpCode) : op.value < 2 ^ 5 := by
  cases op <;> decide

/-! ### Encoding -/

/-- A word with an opcode, two addresses of 12 bits and three lowest bits. -/
def addressWord (op : OpCode) (sa da : ℤ) (low : ℕ) : ℕ :=
  op.value <<< 27 ||| lowBits 12 sa <<< 15 ||| lowBits 12 da <<< 3 ||| low

/-- Encode an instruction to 32-bit words. -/
def encode (instr : NPUInstruction) : List ℕ :=
  let op := instr.opcode
  let sa := instr.operand "sa" 0
  let da := instr.operand "da" 0
  match op with
  | .mmul =>
    let wa := instr.operand "wa" 0
    let ia := instr.operand "ia" 0
    let oa := instr.operand "oa" 0
    let n := instr.operand "N" 0
    [op.value <<< 27 ||| lowBits 10 wa <<< 17 ||| lowBits 10 ia <<< 7 ||| lowBits 7 n,
      lowBits 16 oa <<< 16]
  | .dmaLd | .dmaSt =>
    let dram := lowBits 16 (instr.operand "dram" 0)
    let sram := lowBits 12 (instr.operand "sram" 0)
    let size := lowBits 12 (instr.operand "size" 0)
    [op.value <<< 27 ||| (dram >>> 4 &&& 0xFFF) <<< 15 ||| (sram >>> 4 &&& 0xFF) <<< 7 |||
      size &&& 0x7F]
  | .maxpool | .avgpool =>
    let h := lowBits 4 (instr.operand "H" 0)
    let w := lowBits 4 (instr.operand "W" 0)
    [addressWord op sa da ((h &&& 0x3) <<< 1 ||| w &&& 0x1)]
  | .kvLoad | .kvStore =>
    let tid := lowBits 12 (instr.operand "token_id" 0)
    [op.value <<< 27 ||| tid &&& 0xFFF]
  | .rmsnorm => [addressWord op sa da (lowBits 12 (instr.operand "elements" 0) &&& 0x7)]
  | .barrier | .nop => [op.value <<< 27]
  | .rope | .vadd | .vmul | .vredMax | .vredSum | .vconv | .vresid | .vconvF16I32 | .dmaLdd
  | .dmaStd | .softmax | .layernorm | .gelu | .relu | .silu =>
    [addressWord op sa da (lowBits 12 (instr.operand "len" 0) &&& 0x7)]

/-! ### Decoding -/

/-- The addresses of a word, and a third operand. -/
def addressOperands (w0 : ℕ) (key : String) : Dict String ℤ :=
  .ofList [("sa", ((w0 >>> 15 &&& 0xFFF : ℕ) : ℤ)), ("da", ((w0 >>> 3 &&& 0xFFF : ℕ) : ℤ)),
    (key, ((w0 &&& 0x7 : ℕ) : ℤ))]

/-- Decode one or more 32-bit words to an instruction. -/
def decode (words : List ℕ) : Except Error NPUInstruction := do
  match words with
  | [] => .error (.indexError "list index out of range")
  | w0 :: rest =>
    let op ← OpCode.ofValue (w0 >>> 27 &&& 0x1F)
    let operands : Dict String ℤ :=
      match op with
      | .mmul =>
        let oa : ℕ :=
          match rest with
          | [] => 0
          | w1 :: _ => w1 >>> 16 &&& 0xFFFF
        .ofList [("wa", ((w0 >>> 17 &&& 0x3FF : ℕ) : ℤ)), ("ia", ((w0 >>> 7 &&& 0x3FF : ℕ) : ℤ)),
          ("oa", (oa : ℤ)), ("N", ((w0 &&& 0x7F : ℕ) : ℤ))]
      | .dmaLd | .dmaSt =>
        .ofList [("dram", (((w0 >>> 15 &&& 0xFFF) <<< 4 : ℕ) : ℤ)),
          ("sram", (((w0 >>> 7 &&& 0xFF) <<< 4 : ℕ) : ℤ)), ("size", ((w0 &&& 0x7F : ℕ) : ℤ))]
      | .kvLoad | .kvStore => .ofList [("token_id", ((w0 &&& 0xFFF : ℕ) : ℤ))]
      | .maxpool | .avgpool =>
        .ofList [("sa", ((w0 >>> 15 &&& 0xFFF : ℕ) : ℤ)), ("da", ((w0 >>> 3 &&& 0xFFF : ℕ) : ℤ)),
          ("H", (((w0 >>> 1 &&& 0x3) + 1 : ℕ) : ℤ)), ("W", (((w0 &&& 0x1) + 1 : ℕ) : ℤ))]
      | .barrier | .nop => .empty
      | .rmsnorm => addressOperands w0 "elements"
      | .rope | .vadd | .vmul | .vredMax | .vredSum | .vconv | .vresid | .vconvF16I32 | .dmaLdd
      | .dmaStd | .softmax | .layernorm | .gelu | .relu | .silu => addressOperands w0 "len"
    return { opcode := op, operands }

/-- An instruction is read back with its opcode and its operands. -/
def Survives (instr : NPUInstruction) : Prop :=
  ∃ instr', decode (encode instr) = .ok instr' ∧ instr'.opcode = instr.opcode ∧
    ∀ key, instr'.operands.get? key = instr.operands.get? key

end Core

end NpuArc
