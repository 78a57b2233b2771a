import NpuArc.Core.Descriptor
import NpuArc.Core.Isa

/-!
# The golden executor

One instruction is executed on the two memories. Its addresses, its lengths, its transfers
and the arithmetic of integers are those of the code; the units that compute with floats and
the matrix unit are parameters, since no address and no length depends on their values. Chain
instructions loop over descriptors that they read from the main memory, so a run has a fuel
for them, and a run that needs more descriptors than it has gives no result.
-/

namespace NpuArc

namespace Core

/-- The arithmetic units of a core, on the bits of half-precision floats. The functions of
single elements are total; the others fail where the shapes do not fit. -/
structure Units where
  matmulInt32 : (act : List Int8) → (weights : List UInt8) → (m k n : ℤ) →
    Except Error (List Int32)
  softmaxHw : List UInt16 → Except Error (List UInt16)
  layernormHw : List UInt16 → Except Error (List UInt16)
  rmsnormHw : List UInt16 → Except Error (List UInt16)
  geluHw : UInt16 → UInt16
  siluHw : UInt16 → UInt16
  reluHw : UInt16 → UInt16
  ropeHw : (q k : List UInt16) → (position : ℤ) → Except Error (List UInt16 × List UInt16)
  maxPool : (h w : ℤ) → List UInt16 → Except Error (List UInt16)
  avgPool : (h w : ℤ) → List UInt16 → Except Error (List UInt16)
  maxReduce : List UInt16 → Except Error UInt16
  sumReduce : List UInt16 → Except Error UInt16
  convI32ToF16 : Int32 → UInt16
  convF16ToI32 : UInt16 → Int32
  /-- The cast of a float, without the treatment of special values. -/
  castF16ToI32 : UInt16 → Int32
  estimateTransfer : ℤ → ℤ

/-! ### Integer arithmetic -/

/-- The closest number in the range of 32-bit integers. -/
def saturate (i : ℤ) : Int32 := Int32.ofInt (max (-2 ^ 31) (min i (2 ^ 31 - 1)))

/-- Combine two arrays element by element, where a single element is repeated. -/
def broadcast {α β γ : Type} (f : α → β → γ) (a : List α) (b : List β) :
    Except Error (List γ) :=
  if a.length = b.length then .ok (List.zipWith f a b)
  else if a.length = 1 then .ok (a.flatMap fun x => b.map (f x))
  else if b.length = 1 then .ok (b.flatMap fun y => a.map (f · y))
  else .error (.valueError (s!"operands could not be broadcast together with shapes " ++
    s!"({a.length},) ({b.length},) "))

/-- Element-wise addition with saturation. -/
def vectorAdd (a b : List Int32) : Except Error (List Int32) :=
  broadcast (fun x y => saturate (x.toInt + y.toInt)) a b

/-- Element-wise multiplication with saturation. -/
def vectorMul (a b : List Int32) : Except Error (List Int32) :=
  broadcast (fun x y => saturate (x.toInt * y.toInt)) a b

/-- The closest number in the range of 8-bit integers. -/
def clipInt8 (x : Int32) : Int8 := Int8.ofInt (max (-128) (min x.toInt 127))

/-! ### One instruction -/

/-- The two memories. -/
structure Memory where
  sram : SRAM
  dram : DRAM

/-- The state of a core. -/
structure GoldenExecutor extends Memory where
  cycle : ℤ := 0
  pc : ℕ := 0

/-- Read floats, apply a unit to them and write its result. -/
def unaryFloat (f : List UInt16 → Except Error (List UInt16)) (count cost : ℤ)
    (instr : NPUInstruction) (mem : Memory) : Except Error (Memory × ℤ) := do
  let inp ← mem.sram.readFloat16 (instr.operand "sa" 0) count
  let out ← f inp
  let sram ← mem.sram.writeFloat16 (instr.operand "da" 0) out
  return ({ mem with sram }, cost)

/-- Read two arrays of integers that follow each other, combine them and write the result. -/
def binaryInt (f : List Int32 → List Int32 → Except Error (List Int32)) (instr : NPUInstruction)
    (mem : Memory) : Except Error (Memory × ℤ) := do
  let sa := instr.operand "sa" 0
  let length := instr.operand "len" 2560
  let a ← mem.sram.readInt32 sa length
  let b ← mem.sram.readInt32 (sa + length * 4) length
  let out ← f a b
  let sram ← mem.sram.writeInt32 (instr.operand "da" 0) out
  return ({ mem with sram }, length / 128 + 1)

/-- Estimate the cycles of a tiled matrix multiplication. -/
def estimateMxuCycles (m k n : ℤ) : ℤ :=
  (m + 64 - 1) / 64 * ((n + 64 - 1) / 64) * ((k + 64 - 1) / 64)

/-- Execute an instruction without a descriptor chain: the memories after it, and its cycles. -/
def executeOp (u : Units) (instr : NPUInstruction) (mem : Memory) : Except Error (Memory × ℤ) :=
  let length := instr.operand "len" 2560
  match instr.opcode with
  | .nop => .ok (mem, 1)
  | .barrier => .ok (mem, 5)
  | .mmul => do
    let wa := instr.operand "wa" 0
    let ia := instr.operand "ia" 0
    let n := instr.operand "N" 2560
    let m := instr.operand "M" 1
    let k := instr.operand "K" 2560
    -- The matrix unit slices the buffer without the check of a read.
    let act := (mem.sram.slice ia (ia + m * k)).map UInt8.toInt8
    let weights := mem.sram.slice wa (wa + (k * n + 1) / 2)
    let result ← u.matmulInt32 act weights m k n
    let sram ← mem.sram.writeInt32 (instr.operand "oa" 0) result
    return ({ mem with sram }, estimateMxuCycles m k n)
  | .softmax => unaryFloat u.softmaxHw length (length / 4096 + 8) instr mem
  | .layernorm => unaryFloat u.layernormHw length (length / 128 + 6) instr mem
  | .gelu => unaryFloat (fun inp => .ok (inp.map u.geluHw)) length (length / 128 + 4) instr mem
  | .silu => unaryFloat (fun inp => .ok (inp.map u.siluHw)) length (length / 128 + 4) instr mem
  | .relu => unaryFloat (fun inp => .ok (inp.map u.reluHw)) length (length / 128 + 1) instr mem
  | .rope =>
    let mid := length / 2
    let rotate := fun inp => do
      let (q, k) ← u.ropeHw (sliceList inp 0 mid) (sliceList inp mid (mid + mid / 8))
        (instr.operand "pos" 0)
      return q ++ k
    unaryFloat rotate length (length / 128 + 12) instr mem
  | .rmsnorm =>
    let elements := instr.operand "elements" 0
    if elements ≤ 0 then
      .error (.valueError s!"RMSNORM requires elements > 0, got {elements}")
    else unaryFloat u.rmsnormHw elements (elements / 128 * 2 + 10) instr mem
  | .maxpool =>
    let h := instr.operand "H" 2
    let w := instr.operand "W" 2
    unaryFloat (u.maxPool h w) (h * w) (h / 2 * (w / 2) / 128 + 2) instr mem
  | .avgpool =>
    let h := instr.operand "H" 2
    let w := instr.operand "W" 2
    unaryFloat (u.avgPool h w) (h * w) (h / 2 * (w / 2) / 128 + 2) instr mem
  | .dmaLd => do
    let dram := instr.operand "dram" 0
    let size := instr.operand "size" 0
    let sram ← mem.sram.writeBytes (instr.operand "sram" 0) (mem.dram.slice dram (dram + size))
    return ({ mem with sram }, u.estimateTransfer size)
  | .dmaSt => do
    let addr := instr.operand "dram" 0
    let size := instr.operand "size" 0
    let data ← mem.sram.readBytes (instr.operand "sram" 0) size
    let dram ← assignSlice mem.dram addr (addr + size) data
    return ({ mem with dram }, u.estimateTransfer size)
  | .vadd => binaryInt vectorAdd instr mem
  | .vmul => binaryInt vectorMul instr mem
  | .vredMax =>
    unaryFloat (fun inp => (u.maxReduce inp).map ([·])) length (length / 128 + 3) instr mem
  | .vredSum =>
    unaryFloat (fun inp => (u.sumReduce inp).map ([·])) length (length / 128 + 3) instr mem
  | .vconv => do
    let inp ← mem.sram.readInt32 (instr.operand "sa" 0) length
    let sram ← mem.sram.writeFloat16 (instr.operand "da" 0) (inp.map u.convI32ToF16)
    return ({ mem with sram }, length / 128 + 2)
  | .vconvF16I32 => do
    let inp ← mem.sram.readFloat16 (instr.operand "sa" 0) length
    let sram ← mem.sram.writeInt32 (instr.operand "da" 0) (inp.map u.convF16ToI32)
    return ({ mem with sram }, length / 128 + 2)
  | .vresid => do
    let sa := instr.operand "sa" 0
    let a ← mem.sram.readFloat16 sa length
    let b ← mem.sram.readInt32 (instr.operand "sb" (sa + 1024)) length
    let out ← vectorAdd (a.map u.castF16ToI32) b
    let sram ← mem.sram.writeInt32 (instr.operand "da" 0) out
    return ({ mem with sram }, length / 128 + 1)
  | .kvLoad | .kvStore => .ok (mem, 5)
  -- Chains are executed descriptor by descriptor below.
  | .dmaLdd | .dmaStd => .ok (mem, 0)

/-! ### Descriptor chains -/

/-- Execute a load: DRAM to SRAM. -/
def executeLoad (mem : Memory) (desc : DMADescriptor) : Except Error Memory := do
  let sram ← mem.sram.writeBytes desc.sramAddr
    (mem.dram.slice desc.dramAddr (desc.dramAddr + desc.actualSize))
  return { mem with sram }

/-- Execute a store: SRAM to DRAM. -/
def executeStore (mem : Memory) (desc : DMADescriptor) : Except Error Memory := do
  let data ← mem.sram.readBytes desc.sramAddr desc.actualSize
  let dram ← assignSlice mem.dram desc.dramAddr (desc.dramAddr + desc.actualSize) data
  return { mem with dram }

/-- The descriptor word at an address. -/
def wordAt (dram : DRAM) (addr : ℤ) : ℕ := ofBytes (dram.slice addr (addr + 8))

/-- What an instruction leaves: the memories and the cycles so far, after an exception as
well. -/
abbrev Outcome := Except (Error × Memory × ℤ) (Memory × ℤ)

/-- Execute the descriptors from an address on, until one has its last flag. -/
def runDescriptors (u : Units) (execute : Memory → DMADescriptor → Except Error Memory) :
    ℕ → ℤ → Memory → ℤ → Option Outcome
  | 0, _, _, _ => none
  | fuel + 1, addr, mem, cycles =>
    match DMADescriptor.decode (wordAt mem.dram addr) with
    | .error e => some (.error (e, mem, cycles))
    | .ok desc =>
      match execute mem desc with
      | .error e => some (.error (e, mem, cycles))
      | .ok mem' =>
        let cycles' := cycles + u.estimateTransfer desc.actualSize
        if desc.last then some (.ok (mem', cycles'))
        else runDescriptors u execute fuel (addr + 8) mem' cycles'

/-- Execute the operation of an instruction. Only a chain can fail after a change. -/
def execute (u : Units) (fuel : ℕ) (instr : NPUInstruction) (mem : Memory) : Option Outcome :=
  match instr.opcode with
  | .dmaLdd => runDescriptors u executeLoad fuel (instr.operand "sa" 0) mem 0
  | .dmaStd => runDescriptors u executeStore fuel (instr.operand "sa" 0) mem 0
  | _ => some ((executeOp u instr mem).mapError fun e => (e, mem, 0))

/-- Units that agree with those of the code on zeros and ones. -/
def exampleUnits : Units where
  matmulInt32 act _ _ _ _ := .ok (act.map fun _ => 0)
  softmaxHw l := .ok l
  layernormHw l := .ok l
  rmsnormHw l := .ok l
  geluHw x := x
  siluHw x := x
  reluHw x := if x < 0x400 ∨ 0x8000 ≤ x then 0 else x
  ropeHw q k _ := .ok (q, k)
  maxPool _ _ l := .ok l
  avgPool _ _ l := .ok l
  maxReduce _ := .ok 0
  sumReduce _ := .ok 0
  convI32ToF16 x := if x = 1 then 0x3C00 else 0
  convF16ToI32 x := if x = 0x3C00 then 1 else 0
  castF16ToI32 x := if x = 0x3C00 then 1 else 0
  estimateTransfer size := size

namespace GoldenExecutor

/-- A core as it is built: both memories are zero. -/
def init : GoldenExecutor where
  sram := fun _ => 0
  dram := fun _ => 0

/-- Execute one instruction. -/
def step (u : Units) (fuel : ℕ) (instr : NPUInstruction) (g : GoldenExecutor) :
    Option (Except (Error × GoldenExecutor) GoldenExecutor) :=
  (execute u fuel instr g.toMemory).map fun
    | .ok (mem, cycles) =>
      .ok { toMemory := mem, cycle := g.cycle + cycles, pc := g.pc + 1 }
    | .error (e, mem, cycles) =>
      .error (e, { toMemory := mem, cycle := g.cycle + cycles, pc := g.pc })

/-- The state after an instruction that left some memories. -/
def after (g : GoldenExecutor) (mem : Memory) (cycles : ℤ) : GoldenExecutor :=
  { toMemory := mem, cycle := g.cycle + cycles, pc := g.pc + 1 }

theorem step_eq_ok {u : Units} {fuel : ℕ} {instr : NPUInstruction} {g : GoldenExecutor}
    {mem : Memory} {cycles : ℤ} (h : execute u fuel instr g.toMemory = some (.ok (mem, cycles))) :
    g.step u fuel instr = some (.ok (g.after mem cycles)) := by
  rw [step, h]
  rfl

/-- Execute a program, without conversions between its instructions. -/
def executeProgram (u : Units) (fuel : ℕ) :
    List NPUInstruction → GoldenExecutor → Option (Except (Error × GoldenExecutor) GoldenExecutor)
  | [], g => some (.ok g)
  | instr :: program, g =>
    match step u fuel instr g with
    | some (.ok g') => executeProgram u fuel program g'
    | other => other

end GoldenExecutor

end Core

end NpuArc
