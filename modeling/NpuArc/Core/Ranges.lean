import NpuArc.Core.Converters

/-!
# Ranges of instructions

The elements that an instruction reads and writes in the on-chip memory: the operand that is
chained to the instruction before it, its other operands, and its result. The theorems show
that an execution reads and writes exactly these.
-/

namespace NpuArc

namespace Core

/-- The bytes of an element. -/
def Dtype.width : Dtype → ℕ
  | .int8 => 1
  | .int32 => 4
  | .fp16 => 2

/-- A range of bytes. -/
structure Span where
  lo : ℤ
  size : ℤ

/-- The addresses of a range. -/
def Span.Contains (s : Span) (a : ℤ) : Prop := s.lo ≤ a ∧ a < s.lo + s.size

/-- Two ranges have no address in common. -/
def Span.Disjoint (s s' : Span) : Prop := ∀ a, s.Contains a → ¬s'.Contains a

/-- Elements of one type that follow each other from an address on. -/
structure Access where
  dtype : Dtype
  addr : ℤ
  count : ℤ

/-- The bytes of the elements. -/
def Access.span (acc : Access) : Span := ⟨acc.addr, acc.count * acc.dtype.width⟩

/-- The bytes that a slice of the on-chip memory finds between the ends of a range. -/
def Span.found (s : Span) : ℕ := sliceBound sramSize (s.lo + s.size) - sliceBound sramSize s.lo

/-- The number of elements that a read finds. -/
def Access.found (acc : Access) : ℕ := acc.span.found / acc.dtype.width

/-- A read succeeds: the range does not end behind the memory, and the bytes that are found
make up whole elements. -/
def Access.Readable (acc : Access) : Prop :=
  acc.addr + acc.span.size ≤ sramSize ∧ acc.span.found % acc.dtype.width = 0

instance (acc : Access) : Decidable acc.Readable := inferInstanceAs (Decidable (_ ∧ _))

namespace NPUInstruction

/-- The operand that is chained to the result of the instruction before. -/
def chainedRead (instr : NPUInstruction) : Option Access :=
  let sa := instr.operand "sa" 0
  let length := instr.operand "len" 2560
  match instr.opcode with
  | .mmul => some ⟨.int8, instr.operand "ia" 0, instr.operand "M" 1 * instr.operand "K" 2560⟩
  | .softmax | .layernorm | .gelu | .silu | .relu | .rope => some ⟨.fp16, sa, length⟩
  | .rmsnorm => some ⟨.fp16, sa, instr.operand "elements" 0⟩
  | .maxpool | .avgpool => some ⟨.fp16, sa, instr.operand "H" 2 * instr.operand "W" 2⟩
  | .vadd | .vmul | .vconv => some ⟨.int32, sa, length⟩
  | .vredMax | .vredSum | .vconvF16I32 => some ⟨.fp16, sa, length⟩
  | .vresid => some ⟨.int32, instr.operand "sb" (sa + 1024), length⟩
  | .dmaLd | .dmaSt | .kvLoad | .kvStore | .barrier | .nop | .dmaLdd | .dmaStd => none

/-- The ranges that are read besides the chained operand. -/
def otherReads (instr : NPUInstruction) : List Span :=
  let sa := instr.operand "sa" 0
  let length := instr.operand "len" 2560
  match instr.opcode with
  | .mmul =>
    [⟨instr.operand "wa" 0, (instr.operand "K" 2560 * instr.operand "N" 2560 + 1) / 2⟩]
  | .vadd | .vmul => [⟨sa + length * 4, length * 4⟩]
  | .vresid => [⟨sa, length * 2⟩]
  | .dmaSt => [⟨instr.operand "sram" 0, instr.operand "size" 0⟩]
  | _ => []

/-- The elements that are written. -/
def written (instr : NPUInstruction) : Option Access :=
  let da := instr.operand "da" 0
  let length := instr.operand "len" 2560
  match instr.opcode with
  | .mmul => some ⟨.int32, instr.operand "oa" 0, instr.operand "M" 1 * instr.operand "N" 2560⟩
  | .softmax | .layernorm | .gelu | .silu | .relu => some ⟨.fp16, da, length⟩
  | .rope => some ⟨.fp16, da, length / 2 + length / 2 / 8⟩
  | .rmsnorm => some ⟨.fp16, da, instr.operand "elements" 0⟩
  | .maxpool | .avgpool =>
    some ⟨.fp16, da, instr.operand "H" 2 / 2 * (instr.operand "W" 2 / 2)⟩
  | .vadd | .vmul | .vresid => some ⟨.int32, da, length⟩
  | .vredMax | .vredSum => some ⟨.fp16, da, 1⟩
  | .vconv => some ⟨.fp16, da, length⟩
  | .vconvF16I32 => some ⟨.int32, da, length⟩
  | .dmaLd | .dmaSt | .kvLoad | .kvStore | .barrier | .nop | .dmaLdd | .dmaStd => none

/-- The ranges of the on-chip memory that are written. -/
def writes (instr : NPUInstruction) : List Span :=
  match instr.opcode with
  | .dmaLd => [⟨instr.operand "sram" 0, instr.operand "size" 0⟩]
  | _ => instr.written.toList.map Access.span

/-- The ranges of the on-chip memory that are read. -/
def reads (instr : NPUInstruction) : List Span :=
  instr.chainedRead.toList.map Access.span ++ instr.otherReads

end NPUInstruction

/-! ### Typed reads and writes -/

/-- Elements of one type. -/
inductive Elements
  | int8 (data : List Int8)
  | int32 (data : List Int32)
  | fp16 (data : List UInt16)

namespace Elements

/-- The type of the elements. -/
def dtype : Elements → Dtype
  | .int8 _ => .int8
  | .int32 _ => .int32
  | .fp16 _ => .fp16

/-- The number of the elements. -/
def length : Elements → ℕ
  | .int8 data => data.length
  | .int32 data => data.length
  | .fp16 data => data.length

end Elements

/-- Read elements. Only the matrix unit reads 8-bit integers, without a check. -/
def SRAM.readElements (mem : SRAM) (acc : Access) : Except Error Elements :=
  match acc.dtype with
  | .int8 => .ok (.int8 ((mem.slice acc.addr (acc.addr + acc.count)).map UInt8.toInt8))
  | .int32 => (mem.readInt32 acc.addr acc.count).map .int32
  | .fp16 => (mem.readFloat16 acc.addr acc.count).map .fp16

/-- Write elements. -/
def SRAM.writeElements (mem : SRAM) (addr : ℤ) : Elements → Except Error SRAM
  | .int8 data => mem.writeInt8 addr data
  | .int32 data => mem.writeInt32 addr data
  | .fp16 data => mem.writeFloat16 addr data

/-- What an instruction computes from the elements of its chained operand. -/
def compute (u : Units) (instr : NPUInstruction) (mem : Memory) (data : Elements) :
    Except Error Elements :=
  let sa := instr.operand "sa" 0
  let length := instr.operand "len" 2560
  match instr.opcode, data with
  | .mmul, .int8 act =>
    let k := instr.operand "K" 2560
    let n := instr.operand "N" 2560
    let wa := instr.operand "wa" 0
    (u.matmulInt32 act (mem.sram.slice wa (wa + (k * n + 1) / 2)) (instr.operand "M" 1) k n).map
      .int32
  | .softmax, .fp16 inp => (u.softmaxHw inp).map .fp16
  | .layernorm, .fp16 inp => (u.layernormHw inp).map .fp16
  | .rmsnorm, .fp16 inp => (u.rmsnormHw inp).map .fp16
  | .gelu, .fp16 inp => .ok (.fp16 (inp.map u.geluHw))
  | .silu, .fp16 inp => .ok (.fp16 (inp.map u.siluHw))
  | .relu, .fp16 inp => .ok (.fp16 (inp.map u.reluHw))
  | .rope, .fp16 inp => do
    let mid := length / 2
    let (q, k) ← u.ropeHw (sliceList inp 0 mid) (sliceList inp mid (mid + mid / 8))
      (instr.operand "pos" 0)
    return .fp16 (q ++ k)
  | .maxpool, .fp16 inp =>
    (u.maxPool (instr.operand "H" 2) (instr.operand "W" 2) inp).map .fp16
  | .avgpool, .fp16 inp =>
    (u.avgPool (instr.operand "H" 2) (instr.operand "W" 2) inp).map .fp16
  | .vadd, .int32 a => do
    let b ← mem.sram.readInt32 (sa + length * 4) length
    return .int32 (← vectorAdd a b)
  | .vmul, .int32 a => do
    let b ← mem.sram.readInt32 (sa + length * 4) length
    return .int32 (← vectorMul a b)
  | .vredMax, .fp16 inp => (u.maxReduce inp).map fun x => .fp16 [x]
  | .vredSum, .fp16 inp => (u.sumReduce inp).map fun x => .fp16 [x]
  | .vconv, .int32 inp => .ok (.fp16 (inp.map u.convI32ToF16))
  | .vconvF16I32, .fp16 inp => .ok (.int32 (inp.map u.convF16ToI32))
  | .vresid, .int32 b => do
    let a ← mem.sram.readFloat16 sa length
    return .int32 (← vectorAdd (a.map u.castF16ToI32) b)
  | _, data => .ok data

/-- An instruction decodes its chained operand in the type of its access, and encodes what it
computes from it in the type of its result. -/
theorem executeOp_eq_ok {u : Units} {instr : NPUInstruction} {mem mem' : Memory} {cost : ℤ}
    {acc acc' : Access} (hread : instr.chainedRead = some acc)
    (hwritten : instr.written = some acc') (h : executeOp u instr mem = .ok (mem', cost)) :
    ∃ data out, mem.sram.readElements acc = .ok data ∧ compute u instr mem data = .ok out ∧
      mem.sram.writeElements acc'.addr out = .ok mem'.sram ∧ mem'.dram = mem.dram := by
  have hunary : ∀ {f : List UInt16 → Except Error (List UInt16)} {count cost' : ℤ},
      unaryFloat f count cost' instr mem = .ok (mem', cost) → ∃ inp out,
        mem.sram.readFloat16 (instr.operand "sa" 0) count = .ok inp ∧ f inp = .ok out ∧
        mem.sram.writeFloat16 (instr.operand "da" 0) out = .ok mem'.sram ∧
          mem'.dram = mem.dram := by
    intro f count cost' hrun
    obtain ⟨inp, hinp, hrun⟩ := bind_eq_ok.mp hrun
    obtain ⟨out, hout, hrun⟩ := bind_eq_ok.mp hrun
    obtain ⟨sram, hsram, hrun⟩ := bind_eq_ok.mp hrun
    cases hrun
    exact ⟨inp, out, hinp, hout, hsram, rfl⟩
  have hbinary : ∀ {f : List Int32 → List Int32 → Except Error (List Int32)},
      binaryInt f instr mem = .ok (mem', cost) → ∃ a b out,
        mem.sram.readInt32 (instr.operand "sa" 0) (instr.operand "len" 2560) = .ok a ∧
        mem.sram.readInt32 (instr.operand "sa" 0 + instr.operand "len" 2560 * 4)
          (instr.operand "len" 2560) = .ok b ∧ f a b = .ok out ∧
        mem.sram.writeInt32 (instr.operand "da" 0) out = .ok mem'.sram ∧
          mem'.dram = mem.dram := by
    intro f hrun
    obtain ⟨a, ha, hrun⟩ := bind_eq_ok.mp hrun
    obtain ⟨b, hb, hrun⟩ := bind_eq_ok.mp hrun
    obtain ⟨out, hout, hrun⟩ := bind_eq_ok.mp hrun
    obtain ⟨sram, hsram, hrun⟩ := bind_eq_ok.mp hrun
    cases hrun
    exact ⟨a, b, out, ha, hb, hout, hsram, rfl⟩
  unfold executeOp at h
  unfold NPUInstruction.chainedRead at hread
  unfold NPUInstruction.written at hwritten
  unfold compute SRAM.readElements
  cases hop : instr.opcode <;> rw [hop] at h hread hwritten <;> dsimp only at h hread hwritten ⊢
  case softmax | layernorm | maxpool | avgpool =>
    cases hread
    cases hwritten
    obtain ⟨inp, out, hinp, hout, hsram, hdram⟩ := hunary h
    refine ⟨.fp16 inp, .fp16 out, by rw [hinp]; rfl, ?_, hsram, hdram⟩
    dsimp only
    rw [hout]
    rfl
  case gelu | silu | relu =>
    cases hread
    cases hwritten
    obtain ⟨inp, out, hinp, hout, hsram, hdram⟩ := hunary h
    obtain rfl := Except.ok.inj hout
    exact ⟨.fp16 inp, .fp16 _, by rw [hinp]; rfl, rfl, hsram, hdram⟩
  case rmsnorm =>
    split_ifs at h
    cases hread
    cases hwritten
    obtain ⟨inp, out, hinp, hout, hsram, hdram⟩ := hunary h
    refine ⟨.fp16 inp, .fp16 out, by rw [hinp]; rfl, ?_, hsram, hdram⟩
    dsimp only
    rw [hout]
    rfl
  case rope =>
    cases hread
    cases hwritten
    obtain ⟨inp, out, hinp, hout, hsram, hdram⟩ := hunary h
    obtain ⟨qk, hqk, hout⟩ := bind_eq_ok.mp hout
    cases hout
    refine ⟨.fp16 inp, .fp16 (qk.1 ++ qk.2), by rw [hinp]; rfl, ?_, hsram, hdram⟩
    dsimp only
    rw [hqk]
    rfl
  case vredMax | vredSum =>
    cases hread
    cases hwritten
    obtain ⟨inp, out, hinp, hout, hsram, hdram⟩ := hunary h
    obtain ⟨x, hx, hout⟩ := bind_eq_ok.mp hout
    cases hout
    refine ⟨.fp16 inp, .fp16 [x], by rw [hinp]; rfl, ?_, hsram, hdram⟩
    dsimp only
    rw [hx]
    rfl
  case vadd | vmul =>
    cases hread
    cases hwritten
    obtain ⟨a, b, out, ha, hb, hout, hsram, hdram⟩ := hbinary h
    refine ⟨.int32 a, .int32 out, by rw [ha]; rfl, ?_, hsram, hdram⟩
    dsimp only
    rw [hb, bind_eq_ok_left, hout]
    rfl
  case mmul =>
    cases hread
    cases hwritten
    obtain ⟨out, hout, h⟩ := bind_eq_ok.mp h
    obtain ⟨sram, hsram, h⟩ := bind_eq_ok.mp h
    cases h
    refine ⟨.int8 _, .int32 out, rfl, ?_, hsram, rfl⟩
    dsimp only
    rw [hout]
    rfl
  case vconv =>
    cases hread
    cases hwritten
    obtain ⟨inp, hinp, h⟩ := bind_eq_ok.mp h
    obtain ⟨sram, hsram, h⟩ := bind_eq_ok.mp h
    cases h
    exact ⟨.int32 inp, .fp16 (inp.map u.convI32ToF16), by rw [hinp]; rfl, rfl, hsram, rfl⟩
  case vconvF16I32 =>
    cases hread
    cases hwritten
    obtain ⟨inp, hinp, h⟩ := bind_eq_ok.mp h
    obtain ⟨sram, hsram, h⟩ := bind_eq_ok.mp h
    cases h
    exact ⟨.fp16 inp, .int32 (inp.map u.convF16ToI32), by rw [hinp]; rfl, rfl, hsram, rfl⟩
  case vresid =>
    cases hread
    cases hwritten
    obtain ⟨a, ha, h⟩ := bind_eq_ok.mp h
    obtain ⟨b, hb, h⟩ := bind_eq_ok.mp h
    obtain ⟨out, hout, h⟩ := bind_eq_ok.mp h
    obtain ⟨sram, hsram, h⟩ := bind_eq_ok.mp h
    cases h
    refine ⟨.int32 b, .int32 out, by rw [hb]; rfl, ?_, hsram, rfl⟩
    dsimp only
    rw [ha, bind_eq_ok_left, hout]
    rfl
  all_goals cases hread

/-! ### The number of elements -/

/-- The number of elements of two arrays that are combined. -/
def broadcastLength (m n : ℕ) : ℕ := if m = n then m else if m = 1 then n else m

/-- The number of elements between two bounds of a list. -/
def sliceLength (n : ℕ) (a b : ℤ) : ℕ := sliceBound n b - sliceBound n a

namespace NPUInstruction

/-- The number of elements that an execution writes. -/
def writtenCount (instr : NPUInstruction) : ℕ :=
  let sa := instr.operand "sa" 0
  let length := instr.operand "len" 2560
  let found := (instr.chainedRead.map Access.found).getD 0
  match instr.opcode with
  | .mmul => (instr.operand "M" 1 * instr.operand "N" 2560).toNat
  | .softmax | .layernorm | .rmsnorm | .gelu | .silu | .relu | .vconv | .vconvF16I32 => found
  | .rope =>
    let mid := length / 2
    sliceLength found 0 mid + sliceLength found mid (mid + mid / 8)
  | .maxpool | .avgpool => (instr.operand "H" 2 / 2 * (instr.operand "W" 2 / 2)).toNat
  | .vadd | .vmul => broadcastLength found (Access.found ⟨.int32, sa + length * 4, length⟩)
  | .vresid => broadcastLength (Access.found ⟨.fp16, sa, length⟩) found
  | .vredMax | .vredSum => 1
  | .dmaLd | .dmaSt | .kvLoad | .kvStore | .barrier | .nop | .dmaLdd | .dmaStd => 0

end NPUInstruction

/-- The shapes of what the units return. -/
structure Units.Shaped (u : Units) : Prop where
  matmul : ∀ {act weights m k n out}, u.matmulInt32 act weights m k n = .ok out →
    (out.length : ℤ) = m * n
  softmax : ∀ {inp out}, u.softmaxHw inp = .ok out → out.length = inp.length
  layernorm : ∀ {inp out}, u.layernormHw inp = .ok out → out.length = inp.length
  rmsnorm : ∀ {inp out}, u.rmsnormHw inp = .ok out → out.length = inp.length
  rope : ∀ {q k position out}, u.ropeHw q k position = .ok out →
    out.1.length = q.length ∧ out.2.length = k.length
  maxPool : ∀ {h w inp out}, u.maxPool h w inp = .ok out → (out.length : ℤ) = h / 2 * (w / 2)
  avgPool : ∀ {h w inp out}, u.avgPool h w inp = .ok out → (out.length : ℤ) = h / 2 * (w / 2)

theorem length_broadcast {α β γ : Type} {f : α → β → γ} {a : List α} {b : List β} {out : List γ}
    (h : broadcast f a b = .ok out) : out.length = broadcastLength a.length b.length := by
  unfold broadcast at h
  unfold broadcastLength
  split_ifs at h with heq ha hb
  · cases h
    rw [if_pos heq, List.length_zipWith]
    omega
  · cases h
    obtain ⟨x, rfl⟩ := List.length_eq_one_iff.mp ha
    rw [if_neg heq, if_pos ha, List.flatMap_singleton, List.length_map]
  · cases h
    obtain ⟨y, rfl⟩ := List.length_eq_one_iff.mp hb
    rw [if_neg heq, if_neg ha, List.flatMap_singleton, List.length_map]

/-- A mapped computation succeeds with the image of a result. -/
theorem exists_of_map_eq_ok {α β : Type} {f : α → β} {x : Except Error α} {b : β}
    (h : x.map f = .ok b) : ∃ a, x = .ok a ∧ b = f a := by
  cases x with
  | error e => cases h
  | ok a =>
    cases h
    exact ⟨a, rfl, rfl⟩

theorem length_sliceList {α : Type} (l : List α) (a b : ℤ) :
    (sliceList l a b).length = sliceLength l.length a b := by
  have hb := sliceBound_le l.length b
  rw [sliceList, List.length_take, List.length_drop, sliceLength]
  omega

theorem length_fromBuffer {width : ℕ} {raw : List UInt8} {words : List ℕ}
    (h : fromBuffer width raw = .ok words) : words.length = raw.length / width := by
  unfold fromBuffer at h
  split_ifs at h
  cases h
  rw [List.length_map, List.length_range]

theorem length_readBytes {mem : SRAM} {addr n : ℤ} {raw : List UInt8}
    (h : mem.readBytes addr n = .ok raw) : raw.length = Span.found ⟨addr, n⟩ := by
  unfold SRAM.readBytes at h
  split_ifs at h
  cases h
  exact FixedArray.length_slice _ _ _

theorem length_readInt32 {mem : SRAM} {addr n : ℤ} {data : List Int32}
    (h : mem.readInt32 addr n = .ok data) : data.length = Access.found ⟨.int32, addr, n⟩ := by
  obtain ⟨raw, hraw, h⟩ := bind_eq_ok.mp h
  obtain ⟨words, hwords, h⟩ := bind_eq_ok.mp h
  cases h
  rw [List.length_map, length_fromBuffer hwords, length_readBytes hraw]
  rfl

theorem length_readFloat16 {mem : SRAM} {addr n : ℤ} {data : List UInt16}
    (h : mem.readFloat16 addr n = .ok data) : data.length = Access.found ⟨.fp16, addr, n⟩ := by
  obtain ⟨raw, hraw, h⟩ := bind_eq_ok.mp h
  obtain ⟨words, hwords, h⟩ := bind_eq_ok.mp h
  cases h
  rw [List.length_map, length_fromBuffer hwords, length_readBytes hraw]
  rfl

/-- A read gives elements of its type, as many as it finds. -/
theorem readElements_eq_ok {mem : SRAM} {acc : Access} {data : Elements}
    (h : mem.readElements acc = .ok data) :
    data.dtype = acc.dtype ∧ data.length = acc.found := by
  obtain ⟨dtype, addr, n⟩ := acc
  unfold SRAM.readElements at h
  cases dtype with
  | int8 =>
    cases h
    refine ⟨rfl, ?_⟩
    rw [Elements.length, List.length_map, FixedArray.length_slice]
    change _ = Span.found ⟨addr, n * (1 : ℕ)⟩ / 1
    rw [Nat.div_one, Span.found]
    simp
  | int32 =>
    obtain ⟨l, hl, rfl⟩ := exists_of_map_eq_ok h
    exact ⟨rfl, length_readInt32 hl⟩
  | fp16 =>
    obtain ⟨l, hl, rfl⟩ := exists_of_map_eq_ok h
    exact ⟨rfl, length_readFloat16 hl⟩

/-- What an instruction computes has the type and the number of its result. -/
theorem compute_eq_ok {u : Units} (hshape : u.Shaped) {instr : NPUInstruction} {mem : Memory}
    {acc acc' : Access} {data out : Elements} (hread : instr.chainedRead = some acc)
    (hwritten : instr.written = some acc') (hdata : mem.sram.readElements acc = .ok data)
    (h : compute u instr mem data = .ok out) :
    out.dtype = acc'.dtype ∧ out.length = instr.writtenCount := by
  obtain ⟨hdtype, hlength⟩ := readElements_eq_ok hdata
  clear hdata
  have hread' := hread
  unfold NPUInstruction.chainedRead at hread
  unfold NPUInstruction.written at hwritten
  unfold compute at h
  unfold NPUInstruction.writtenCount
  rw [hread', Option.map_some, Option.getD_some, ← hlength]
  clear hread' hlength
  cases hop : instr.opcode <;> rw [hop] at h hread hwritten <;> dsimp only at h hread hwritten ⊢ <;>
    cases hread <;> cases hwritten <;> cases data <;> cases hdtype
  case mmul =>
    obtain ⟨l, hl, rfl⟩ := exists_of_map_eq_ok h
    exact ⟨rfl, (congrArg Int.toNat (hshape.matmul hl) :)⟩
  case softmax =>
    obtain ⟨l, hl, rfl⟩ := exists_of_map_eq_ok h
    exact ⟨rfl, hshape.softmax hl⟩
  case layernorm =>
    obtain ⟨l, hl, rfl⟩ := exists_of_map_eq_ok h
    exact ⟨rfl, hshape.layernorm hl⟩
  case rmsnorm =>
    obtain ⟨l, hl, rfl⟩ := exists_of_map_eq_ok h
    exact ⟨rfl, hshape.rmsnorm hl⟩
  case gelu | silu | relu | vconv | vconvF16I32 =>
    cases h
    exact ⟨rfl, List.length_map _⟩
  case rope =>
    obtain ⟨qk, hqk, h⟩ := bind_eq_ok.mp h
    cases h
    obtain ⟨hq, hk⟩ := hshape.rope hqk
    refine ⟨rfl, ?_⟩
    rw [Elements.length, List.length_append, hq, hk, length_sliceList, length_sliceList]
    rfl
  case maxpool =>
    obtain ⟨l, hl, rfl⟩ := exists_of_map_eq_ok h
    exact ⟨rfl, (congrArg Int.toNat (hshape.maxPool hl) :)⟩
  case avgpool =>
    obtain ⟨l, hl, rfl⟩ := exists_of_map_eq_ok h
    exact ⟨rfl, (congrArg Int.toNat (hshape.avgPool hl) :)⟩
  case vadd | vmul =>
    obtain ⟨b, hb, h⟩ := bind_eq_ok.mp h
    obtain ⟨l, hl, h⟩ := bind_eq_ok.mp h
    cases h
    refine ⟨rfl, ?_⟩
    rw [← length_readInt32 hb]
    exact length_broadcast hl
  case vresid =>
    obtain ⟨a, ha, h⟩ := bind_eq_ok.mp h
    obtain ⟨l, hl, h⟩ := bind_eq_ok.mp h
    cases h
    refine ⟨rfl, ?_⟩
    rw [← length_readFloat16 ha]
    refine (length_broadcast hl).trans ?_
    rw [List.length_map]
    rfl
  case vredMax | vredSum =>
    obtain ⟨x, hx, rfl⟩ := exists_of_map_eq_ok h
    exact ⟨rfl, rfl⟩

/-- An execution writes elements in the type, at the address and in the number of its result,
and leaves the main memory. -/
theorem executeOp_writes {u : Units} (hshape : u.Shaped) {instr : NPUInstruction}
    {mem mem' : Memory} {cost : ℤ} {acc acc' : Access} (hread : instr.chainedRead = some acc)
    (hwritten : instr.written = some acc') (h : executeOp u instr mem = .ok (mem', cost)) :
    ∃ out : Elements, out.dtype = acc'.dtype ∧ out.length = instr.writtenCount ∧
      mem.sram.writeElements acc'.addr out = .ok mem'.sram ∧ mem'.dram = mem.dram := by
  obtain ⟨data, out, hdata, hout, hsram, hdram⟩ := executeOp_eq_ok hread hwritten h
  obtain ⟨hdtype, hlength⟩ := compute_eq_ok hshape hread hwritten hdata hout
  exact ⟨out, hdtype, hlength, hsram, hdram⟩

end Core

end NpuArc
