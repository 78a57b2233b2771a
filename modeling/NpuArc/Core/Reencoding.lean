import NpuArc.Core.Isa

/-!
# Reading an encoded instruction back

The decoder reads each operand of an instruction from the field in which the encoder put it. The
height and the width of a pooling window are the exception: the decoder adds one to them, and the
encoder does not take it off.
-/

namespace NpuArc

namespace Core

/-- A field of an instruction: the bits of its operand, the unit in which the word counts it, and
what the decoder adds to it. -/
structure OperandField where
  key : String
  bits : ℕ
  unit : ℕ := 1
  bias : ℕ := 0

/-- The fields of an operation. -/
def OpCode.fields : OpCode → List OperandField
  | .mmul =>
    [{ key := "wa", bits := 10 }, { key := "ia", bits := 10 }, { key := "oa", bits := 16 },
      { key := "N", bits := 7 }]
  | .dmaLd | .dmaSt =>
    [{ key := "dram", bits := 16, unit := 16 }, { key := "sram", bits := 12, unit := 16 },
      { key := "size", bits := 7 }]
  | .kvLoad | .kvStore => [{ key := "token_id", bits := 12 }]
  | .maxpool | .avgpool =>
    [{ key := "sa", bits := 12 }, { key := "da", bits := 12 }, { key := "H", bits := 2, bias := 1 },
      { key := "W", bits := 1, bias := 1 }]
  | .barrier | .nop => []
  | .rmsnorm =>
    [{ key := "sa", bits := 12 }, { key := "da", bits := 12 }, { key := "elements", bits := 3 }]
  | .rope | .vadd | .vmul | .vredMax | .vredSum | .vconv | .vresid | .vconvF16I32 | .dmaLdd
  | .dmaStd | .softmax | .layernorm | .gelu | .relu | .silu =>
    [{ key := "sa", bits := 12 }, { key := "da", bits := 12 }, { key := "len", bits := 3 }]

/-- What is read back from a field for an operand. -/
def OperandField.stored (field : OperandField) (x : ℤ) : ℕ :=
  lowBits field.bits x / field.unit * field.unit + field.bias

/-- A field can give an operand. -/
def OperandField.Holds (field : OperandField) (x : ℤ) : Prop :=
  field.bias ≤ x ∧ x - field.bias < 2 ^ field.bits ∧ (field.unit : ℤ) ∣ x - field.bias

/-- The instruction that is read back. -/
def decoded (instr : NPUInstruction) : NPUInstruction where
  opcode := instr.opcode
  operands := .ofList (instr.opcode.fields.map fun field =>
    (field.key, (field.stored (instr.operand field.key 0) : ℤ)))

/-! ### The fields of a word -/

/-- The opcode and the fields of a word with two addresses. -/
theorem read_addressWord (op : OpCode) (sa da : ℤ) {low : ℕ} (hlow : low < 8) :
    addressWord op sa da low >>> 27 = op.value ∧
      addressWord op sa da low >>> 15 &&& 0xFFF = lowBits 12 sa ∧
      addressWord op sa da low >>> 3 &&& 0xFFF = lowBits 12 da ∧
      addressWord op sa da low &&& 0x7 = low :=
  read_threeFields (i := 12) (j := 12) (k := 3) op.value (lowBits_lt 12 sa) (lowBits_lt 12 da) hlow
    rfl

/-- The opcode is read back from the highest bits. -/
theorem ofValue_of_shiftRight {op : OpCode} {w : ℕ} (hw : w >>> 27 = op.value) :
    OpCode.ofValue (w >>> 27 &&& 0x1F) = .ok op := by
  have hmask : op.value &&& 0x1F = op.value := by
    rw [show 0x1F = 2 ^ 5 - 1 from rfl, and_mask, Nat.mod_eq_of_lt op.value_lt]
  rw [hw, hmask, OpCode.ofValue_value]

/-- The operands of a word with two addresses and a length. -/
theorem addressOperands_addressWord (op : OpCode) (sa da x : ℤ) (key : String) :
    addressOperands (addressWord op sa da (lowBits 12 x &&& 0x7)) key =
      .ofList [("sa", ((lowBits 12 sa : ℕ) : ℤ)), ("da", ((lowBits 12 da : ℕ) : ℤ)),
        (key, ((lowBits 3 x : ℕ) : ℤ))] := by
  have hlow : lowBits 12 x &&& 0x7 = lowBits 3 x := lowBits_and_mask (i := 3) (by decide) x
  obtain ⟨-, hsa, hda, hthird⟩ := read_addressWord op sa da (hlow ▸ lowBits_lt 3 x)
  rw [addressOperands, hsa, hda, hthird, hlow]

theorem ofValue_addressWord (op : OpCode) (sa da x : ℤ) :
    OpCode.ofValue (addressWord op sa da (lowBits 12 x &&& 0x7) >>> 27 &&& 0x1F) = .ok op := by
  have hlow : lowBits 12 x &&& 0x7 = lowBits 3 x := lowBits_and_mask (i := 3) (by decide) x
  exact ofValue_of_shiftRight (read_addressWord op sa da (hlow ▸ lowBits_lt 3 x)).1

theorem stored_biased (key : String) (bits bias : ℕ) (x : ℤ) :
    ({ key, bits, bias } : OperandField).stored x = lowBits bits x + bias := by
  rw [OperandField.stored, Nat.div_one, Nat.mul_one]

theorem stored_plain (key : String) (bits : ℕ) (x : ℤ) :
    ({ key, bits } : OperandField).stored x = lowBits bits x := stored_biased key bits 0 x

/-- An address of 4 + `i` bits is stored in units of sixteen bytes. -/
theorem stored_units (key : String) (i : ℕ) (x : ℤ) :
    ({ key, bits := i + 4, unit := 16 } : OperandField).stored x =
      (lowBits (i + 4) x >>> 4 &&& (2 ^ i - 1)) <<< 4 := by
  have hlt : lowBits (i + 4) x / 2 ^ 4 < 2 ^ i := by
    have hbits := lowBits_lt (i + 4) x
    rw [pow_add] at hbits
    omega
  rw [shiftRight_and_mask, Nat.mod_eq_of_lt hlt, Nat.shiftLeft_eq]
  rfl

/-- An operation with two addresses and a third operand is read back from its fields. -/
theorem decode_addressed {op : OpCode} {key : String} {operands : Dict String ℤ}
    (comment : String) (hfields : op.fields =
      [{ key := "sa", bits := 12 }, { key := "da", bits := 12 }, { key, bits := 3 }]) :
    addressOperands (addressWord op ((operands.get? "sa").getD 0) ((operands.get? "da").getD 0)
      (lowBits 12 ((operands.get? key).getD 0) &&& 0x7)) key =
      (decoded { opcode := op, operands, comment }).operands := by
  rw [addressOperands_addressWord, decoded, hfields]
  simp only [List.map_cons, stored_plain, List.map_nil, NPUInstruction.operand]

/-- The height and the width of a window, which are read behind the addresses. -/
theorem read_window {h w : ℕ} (word : ℕ) (hw : word &&& 0x7 = (h &&& 0x3) <<< 1 ||| w &&& 0x1) :
    word >>> 1 &&& 0x3 = h &&& 0x3 ∧ word &&& 0x1 = w &&& 0x1 := by
  have hmask : ∀ x : ℕ, x &&& 0x1 = x % 2 := fun x => and_mask x 1
  have h7 : word &&& 0x7 = word % 8 := and_mask word 3
  have h3 : word >>> 1 &&& 0x3 = word / 2 % 4 := shiftRight_and_mask word 1 2
  have hh : h &&& 0x3 = h % 4 := and_mask h 2
  have hlow : (h % 4) <<< 1 ||| w % 2 = h % 4 * 2 + w % 2 := by
    rw [Nat.shiftLeft_eq, or_eq_add (i := 1) (Nat.mul_mod_left _ _) (by omega), pow_one]
  rw [h7, hh, hmask, hlow] at hw
  rw [h3, hmask, hh, hmask]
  omega

/-- The four operands of a matrix multiplication, the third of which has a word of its own. -/
theorem decode_multiply (operands : Dict String ℤ) (comment : String) :
    decode (encode { opcode := .mmul, operands, comment }) =
      .ok (decoded { opcode := .mmul, operands, comment }) := by
  simp only [encode, NPUInstruction.operand]
  set wa := (operands.get? "wa").getD 0
  set ia := (operands.get? "ia").getD 0
  set oa := (operands.get? "oa").getD 0
  set n := (operands.get? "N").getD 0
  generalize hw : OpCode.mmul.value <<< 27 ||| lowBits 10 wa <<< 17 ||| lowBits 10 ia <<< 7 |||
    lowBits 7 n = w
  obtain ⟨hop, hwa, hia, hn⟩ : w >>> 27 = OpCode.mmul.value ∧ w >>> 17 &&& 0x3FF = lowBits 10 wa ∧
      w >>> 7 &&& 0x3FF = lowBits 10 ia ∧ w &&& 0x7F = lowBits 7 n :=
    read_threeFields (i := 10) (j := 10) (k := 7) _ (lowBits_lt 10 wa) (lowBits_lt 10 ia)
      (lowBits_lt 7 n) hw.symm
  have hoa : lowBits 16 oa <<< 16 >>> 16 &&& 0xFFFF = lowBits 16 oa := by
    rw [Nat.shiftLeft_shiftRight]
    exact Nat.and_two_pow_sub_one_of_lt_two_pow (lowBits_lt 16 oa)
  simp only [decode, ofValue_of_shiftRight hop, hoa, hwa, hia, hn]
  simp only [decoded, OpCode.fields, List.map_cons, stored_plain, List.map_nil]
  rfl

/-- The operands of a pooling window, with one added to its height and its width. -/
theorem decode_pooling {op : OpCode} (hop : op = .maxpool ∨ op = .avgpool)
    (operands : Dict String ℤ) (comment : String) :
    decode (encode { opcode := op, operands, comment }) =
      .ok (decoded { opcode := op, operands, comment }) := by
  set h := (operands.get? "H").getD 0 with hh
  set w := (operands.get? "W").getD 0 with hw
  have hlow : (lowBits 4 h &&& 0x3) <<< 1 ||| lowBits 4 w &&& 0x1 < 8 :=
    Nat.or_lt_two_pow (n := 3)
      (Nat.shiftLeft_lt (n := 2) (Nat.and_lt_two_pow (n := 2) _ (by decide)))
      (Nat.and_lt_two_pow (n := 3) _ (by decide))
  obtain ⟨hopcode, hsa, hda, hrest⟩ := read_addressWord op ((operands.get? "sa").getD 0)
    ((operands.get? "da").getD 0) hlow
  obtain ⟨hheight, hwidth⟩ := read_window _ hrest
  replace hheight := hheight.trans (lowBits_and_mask (i := 2) (by decide) h)
  replace hwidth := hwidth.trans (lowBits_and_mask (i := 1) (by decide) w)
  rcases hop with rfl | rfl <;>
    simp only [encode, decode, NPUInstruction.operand, ← hh, ← hw, ofValue_of_shiftRight hopcode,
      hsa, hda, hheight, hwidth, decoded, OpCode.fields, List.map_cons, stored_biased,
      List.map_nil]
  · rfl
  · rfl

/-- The two addresses of a transfer in units of sixteen bytes, and its size. -/
theorem decode_transfer {op : OpCode} (hop : op = .dmaLd ∨ op = .dmaSt)
    (operands : Dict String ℤ) (comment : String) :
    decode (encode { opcode := op, operands, comment }) =
      .ok (decoded { opcode := op, operands, comment }) := by
  set dram := (operands.get? "dram").getD 0 with hdram
  set sram := (operands.get? "sram").getD 0 with hsram
  set size := (operands.get? "size").getD 0 with hsize
  generalize hw : op.value <<< 27 ||| (lowBits 16 dram >>> 4 &&& 0xFFF) <<< 15 |||
    (lowBits 12 sram >>> 4 &&& 0xFF) <<< 7 ||| lowBits 12 size &&& 0x7F = w
  obtain ⟨hopcode, hreadDram, hreadSram, hreadSize⟩ : w >>> 27 = op.value ∧
      w >>> 15 &&& 0xFFF = lowBits 16 dram >>> 4 &&& 0xFFF ∧
      w >>> 7 &&& 0xFF = lowBits 12 sram >>> 4 &&& 0xFF ∧ w &&& 0x7F = lowBits 12 size &&& 0x7F :=
    read_threeFields (i := 12) (j := 8) (k := 7) _ (Nat.and_lt_two_pow _ (by decide))
      (Nat.and_lt_two_pow _ (by decide)) (Nat.and_lt_two_pow _ (by decide)) hw.symm
  replace hreadSize := hreadSize.trans (lowBits_and_mask (i := 7) (by decide) size)
  have hstoredDram := stored_units "dram" 12 dram
  have hstoredSram := stored_units "sram" 8 sram
  rcases hop with rfl | rfl <;>
    simp only [encode, decode, NPUInstruction.operand, ← hdram, ← hsram, ← hsize, hw,
      ofValue_of_shiftRight hopcode, hreadDram, hreadSram, hreadSize, decoded, OpCode.fields,
      List.map_cons, stored_plain, List.map_nil, hstoredDram, hstoredSram]
  · rfl
  · rfl

/-- The number of a token in the lowest bits. -/
theorem decode_token {op : OpCode} (hop : op = .kvLoad ∨ op = .kvStore)
    (operands : Dict String ℤ) (comment : String) :
    decode (encode { opcode := op, operands, comment }) =
      .ok (decoded { opcode := op, operands, comment }) := by
  set token := (operands.get? "token_id").getD 0 with htoken
  have hfield : lowBits 12 token &&& 0xFFF = lowBits 12 token :=
    lowBits_and_mask (i := 12) (by decide) token
  generalize hw : op.value <<< 27 ||| lowBits 12 token &&& 0xFFF = w
  obtain ⟨hopcode, -, -, hread⟩ : w >>> 27 = op.value ∧ w >>> 19 &&& 0xFF = 0 ∧
      w >>> 12 &&& 0x7F = 0 ∧ w &&& 0xFFF = lowBits 12 token :=
    read_threeFields (i := 8) (j := 7) (k := 12) _ (by decide) (by decide) (lowBits_lt 12 token)
      (by rw [← hw, hfield, Nat.zero_shiftLeft, Nat.zero_shiftLeft, Nat.or_zero, Nat.or_zero])
  rcases hop with rfl | rfl <;>
    simp only [encode, decode, NPUInstruction.operand, ← htoken, hw, ofValue_of_shiftRight hopcode,
      hread, decoded, OpCode.fields, List.map_cons, stored_plain, List.map_nil]
  · rfl
  · rfl

/-- Every instruction is read back with what its fields store of its operands. -/
theorem decode_encode (instr : NPUInstruction) : decode (encode instr) = .ok (decoded instr) := by
  obtain ⟨op, operands, comment⟩ := instr
  cases op
  case mmul => exact decode_multiply operands comment
  case maxpool | avgpool => exact decode_pooling (by decide) operands comment
  case dmaLd | dmaSt => exact decode_transfer (by decide) operands comment
  case kvLoad | kvStore => exact decode_token (by decide) operands comment
  case barrier | nop =>
    simp only [encode, decode]
    rfl
  all_goals
    simp only [encode, decode, NPUInstruction.operand, ofValue_addressWord]
    rw [decode_addressed comment rfl]
    rfl

/-! ### Encoding again -/

/-- The number that the word keeps of an operand. -/
def OperandField.count (field : OperandField) (x : ℤ) : ℕ := lowBits field.bits x / field.unit

/-- Two instructions with the same opcode and the same field values have the same words. -/
theorem encode_congr {instr instr' : NPUInstruction} (hop : instr'.opcode = instr.opcode)
    (hfields : ∀ field ∈ instr.opcode.fields, field.count (instr'.operand field.key 0) =
      field.count (instr.operand field.key 0)) : encode instr' = encode instr := by
  have hthree : ∀ x, lowBits 12 x &&& 0x7 = lowBits 3 x := fun x =>
    lowBits_and_mask (i := 3) (by decide) x
  have hseven : ∀ x, lowBits 12 x &&& 0x7F = lowBits 7 x := fun x =>
    lowBits_and_mask (i := 7) (by decide) x
  have htwo : ∀ x, lowBits 4 x &&& 0x3 = lowBits 2 x := fun x =>
    lowBits_and_mask (i := 2) (by decide) x
  have hone : ∀ x, lowBits 4 x &&& 0x1 = lowBits 1 x := fun x =>
    lowBits_and_mask (i := 1) (by decide) x
  have hunits : ∀ x : ℕ, x >>> 4 = x / 16 := fun x => Nat.shiftRight_eq_div_pow x 4
  cases hopcode : instr.opcode <;>
    simp only [hopcode, OpCode.fields, List.forall_mem_cons, OperandField.count, Nat.div_one,
      List.not_mem_nil, false_imp_iff, implies_true, and_true] at hop hfields
  case mmul =>
    obtain ⟨hwa, hia, hoa, hn⟩ := hfields
    simp only [encode, hop, hopcode, hwa, hia, hoa, hn]
  case dmaLd | dmaSt =>
    obtain ⟨hdram, hsram, hsize⟩ := hfields
    simp only [encode, hop, hopcode, hunits, hdram, hsram, hseven, hsize]
  case maxpool | avgpool =>
    obtain ⟨hsa, hda, hheight, hwidth⟩ := hfields
    simp only [encode, hop, hopcode, addressWord, hsa, hda, htwo, hone, hheight, hwidth]
  case kvLoad | kvStore => simp only [encode, hop, hopcode, hfields]
  case barrier | nop => simp only [encode, hop, hopcode]
  all_goals
    obtain ⟨hsa, hda, hthird⟩ := hfields
    simp only [encode, hop, hopcode, addressWord, hsa, hda, hthree, hthird]

/-- No two fields of an operation have the same name. -/
theorem keys_fields_nodup (op : OpCode) : (op.fields.map OperandField.key).Nodup := by
  cases op <;> decide

/-- The operand that is read back from a field. -/
theorem operand_decoded (instr : NPUInstruction) {field : OperandField}
    (hfield : field ∈ instr.opcode.fields) :
    (decoded instr).operands.get? field.key =
      some (field.stored (instr.operand field.key 0) : ℤ) := by
  refine Dict.get?_ofList_of_mem ?_ (List.mem_map_of_mem hfield)
  rw [List.map_map]
  exact keys_fields_nodup instr.opcode

/-- Only the fields are read back. -/
theorem exists_field_of_decoded {instr : NPUInstruction} {key : String} {x : ℤ}
    (h : (decoded instr).operands.get? key = some x) :
    ∃ field ∈ instr.opcode.fields, field.key = key := by
  obtain ⟨field, hfield, heq⟩ := List.mem_map.mp (Dict.mem_of_get?_ofList h)
  exact ⟨field, hfield, congrArg Prod.fst heq⟩

/-! ### Stable instructions -/

/-- Only the fields of the opcode are given, with operands that they hold. -/
def FitsFields (instr : NPUInstruction) : Prop :=
  ∀ key x, instr.operands.get? key = some x →
    ∃ field ∈ instr.opcode.fields, field.key = key ∧ field.Holds x

/-- Each field of the opcode is given. -/
def GivesFields (instr : NPUInstruction) : Prop :=
  ∀ field ∈ instr.opcode.fields, ∃ x, instr.operands.get? field.key = some x

/-- An instruction is encoded to the same words again when it is read back. If its operands fit,
then it is read back with its opcode and its operands, and with the encoder's default for an
operand that is not given. -/
def Stable (instr : NPUInstruction) : Prop :=
  (∃ instr', decode (encode instr) = .ok instr' ∧ encode instr' = encode instr) ∧
    (FitsFields instr → ∃ instr', decode (encode instr) = .ok instr' ∧
      instr'.opcode = instr.opcode ∧ ∀ key, instr'.operand key 0 = instr.operand key 0) ∧
    (FitsFields instr → GivesFields instr → Survives instr)

theorem unit_pos {op : OpCode} {field : OperandField} (hfield : field ∈ op.fields) :
    0 < field.unit := by
  have hall : ∀ field ∈ op.fields, 0 < field.unit := by cases op <;> decide
  exact hall field hfield

/-- Only the fields of a pooling window have a bias. -/
theorem bias_eq_zero {op : OpCode} (hop : op ≠ .maxpool ∧ op ≠ .avgpool) {field : OperandField}
    (hfield : field ∈ op.fields) : field.bias = 0 := by
  have hall : op ≠ .maxpool ∧ op ≠ .avgpool → ∀ field ∈ op.fields, field.bias = 0 := by
    cases op <;> decide
  exact hall hop field hfield

/-- What is read back from a field without a bias is counted as before. -/
theorem count_stored {field : OperandField} (hunit : 0 < field.unit) (hbias : field.bias = 0)
    (x : ℤ) : field.count (field.stored x) = field.count x := by
  have hlt : lowBits field.bits x / field.unit * field.unit < 2 ^ field.bits :=
    (Nat.div_mul_le_self _ _).trans_lt (lowBits_lt field.bits x)
  rw [OperandField.count, OperandField.count, OperandField.stored, hbias, Nat.add_zero,
    lowBits_of_lt (Int.natCast_nonneg _) (by exact_mod_cast hlt), Int.toNat_natCast,
    Nat.mul_div_cancel _ hunit]

/-- An operand that a field without a bias holds is read back. -/
theorem stored_of_holds {field : OperandField} (hbias : field.bias = 0) {x : ℤ}
    (hx : field.Holds x) : (field.stored x : ℤ) = x := by
  obtain ⟨hle, hlt, hdvd⟩ := hx
  rw [hbias, Nat.cast_zero] at hle
  rw [hbias, Nat.cast_zero, sub_zero] at hlt hdvd
  obtain ⟨n, rfl⟩ := Int.eq_ofNat_of_zero_le hle
  rw [OperandField.stored, hbias, Nat.add_zero, lowBits_of_lt hle hlt, Int.toNat_natCast,
    Nat.div_mul_cancel (Int.natCast_dvd_natCast.mp hdvd)]

/-- The default of an operand is read back. -/
theorem stored_zero {field : OperandField} (hbias : field.bias = 0) : field.stored 0 = 0 := by
  rw [OperandField.stored, hbias, lowBits_of_lt le_rfl (pow_pos (by decide) _), Int.toNat_zero,
    Nat.zero_div, Nat.zero_mul]

/-- Outside pooling windows the instruction that is read back has the same words. -/
theorem encode_decoded {instr : NPUInstruction}
    (hop : instr.opcode ≠ .maxpool ∧ instr.opcode ≠ .avgpool) :
    encode (decoded instr) = encode instr := by
  refine encode_congr rfl fun field hfield => ?_
  rw [NPUInstruction.operand, operand_decoded instr hfield]
  exact count_stored (unit_pos hfield) (bias_eq_zero hop hfield) _

/-- An operand that fits is read back. -/
theorem get?_decoded_of_fits {instr : NPUInstruction}
    (hop : instr.opcode ≠ .maxpool ∧ instr.opcode ≠ .avgpool) (hfits : FitsFields instr)
    {key : String} {x : ℤ} (hx : instr.operands.get? key = some x) :
    (decoded instr).operands.get? key = some x := by
  obtain ⟨field, hfield, rfl, hholds⟩ := hfits key x hx
  have hoperand : instr.operand field.key 0 = x := by rw [NPUInstruction.operand, hx]; rfl
  rw [operand_decoded instr hfield, hoperand, stored_of_holds (bias_eq_zero hop hfield) hholds]

/-- If the operands fit then each key reads as before. -/
theorem operand_decoded_of_fits {instr : NPUInstruction}
    (hop : instr.opcode ≠ .maxpool ∧ instr.opcode ≠ .avgpool) (hfits : FitsFields instr)
    (key : String) :
    (decoded instr).operand key 0 = instr.operand key 0 := by
  rw [NPUInstruction.operand, NPUInstruction.operand]
  cases hgiven : instr.operands.get? key with
  | some x => rw [get?_decoded_of_fits hop hfits hgiven]
  | none =>
    cases hread : (decoded instr).operands.get? key with
    | none => rfl
    | some x =>
      obtain ⟨field, hfield, rfl⟩ := exists_field_of_decoded hread
      rw [operand_decoded instr hfield, NPUInstruction.operand, hgiven] at hread
      obtain rfl := Option.some_inj.mp hread
      exact congrArg Nat.cast (stored_zero (bias_eq_zero hop hfield))

/-- An instruction with all its operands in their fields is read back. -/
theorem survives_of_fits {instr : NPUInstruction}
    (hop : instr.opcode ≠ .maxpool ∧ instr.opcode ≠ .avgpool) (hfits : FitsFields instr)
    (hcomplete : GivesFields instr) : Survives instr := by
  refine ⟨decoded instr, decode_encode instr, rfl, fun key => ?_⟩
  cases hgiven : instr.operands.get? key with
  | some x => exact get?_decoded_of_fits hop hfits hgiven
  | none =>
    cases hread : (decoded instr).operands.get? key with
    | none => rfl
    | some x =>
      obtain ⟨field, hfield, rfl⟩ := exists_field_of_decoded hread
      obtain ⟨y, hy⟩ := hcomplete field hfield
      rw [hgiven] at hy
      contradiction

/-- The height of a pooling window is one larger in the words of the instruction read back. -/
theorem encode_decoded_ne {instr : NPUInstruction}
    (hop : instr.opcode = .maxpool ∨ instr.opcode = .avgpool) :
    encode (decoded instr) ≠ encode instr := by
  intro h
  let height : OperandField := { key := "H", bits := 2, bias := 1 }
  have hheight : height ∈ instr.opcode.fields := by
    rcases hop with hop | hop <;> rw [hop] <;> simp [OpCode.fields, height]
  -- both words are read back, and the same words give the same instruction
  have hsame : decoded (decoded instr) = decoded instr := by
    have hread := decode_encode (decoded instr)
    rw [h, decode_encode instr] at hread
    exact (Except.ok.inj hread).symm
  have hget := operand_decoded (decoded instr) hheight
  rw [hsame, NPUInstruction.operand, operand_decoded instr hheight] at hget
  have heq : height.stored (instr.operand height.key 0) =
      height.stored (height.stored (instr.operand height.key 0) : ℕ) := by
    exact_mod_cast Option.some_inj.mp hget
  have hlt := lowBits_lt 2 (instr.operand height.key 0)
  rw [stored_biased, stored_biased] at heq
  generalize lowBits 2 (instr.operand height.key 0) = n at heq hlt
  rw [lowBits] at heq
  omega

/-- An instruction is stable exactly when it is not a pooling window. -/
theorem stable_iff (instr : NPUInstruction) :
    Stable instr ↔ instr.opcode ≠ .maxpool ∧ instr.opcode ≠ .avgpool := by
  constructor
  · rintro ⟨⟨instr', hread, hwords⟩, -⟩
    obtain rfl := Except.ok.inj ((decode_encode instr).symm.trans hread)
    constructor <;> intro hop
    · exact encode_decoded_ne (.inl hop) hwords
    · exact encode_decoded_ne (.inr hop) hwords
  · intro hop
    refine ⟨⟨_, decode_encode instr, encode_decoded hop⟩, fun hfits => ?_, survives_of_fits hop⟩
    exact ⟨_, decode_encode instr, rfl, operand_decoded_of_fits hop hfits⟩

/-- A window of two rows and two columns is read back with three rows and two columns. -/
def pooling : NPUInstruction where
  opcode := .maxpool
  operands := .ofList [("sa", 0), ("da", 0), ("H", 2), ("W", 2)]

/-- The words of a pooling window change when it is read back. -/
theorem pooling_not_stable : ¬Stable pooling := by
  rintro ⟨⟨instr', hread, hwords⟩, -⟩
  obtain rfl := Except.ok.inj ((decode_encode pooling).symm.trans hread)
  exact encode_decoded_ne (.inl rfl) hwords

end Core

end NpuArc
