import NpuArc.Core.Memory
import NpuArc.Library.BitFields

/-!
# Transfer descriptors

A descriptor is one transfer of a chain. It is checked when it is built and packed into a
64-bit word, whose size field is zero for the largest transfer. A load of weights is split
into a chain of descriptors, each of at most the chunk size.
-/

namespace NpuArc

namespace Core

/-- The values of a descriptor, before any check. -/
structure DescriptorFields where
  dramAddr : ℤ
  sramAddr : ℤ
  size : ℤ
  direction : ℤ := 0
  last : Bool := false
  channel : ℤ := 0

/-- Validate that the values match the limits of the encoding. -/
def DescriptorFields.check (d : DescriptorFields) : Except Error Unit := do
  if d.direction ∉ [0, 1] then
    .error (.valueError s!"direction must be 0 or 1, got {d.direction}")
  if d.channel ∉ [0, 1, 2, 3] then
    .error (.valueError s!"channel must be 0..3, got {d.channel}")
  if ¬(0 ≤ d.size ∧ d.size ≤ 4095) ∧ d.size ≠ 4096 then
    .error (.valueError s!"size must be in [0, 4095] or 4096 (encoded as 0), got {d.size}")
  if ¬(0 ≤ d.sramAddr ∧ d.sramAddr < 0x10000) then
    .error (.valueError s!"sram_addr must be in [0, 0xFFFF], got {hex d.sramAddr}")
  if ¬(0 ≤ d.dramAddr ∧ d.dramAddr < 0x100000000) then
    .error (.valueError s!"dram_addr must be in [0, 0xFFFFFFFF], got {hex d.dramAddr}")

/-- One transfer unit of a descriptor chain, which has passed its checks. -/
structure DMADescriptor extends DescriptorFields where
  checked : toDescriptorFields.check = .ok ()

/-- A descriptor with some values. -/
def DescriptorFields.validate (d : DescriptorFields) : Except Error DMADescriptor :=
  match h : d.check with
  | .ok () => .ok ⟨d, h⟩
  | .error e => .error e

/-- The values of a descriptor lie in the ranges of the encoding. -/
structure DescriptorFields.InRange (d : DescriptorFields) : Prop where
  direction : d.direction = 0 ∨ d.direction = 1
  channel : 0 ≤ d.channel ∧ d.channel < 4
  size : 0 ≤ d.size ∧ d.size ≤ 4096
  sramAddr : 0 ≤ d.sramAddr ∧ d.sramAddr < 0x10000
  dramAddr : 0 ≤ d.dramAddr ∧ d.dramAddr < 0x100000000

/-- The size of the transfer: zero in the field means 4096 bytes. -/
def DescriptorFields.actualSize (d : DescriptorFields) : ℤ := if d.size = 0 then 4096 else d.size

theorem DescriptorFields.check_eq_ok {d : DescriptorFields} : d.check = .ok () ↔ d.InRange := by
  unfold check
  simp only [List.mem_cons, List.not_mem_nil, or_false]
  constructor
  · intro h
    split_ifs at h with h1 h2 h3 h4 h5 <;> cases h
    exact ⟨by omega, by omega, by omega, by omega, by omega⟩
  · rintro ⟨h1, h2, h3, h4, h5⟩
    rw [if_neg (by omega), if_neg (by omega), if_neg (by omega), if_neg (by omega),
      if_neg (by omega)]
    rfl

theorem DescriptorFields.validate_eq_ok {d : DescriptorFields} {d' : DMADescriptor} :
    d.validate = .ok d' ↔ d'.toDescriptorFields = d := by
  unfold validate
  constructor
  · intro h
    split at h
    · cases h
      rfl
    · cases h
  · rintro rfl
    split
    · rfl
    · rename_i h
      rw [d'.checked] at h
      cases h

/-- Values in the ranges of the encoding are those of a descriptor. -/
theorem DescriptorFields.InRange.exists_validate {d : DescriptorFields} (h : d.InRange) :
    ∃ d' : DMADescriptor, d.validate = .ok d' ∧ d'.toDescriptorFields = d :=
  ⟨⟨d, check_eq_ok.mpr h⟩, validate_eq_ok.mpr rfl, rfl⟩

namespace DMADescriptor

/-- Encode to a 64-bit descriptor word. -/
def encode (d : DMADescriptor) : ℕ :=
  let sz := if d.size = 4096 then 0 else d.size.toNat
  (d.dramAddr.toNat &&& 0xFFFFFFFF) <<< 32 ||| (d.sramAddr.toNat &&& 0xFFFF) <<< 16 |||
    (sz &&& 0xFFF) <<< 4 ||| (d.direction.toNat &&& 1) <<< 3 |||
    (if d.last then 1 else 0) <<< 2 ||| d.channel.toNat &&& 3

/-- The values in a descriptor word. -/
def decodeFields (word : ℕ) : DescriptorFields where
  dramAddr := (word >>> 32 &&& 0xFFFFFFFF : ℕ)
  sramAddr := (word >>> 16 &&& 0xFFFF : ℕ)
  size := (word >>> 4 &&& 0xFFF : ℕ)
  direction := (word >>> 3 &&& 1 : ℕ)
  last := word >>> 2 &&& 1 != 0
  channel := (word &&& 3 : ℕ)

/-- Decode from a 64-bit descriptor word. -/
def decode (word : ℕ) : Except Error DMADescriptor := (decodeFields word).validate

theorem inRange (d : DMADescriptor) : d.InRange := DescriptorFields.check_eq_ok.mp d.checked

theorem actualSize_pos (d : DMADescriptor) : 0 < d.actualSize ∧ d.actualSize ≤ 4096 := by
  have hsize := d.inRange.size
  unfold DescriptorFields.actualSize
  split_ifs <;> omega

/-! ### The codec -/

/-- The fields of a word are its digits in a mixed base. -/
theorem decodeFields_eq (word : ℕ) : decodeFields word =
    { dramAddr := (word / 2 ^ 32 % 2 ^ 32 : ℕ), sramAddr := (word / 2 ^ 16 % 2 ^ 16 : ℕ),
      size := (word / 2 ^ 4 % 2 ^ 12 : ℕ), direction := (word / 2 ^ 3 % 2 : ℕ),
      last := word / 2 ^ 2 % 2 != 0, channel := (word % 4 : ℕ) } := by
  have h32 : word >>> 32 &&& 0xFFFFFFFF = word / 2 ^ 32 % 2 ^ 32 := by
    rw [Nat.shiftRight_eq_div_pow]
    exact Nat.and_two_pow_sub_one_eq_mod _ 32
  have h16 : word >>> 16 &&& 0xFFFF = word / 2 ^ 16 % 2 ^ 16 := by
    rw [Nat.shiftRight_eq_div_pow]
    exact Nat.and_two_pow_sub_one_eq_mod _ 16
  have h4 : word >>> 4 &&& 0xFFF = word / 2 ^ 4 % 2 ^ 12 := by
    rw [Nat.shiftRight_eq_div_pow]
    exact Nat.and_two_pow_sub_one_eq_mod _ 12
  have h3 : word >>> 3 &&& 1 = word / 2 ^ 3 % 2 := by
    rw [Nat.shiftRight_eq_div_pow]
    exact Nat.and_two_pow_sub_one_eq_mod _ 1
  have h2 : word >>> 2 &&& 1 = word / 2 ^ 2 % 2 := by
    rw [Nat.shiftRight_eq_div_pow]
    exact Nat.and_two_pow_sub_one_eq_mod _ 1
  have h0 : word &&& 3 = word % 4 := Nat.and_two_pow_sub_one_eq_mod _ 2
  rw [decodeFields, h32, h16, h4, h3, h2, h0]

/-- Every word is the word of a descriptor: decoding never fails. -/
theorem decode_eq_ok (word : ℕ) :
    ∃ d : DMADescriptor, decode word = .ok d ∧ d.toDescriptorFields = decodeFields word := by
  refine DescriptorFields.InRange.exists_validate ?_
  rw [decodeFields_eq]
  constructor <;> dsimp only <;> omega

/-- Fields that do not overlap are joined into the number with these digits. -/
theorem or_fields {a b c e l k : ℕ} (hb : b < 2 ^ 16) (hc : c < 2 ^ 12) (he : e < 2) (hl : l < 2)
    (hk : k < 4) : a <<< 32 ||| b <<< 16 ||| c <<< 4 ||| e <<< 3 ||| l <<< 2 ||| k =
      a * 2 ^ 32 + b * 2 ^ 16 + c * 2 ^ 4 + e * 2 ^ 3 + l * 2 ^ 2 + k := by
  simp only [Nat.shiftLeft_eq]
  have h32 : a * 2 ^ 32 ||| b * 2 ^ 16 = a * 2 ^ 32 + b * 2 ^ 16 :=
    or_eq_add (i := 32) (by omega) (by omega)
  have h16 : a * 2 ^ 32 + b * 2 ^ 16 ||| c * 2 ^ 4 = a * 2 ^ 32 + b * 2 ^ 16 + c * 2 ^ 4 :=
    or_eq_add (i := 16) (by omega) (by omega)
  rw [h32, h16, or_eq_add (i := 4) (b := e * 2 ^ 3) (by omega) (by omega),
    or_eq_add (i := 3) (b := l * 2 ^ 2) (by omega) (by omega),
    or_eq_add (i := 2) (b := k) (by omega) (by omega)]

/-- The size field of a descriptor word. -/
def sizeField (d : DMADescriptor) : ℕ := if d.size = 4096 then 0 else d.size.toNat

theorem sizeField_lt (d : DMADescriptor) : d.sizeField < 4096 := by
  have hsize := d.inRange.size
  unfold sizeField
  split_ifs <;> omega

/-- The encoded word has the fields as its digits. -/
theorem encode_eq (d : DMADescriptor) : d.encode =
    d.dramAddr.toNat * 2 ^ 32 + d.sramAddr.toNat * 2 ^ 16 + d.sizeField * 2 ^ 4 +
      d.direction.toNat * 2 ^ 3 + (if d.last then 1 else 0) * 2 ^ 2 + d.channel.toNat := by
  have hrange := d.inRange
  have hsize := d.sizeField_lt
  have hdram : d.dramAddr.toNat < 2 ^ 32 := by
    have := hrange.dramAddr
    omega
  have hsram : d.sramAddr.toNat < 2 ^ 16 := by
    have := hrange.sramAddr
    omega
  have hdir : d.direction.toNat < 2 := by
    have := hrange.direction
    omega
  have hchannel : d.channel.toNat < 4 := by
    have := hrange.channel
    omega
  have hlast : (if d.last then 1 else 0) < 2 := by split_ifs <;> omega
  have h32 : d.dramAddr.toNat &&& 0xFFFFFFFF = d.dramAddr.toNat :=
    (Nat.and_two_pow_sub_one_eq_mod _ 32).trans (Nat.mod_eq_of_lt hdram)
  have h16 : d.sramAddr.toNat &&& 0xFFFF = d.sramAddr.toNat :=
    (Nat.and_two_pow_sub_one_eq_mod _ 16).trans (Nat.mod_eq_of_lt hsram)
  have h12 : d.sizeField &&& 0xFFF = d.sizeField :=
    (Nat.and_two_pow_sub_one_eq_mod _ 12).trans (Nat.mod_eq_of_lt hsize)
  have h1 : d.direction.toNat &&& 1 = d.direction.toNat :=
    (Nat.and_two_pow_sub_one_eq_mod _ 1).trans (Nat.mod_eq_of_lt hdir)
  have h2 : d.channel.toNat &&& 3 = d.channel.toNat :=
    (Nat.and_two_pow_sub_one_eq_mod _ 2).trans (Nat.mod_eq_of_lt hchannel)
  unfold encode
  change (_ &&& _) <<< 32 ||| _ ||| (d.sizeField &&& _) <<< 4 ||| _ ||| _ ||| _ = _
  rw [h32, h16, h12, h1, h2]
  exact or_fields hsram hsize hdir hlast hchannel

theorem encode_lt (d : DMADescriptor) : d.encode < 256 ^ 8 := by
  have hrange := d.inRange
  have hdram := hrange.dramAddr
  have hsram := hrange.sramAddr
  have hdir := hrange.direction
  have hchannel := hrange.channel
  have hsize := d.sizeField_lt
  have hlast : (if d.last then 1 else 0) < 2 := by split_ifs <;> omega
  rw [encode_eq]
  omega

/-- A descriptor is read back, but for the two forms of the largest size. -/
theorem decode_encode (d : DMADescriptor) : ∃ d' : DMADescriptor, decode d.encode = .ok d' ∧
    d'.dramAddr = d.dramAddr ∧ d'.sramAddr = d.sramAddr ∧ d'.actualSize = d.actualSize ∧
      d'.direction = d.direction ∧ d'.last = d.last ∧ d'.channel = d.channel := by
  obtain ⟨d', hdecode, hfields⟩ := decode_eq_ok d.encode
  have hrange := d.inRange
  have hdram := hrange.dramAddr
  have hsram := hrange.sramAddr
  have hdir := hrange.direction
  have hchannel := hrange.channel
  have hsize := d.sizeField_lt
  have hlast : (if d.last then 1 else 0) < 2 := by split_ifs <;> omega
  rw [decodeFields_eq, encode_eq] at hfields
  refine ⟨d', hdecode, ?_, ?_, ?_, ?_, ?_, ?_⟩
  · rw [hfields]
    dsimp only
    omega
  · rw [hfields]
    dsimp only
    omega
  · have hsize' : d'.size = d.sizeField := by
      rw [hfields]
      dsimp only
      omega
    have hs := hrange.size
    rw [DescriptorFields.actualSize, hsize', DescriptorFields.actualSize, sizeField]
    split_ifs <;> omega
  · rw [hfields]
    dsimp only
    omega
  · rw [hfields]
    dsimp only
    cases d.last <;> simp <;> omega
  · rw [hfields]
    dsimp only
    omega

/-- Every word of 64 bits is the encoding of the descriptor read from it. -/
theorem exists_decode_encode {word : ℕ} (hword : word < 2 ^ 64) :
    ∃ d : DMADescriptor, decode word = .ok d ∧ d.encode = word := by
  obtain ⟨d, hdecode, hfields⟩ := decode_eq_ok word
  rw [decodeFields_eq] at hfields
  have hsize : d.sizeField = word / 2 ^ 4 % 2 ^ 12 := by
    rw [sizeField, hfields]
    dsimp only
    split_ifs <;> omega
  have hlast : (if d.last then 1 else 0) = word / 2 ^ 2 % 2 := by
    rw [hfields]
    dsimp only
    obtain h | h : word / 2 ^ 2 % 2 = 0 ∨ word / 2 ^ 2 % 2 = 1 := by omega
    · rw [h]
      rfl
    · rw [h]
      rfl
  refine ⟨d, hdecode, ?_⟩
  rw [encode_eq, hsize, hlast, hfields]
  dsimp only [Int.toNat_natCast]
  omega

/-- Words and descriptors are the same thing: every word is read and written back, and every
descriptor is written and read back as the same transfer. -/
theorem codec_roundTrip :
    (∀ word < 2 ^ 64, ∃ d : DMADescriptor, decode word = .ok d ∧ d.encode = word) ∧
      ∀ d : DMADescriptor, ∃ d' : DMADescriptor, decode d.encode = .ok d' ∧
        d'.dramAddr = d.dramAddr ∧ d'.sramAddr = d.sramAddr ∧ d'.actualSize = d.actualSize ∧
          d'.direction = d.direction ∧ d'.last = d.last ∧ d'.channel = d.channel :=
  ⟨fun _ hword => exists_decode_encode hword, decode_encode⟩

end DMADescriptor

/-! ### Chains for loads of weights -/

/-- The descriptors for the bytes that remain, the loop of a chain under construction. -/
def chainFrom (sramBase dramBase chunkSize : ℤ) :
    ℕ → ℤ → ℤ → Option (Except Error (List DMADescriptor))
  | 0, _, remaining => if remaining > 0 then none else some (.ok [])
  | fuel + 1, offset, remaining =>
    if remaining > 0 then
      let size := min chunkSize remaining
      match DescriptorFields.validate
        { dramAddr := dramBase + offset, sramAddr := sramBase + offset, size,
          direction := 0, last := remaining ≤ chunkSize, channel := 0 } with
      | .error e => some (.error e)
      | .ok d =>
        (chainFrom sramBase dramBase chunkSize fuel (offset + size) (remaining - size)).map
          (·.map (d :: ·))
    else some (.ok [])

/-- Build the descriptor chain for loading weights from DRAM to SRAM. -/
def buildWeightLoadChain (fuel : ℕ) (sramBase dramBase totalBytes chunkSize : ℤ) :
    Option (Except Error (List DMADescriptor)) :=
  chainFrom sramBase dramBase chunkSize fuel 0 totalBytes

end Core

end NpuArc
