import NpuArc.Contracts.Errors
import NpuArc.Library.PySlice

/-!
# Memory of the golden executor

The on-chip memory checks only the upper end of a range before it slices its array, and the
main memory is sliced without any check. Integers and half-precision floats are stored in
little-endian order.
-/

namespace NpuArc

namespace Core

/-- The size of the unified buffer. -/
def sramSize : ℕ := 4 * 1024 * 1024

/-- The size of the main memory. -/
def dramSize : ℕ := 256 * 1024 * 1024

/-- The unified buffer. -/
abbrev SRAM := FixedArray sramSize UInt8

/-- The main memory. -/
abbrev DRAM := FixedArray dramSize UInt8

/-- A number in hexadecimal notation. -/
def hex (i : ℤ) : String :=
  (if i < 0 then "-0x" else "0x") ++ String.ofList (Nat.toDigits 16 i.natAbs)

/-- Assign data to a slice. -/
def assignSlice {n : ℕ} (mem : FixedArray n UInt8) (a b : ℤ) (data : List UInt8) :
    Except Error (FixedArray n UInt8) :=
  match mem.setSlice a b data with
  | some mem' => .ok mem'
  | none => .error (.valueError (s!"could not broadcast input array from shape ({data.length},) " ++
      s!"into shape ({(mem.slice a b).length},)"))

/-- The numbers of a buffer whose elements have some width. -/
def fromBuffer (width : ℕ) (raw : List UInt8) : Except Error (List ℕ) :=
  if raw.length % width = 0 then
    .ok ((List.range (raw.length / width)).map fun i =>
      ofBytes ((raw.drop (i * width)).take width))
  else .error (.valueError "buffer size must be a multiple of element size")

namespace SRAM

/-- Read bytes at an address. -/
def readBytes (mem : SRAM) (addr nBytes : ℤ) : Except Error (List UInt8) :=
  if addr + nBytes > sramSize then
    .error (.valueError s!"SRAM read overflow: addr={hex addr} + {nBytes} > {hex sramSize}")
  else .ok (mem.slice addr (addr + nBytes))

/-- Write bytes at an address. -/
def writeBytes (mem : SRAM) (addr : ℤ) (data : List UInt8) : Except Error SRAM :=
  if addr + data.length > sramSize then
    .error (.valueError
      s!"SRAM write overflow: addr={hex addr} + {data.length} > {hex sramSize}")
  else assignSlice mem addr (addr + data.length) data

/-- Write 32-bit integers. -/
def writeInt32 (mem : SRAM) (addr : ℤ) (data : List Int32) : Except Error SRAM :=
  writeBytes mem addr (data.flatMap fun x => toBytes 4 x.toUInt32.toNat)

/-- Read 32-bit integers. -/
def readInt32 (mem : SRAM) (addr nElems : ℤ) : Except Error (List Int32) := do
  let raw ← readBytes mem addr (nElems * 4)
  let words ← fromBuffer 4 raw
  return words.map fun w => (UInt32.ofNat w).toInt32

/-- Write half-precision floats, given by their bits. -/
def writeFloat16 (mem : SRAM) (addr : ℤ) (data : List UInt16) : Except Error SRAM :=
  writeBytes mem addr (data.flatMap fun x => toBytes 2 x.toNat)

/-- Read the bits of half-precision floats. -/
def readFloat16 (mem : SRAM) (addr nElems : ℤ) : Except Error (List UInt16) := do
  let raw ← readBytes mem addr (nElems * 2)
  let words ← fromBuffer 2 raw
  return words.map UInt16.ofNat

/-- Write 8-bit integers. -/
def writeInt8 (mem : SRAM) (addr : ℤ) (data : List Int8) : Except Error SRAM :=
  writeBytes mem addr (data.map Int8.toUInt8)

/-- A read inside the memory gives the bytes asked for. -/
theorem readBytes_eq_ok {mem : SRAM} {addr nBytes : ℤ} (h : addr + nBytes ≤ sramSize) :
    readBytes mem addr nBytes = .ok (mem.slice addr (addr + nBytes)) :=
  if_neg (by omega)

/-- A write inside the memory replaces the bytes from the address on. -/
theorem writeBytes_eq_ok {mem : SRAM} {addr : ℤ} {data : List UInt8} (h0 : 0 ≤ addr)
    (h : addr + data.length ≤ sramSize) :
    writeBytes mem addr data = .ok (mem.overwrite addr.toNat data) := by
  have hlo : sliceBound sramSize addr = addr.toNat := by
    rw [sliceBound_of_nonneg h0]
    omega
  have hhi : sliceBound sramSize (addr + data.length) = addr.toNat + data.length := by
    rw [sliceBound_of_nonneg (by omega)]
    omega
  rw [writeBytes, if_neg (by omega), assignSlice,
    FixedArray.setSlice_of_length (by rw [hlo, hhi]; omega), hlo]

end SRAM

end Core

end NpuArc
