import NpuArc.Pcie.Crossbar

/-!
# The endpoint

The host reads and writes the memories behind the crossbar by packets of at most 256 bytes. The
first address of a transfer is checked against the base addresses; the packets go one after the
other through the crossbar, each padded to a number of double words.
-/

namespace NpuArc

namespace Pcie

/-- The number of double words that some bytes need. -/
def lengthDw (n : ℕ) : ℕ := (n + 3) / 4

/-- A chunk of a payload, padded to double words. -/
def padded (chunk : List UInt8) : List UInt8 :=
  chunk ++ List.replicate (lengthDw chunk.length * 4 - chunk.length) 0

/-- The endpoint. -/
structure PCIeModel where
  crossbar : CrossbarModel
  bar0Base : ℤ
  bar1Base : ℤ
  requesterId : UInt16
  tag : ℕ
  lastTxHeaders : List (List UInt8)
  lastRxHeaders : List (List UInt8)

/-- The most bytes that a packet of the endpoint carries. -/
def PCIeModel.maxPayloadBytes : ℕ := 256

/-- An endpoint before any transfer. -/
def PCIeModel.new (crossbar : CrossbarModel) (bar0Base bar1Base : ℤ) : PCIeModel where
  crossbar := crossbar
  bar0Base := bar0Base
  bar1Base := bar1Base
  requesterId := 0
  tag := 0
  lastTxHeaders := []
  lastRxHeaders := []

/-- The next tag, and the endpoint after it. -/
def PCIeModel.nextTag (p : PCIeModel) : PCIeModel × ℕ :=
  ({ p with tag := (p.tag + 1) % 256 }, p.tag)

/-- The memory and the offset of an address, by the base addresses. -/
def PCIeModel.resolveBar (p : PCIeModel) (addr : ℤ) : Except Error (List UInt8 × ℤ) :=
  if p.bar0Base ≤ addr ∧ addr < p.bar0Base + p.crossbar.sram.length then
    .ok (p.crossbar.sram, addr - p.bar0Base)
  else if p.bar1Base ≤ addr ∧ addr < p.bar1Base + p.crossbar.dram.length then
    .ok (p.crossbar.dram, addr - p.bar1Base)
  else .error (.valueError s!"Address {hex8 addr} out of BAR range")

/-- The header of a packet, whose first byte tells reads from writes. -/
def PCIeModel.buildHeader (p : PCIeModel) (fmtType : ℕ) (addr : ℤ) (length : ℕ) :
    Except Error (PCIeModel × List UInt8) :=
  if length = 0 ∨ 1024 < length then
    .error (.valueError s!"TLP length {length} out of range")
  else
    let (p, tag) := p.nextTag
    .ok (p, packWords [fmtType <<< 24 ||| length &&& 0x3FF,
      p.requesterId.toNat <<< 16 ||| tag <<< 8, lowBits 32 addr &&& 0xFFFFFFFC])

/-- The header of a memory write. -/
def PCIeModel.buildMemwrHeader (p : PCIeModel) (addr : ℤ) (length : ℕ) :
    Except Error (PCIeModel × List UInt8) :=
  p.buildHeader 0x40 addr length

/-- The header of a memory read. -/
def PCIeModel.buildMemrdHeader (p : PCIeModel) (addr : ℤ) (length : ℕ) :
    Except Error (PCIeModel × List UInt8) :=
  p.buildHeader 0x00 addr length

/-- Write chunks to consecutive addresses. What is written before a failure stays. -/
def writeChunks (r : Regmap) (p : PCIeModel) (curAddr : ℤ) :
    List (List UInt8) → PCIeModel × Except Error Unit
  | [] => (p, .ok ())
  | chunk :: chunks =>
    match p.buildMemwrHeader curAddr (lengthDw chunk.length) with
    | .error e => (p, .error e)
    | .ok (p, header) =>
      let p := { p with lastTxHeaders := p.lastTxHeaders ++ [header] }
      match r.write p.crossbar masterPcie curAddr (padded chunk) with
      | .error e => (p, .error e)
      | .ok x => writeChunks r { p with crossbar := x } (curAddr + (padded chunk).length) chunks

/-- The host writes a payload. -/
def PCIeModel.tlpWrite (r : Regmap) (p : PCIeModel) (addr : ℤ) (data : List UInt8) :
    PCIeModel × Except Error Unit :=
  match p.resolveBar addr with
  | .error e => (p, .error e)
  | .ok _ => writeChunks r { p with lastTxHeaders := [] } addr (splitEvery maxPayloadBytes data)

/-- Read what remains of a range, packet by packet. -/
def readChunks (r : Regmap) : ℕ → PCIeModel → ℤ → ℕ → List UInt8 →
    PCIeModel × Except Error (List UInt8)
  | 0, p, _, _, result => (p, .ok result)
  | fuel + 1, p, curAddr, remaining, result =>
    if remaining = 0 then (p, .ok result)
    else
      let chunkSize := min remaining PCIeModel.maxPayloadBytes
      match p.buildMemrdHeader curAddr (lengthDw chunkSize) with
      | .error e => (p, .error e)
      | .ok (p, header) =>
        let p := { p with lastRxHeaders := p.lastRxHeaders ++ [header] }
        match r.read p.crossbar masterPcie curAddr (lengthDw chunkSize * 4 : ℕ) with
        | .error e => (p, .error e)
        | .ok (x, data) =>
          readChunks r fuel { p with crossbar := x } (curAddr + (lengthDw chunkSize * 4 : ℕ))
            (remaining - chunkSize) (result ++ data.take chunkSize)

/-- The host reads a range. -/
def PCIeModel.tlpRead (r : Regmap) (p : PCIeModel) (addr size : ℤ) :
    PCIeModel × Except Error (List UInt8) :=
  if size < 0 then (p, .error (.valueError "size must be non-negative"))
  else if size = 0 then (p, .ok [])
  else
    match p.resolveBar addr with
    | .error e => (p, .error e)
    | .ok _ => readChunks r size.toNat { p with lastRxHeaders := [] } addr size.toNat []

end Pcie

end NpuArc
