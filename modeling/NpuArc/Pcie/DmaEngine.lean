import NpuArc.Library.Dict
import NpuArc.Pcie.Endpoint
import Mathlib.Data.Finset.Insert
import Mathlib.Data.Fintype.Basic

/-!
# The DMA engine

The engine writes to the memory of the host and reads from it by packets. Every packet takes a
tag from a pool of 256 tags and gives it back. A descriptor asks for a transfer between the
memory of the host and the memories behind the crossbar, and its status is queued under the tag
of the descriptor. Errors are injected by tag: those of completions under the tag of a packet or
of a descriptor, and those of the crossbar under the tag of a descriptor.
-/

namespace NpuArc

namespace Pcie

/-- The exceptions of the engine. -/
inductive Failure
  | valueError (message : String)
  | runtimeError (message : String)
  deriving DecidableEq, Repr

/-- The number of tags. -/
def pcieTagCount : ℕ := 256

instance : NeZero pcieTagCount := ⟨by decide⟩

/-- The tag of a packet. -/
abbrev Tag := Fin pcieTagCount

/-- The order in which the pool gives its tags, by the number of tags it gave before. -/
structure PopOrder where
  pop : ℕ → Finset Tag → Tag
  pop_mem : ∀ n s, s.Nonempty → pop n s ∈ s

/-- A successful completion. -/
def cplStatusSc : ℤ := 0

/-- A completion of an unsupported request. -/
def cplStatusUr : ℤ := 1

/-- A completion that was aborted. -/
def cplStatusCa : ℤ := 2

/-- A descriptor without an error. -/
def descErrNone : ℕ := 0

/-- The error of a descriptor for an unsupported request. -/
def descErrUr : ℕ := 1

/-- The error of a descriptor for an aborted completion. -/
def descErrCa : ℕ := 2

/-- The error of a descriptor for an address that is not decoded. -/
def descErrDecerr : ℕ := 4

/-- The most bytes of a packet, by an encoding. -/
def mpsBytes (encoding : ℤ) : ℕ :=
  if encoding = 0 then 128
  else if encoding = 1 then 256
  else if encoding = 2 then 512
  else if encoding = 3 then 1024
  else if encoding = 4 then 2048
  else if encoding = 5 then 4096
  else 256

/-- The engine. -/
structure DmaEngine where
  crossbar : Option CrossbarModel
  requesterId : UInt16
  mpsEncoding : ℤ
  hostMem : List UInt8
  tagFree : Finset Tag
  pops : ℕ
  descStatus : List (ℤ × ℕ)
  irqPending : Bool
  completionErrors : Dict ℤ ℤ
  axiDecErrors : Finset ℤ
  completerId : UInt16 := 0x0001

namespace DmaEngine

/-- An engine with a memory of the host. -/
def new (crossbar : Option CrossbarModel) (hostMem : List UInt8) (requesterId : UInt16)
    (maxPayloadSize : ℤ) : DmaEngine where
  crossbar := crossbar
  requesterId := requesterId
  mpsEncoding := maxPayloadSize
  hostMem := hostMem
  tagFree := Finset.univ
  pops := 0
  descStatus := []
  irqPending := false
  completionErrors := .empty
  axiDecErrors := ∅

/-- The most bytes of a packet of the engine. -/
def maxPayloadBytes (d : DmaEngine) : ℕ := mpsBytes d.mpsEncoding

/-- Take a tag from the pool. -/
def allocTag (order : PopOrder) (d : DmaEngine) : Except Failure (DmaEngine × Tag) :=
  if d.tagFree = ∅ then
    .error (.runtimeError s!"DMA tag pool exhausted ({pcieTagCount} tags in use)")
  else
    let tag := order.pop d.pops d.tagFree
    .ok ({ d with tagFree := d.tagFree.erase tag, pops := d.pops + 1 }, tag)

/-- Return a tag to the pool. -/
def freeTag (d : DmaEngine) (tag : Tag) : DmaEngine :=
  { d with tagFree := insert tag d.tagFree }

/-- The address needs more than 32 bits. -/
def needs4dw (addr : ℤ) : Bool := addr > 0xFFFFFFFF

/-- A header of three double words. -/
def buildHeader3dw (fmtType : ℕ) (d : DmaEngine) (addr : ℤ) (lengthDw : ℕ) (tag : Tag) :
    List UInt8 :=
  packWords [fmtType <<< 24 ||| lengthDw &&& 0x3FF,
    d.requesterId.toNat <<< 16 ||| tag.val <<< 8 ||| 0xFF,
    lowBits 32 addr &&& 0xFFFFFFFC]

/-- A header of four double words. -/
def buildHeader4dw (fmtType : ℕ) (d : DmaEngine) (addr : ℤ) (lengthDw : ℕ) (tag : Tag) :
    List UInt8 :=
  packWords [fmtType <<< 24 ||| lengthDw &&& 0x3FF,
    d.requesterId.toNat <<< 16 ||| tag.val <<< 8 ||| 0xFF,
    lowBits 32 (addr / 2 ^ 32), lowBits 32 addr &&& 0xFFFFFFFC]

/-- The header of a memory write to an address of 32 bits. -/
def buildMemwrHeader3dw : DmaEngine → ℤ → ℕ → Tag → List UInt8 := buildHeader3dw 0x40

/-- The header of a memory write to an address of 64 bits. -/
def buildMemwrHeader4dw : DmaEngine → ℤ → ℕ → Tag → List UInt8 := buildHeader4dw 0x60

/-- The header of a memory read at an address of 32 bits. -/
def buildMemrdHeader3dw : DmaEngine → ℤ → ℕ → Tag → List UInt8 := buildHeader3dw 0x00

/-- The header of a memory read at an address of 64 bits. -/
def buildMemrdHeader4dw : DmaEngine → ℤ → ℕ → Tag → List UInt8 := buildHeader4dw 0x20

/-- Write a padded chunk to the memory of the host, unless it goes beyond the end. -/
def writeHost (hostMem : List UInt8) (curAddr : ℤ) (bytes : List UInt8) : List UInt8 :=
  if curAddr + bytes.length ≤ hostMem.length then
    replaceSlice hostMem curAddr (curAddr + bytes.length) bytes
  else hostMem

/-- Write chunks to consecutive addresses, with the headers of the packets. -/
def writeTlps (order : PopOrder) (d : DmaEngine) (curAddr : ℤ) (headers : List (List UInt8)) :
    List (List UInt8) → DmaEngine × Except Failure (List (List UInt8))
  | [] => (d, .ok headers)
  | chunk :: chunks =>
    match d.allocTag order with
    | .error e => (d, .error e)
    | .ok (d, tag) =>
      let header :=
        if needs4dw curAddr then d.buildMemwrHeader4dw curAddr (lengthDw chunk.length) tag
        else d.buildMemwrHeader3dw curAddr (lengthDw chunk.length) tag
      let d := { d with hostMem := writeHost d.hostMem curAddr (padded chunk) }
      writeTlps order (d.freeTag tag) (curAddr + (padded chunk).length) (headers ++ [header])
        chunks

/-- Write a payload to the memory of the host. -/
def tlpWrite (order : PopOrder) (d : DmaEngine) (pcieAddr : ℤ) (data : List UInt8) :
    DmaEngine × Except Failure (List (List UInt8)) :=
  if data = [] then (d, .ok [])
  else writeTlps order d pcieAddr [] (splitEvery d.maxPayloadBytes data)

/-- The name of a status. -/
def cpldStatusName (status : ℤ) : String :=
  if status = cplStatusSc then "SC"
  else if status = cplStatusUr then "UR"
  else if status = cplStatusCa then "CA"
  else s!"UNKNOWN({status})"

/-- The status that is injected for a tag. -/
def statusOf (d : DmaEngine) (tag : ℤ) : ℤ := (d.completionErrors.get? tag).getD cplStatusSc

/-- Forget the status that is injected for a tag. -/
def popStatus (d : DmaEngine) (tag : ℤ) : DmaEngine :=
  { d with completionErrors := d.completionErrors.erase tag }

/-- What a completion gives from the memory of the host, with zeros beyond the end. -/
def readHost (hostMem : List UInt8) (curAddr : ℤ) (chunkSize : ℕ) : List UInt8 :=
  let hostEnd := curAddr + chunkSize
  if hostEnd ≤ hostMem.length then sliceList hostMem curAddr hostEnd
  else
    let avail := max 0 (hostMem.length - curAddr)
    let chunk := sliceList hostMem curAddr (curAddr + avail)
    chunk ++ List.replicate (chunkSize - chunk.length) 0

/-- Read what remains of a range, packet by packet, with the headers of the packets. -/
def readTlps (order : PopOrder) : ℕ → DmaEngine → ℤ → ℕ → List UInt8 → List (List UInt8) →
    DmaEngine × Except Failure (List UInt8 × List (List UInt8))
  | 0, d, _, _, allData, headers => (d, .ok (allData, headers))
  | fuel + 1, d, curAddr, remaining, allData, headers =>
    if remaining = 0 then (d, .ok (allData, headers))
    else
      let chunkSize := min remaining d.maxPayloadBytes
      match d.allocTag order with
      | .error e => (d, .error e)
      | .ok (d, tag) =>
        let header :=
          if needs4dw curAddr then d.buildMemrdHeader4dw curAddr (lengthDw chunkSize) tag
          else d.buildMemrdHeader3dw curAddr (lengthDw chunkSize) tag
        let errorStatus := d.statusOf tag.val
        let d := d.popStatus tag.val
        if errorStatus ≠ cplStatusSc then
          (d.freeTag tag, .error (.runtimeError (s!"MRd tag {tag.val} completed with error " ++
            s!"status {errorStatus} ({cpldStatusName errorStatus})")))
        else
          readTlps order fuel (d.freeTag tag) (curAddr + chunkSize) (remaining - chunkSize)
            (allData ++ readHost d.hostMem curAddr chunkSize) (headers ++ [header])

/-- Read a range of the memory of the host. -/
def tlpRead (order : PopOrder) (d : DmaEngine) (pcieAddr length : ℤ) :
    DmaEngine × Except Failure (List UInt8 × List (List UInt8)) :=
  if length < 0 then (d, .error (.valueError "length must be non-negative"))
  else if length = 0 then (d, .ok ([], []))
  else readTlps order length.toNat d pcieAddr length.toNat [] []

/-- The header of a completion with data. -/
def buildCpldHeader (d : DmaEngine) (lengthDw : ℕ) (tag : Tag) (byteCount : ℕ)
    (completerId : UInt16) (status : ℕ) : List UInt8 :=
  let cid := if completerId ≠ 0 then completerId else d.completerId
  packWords [0x4A <<< 24 ||| lengthDw &&& 0x3FF,
    cid.toNat <<< 16 ||| (byteCount &&& 0xFF) <<< 8 ||| 0x80,
    d.requesterId.toNat <<< 16 ||| tag.val <<< 8 ||| byteCount >>> 8 &&& 0x3 |||
      (status &&& 0xF) <<< 4]

/-- The bytes, the tag, the remaining byte count and the status in the header of a completion. -/
def parseCpldHeader (header : List UInt8) : Except Failure (ℕ × ℕ × ℕ × ℕ) :=
  if header.length ≠ 12 then
    .error (.valueError s!"CPLD header must be 12 bytes, got {header.length}")
  else
    let words := unpackWords header
    let dw0 := words.getD 0 0
    let dw1 := words.getD 1 0
    let dw2 := words.getD 2 0
    let lengthDw := dw0 &&& 0x3FF
    let byteCountLow := dw1 >>> 8 &&& 0xFF
    let tag := dw2 >>> 8 &&& 0xFF
    let byteCountHigh := dw2 &&& 0x3
    .ok (lengthDw * 4, tag, byteCountHigh <<< 8 ||| byteCountLow, dw2 >>> 4 &&& 0xF)

/-- The boundary of completions. -/
def rcb : ℕ := 128

/-- What a split completion gives from the memory of the host. -/
def splitHost (hostMem : List UInt8) (cplAddr : ℤ) (cplChunk : ℕ) : List UInt8 :=
  let hostEnd := cplAddr + cplChunk
  if hostEnd ≤ hostMem.length then sliceList hostMem cplAddr hostEnd
  else
    let avail := max 0 (hostMem.length - cplAddr)
    sliceList hostMem cplAddr (cplAddr + avail) ++
      if avail < cplChunk then List.replicate (cplChunk - avail).toNat 0 else []

/-- The split completions of one request, with their headers. -/
def splitCompletions (d : DmaEngine) (tag : Tag) : ℕ → ℤ → ℕ → List UInt8 → List (List UInt8) →
    List UInt8 × List (List UInt8)
  | 0, _, _, allData, cpldHeaders => (allData, cpldHeaders)
  | fuel + 1, cplAddr, byteCountRemaining, allData, cpldHeaders =>
    if byteCountRemaining = 0 then (allData, cpldHeaders)
    else
      let cplChunk := min byteCountRemaining rcb
      let header := d.buildCpldHeader (lengthDw cplChunk) tag byteCountRemaining 0 0
      splitCompletions d tag fuel (cplAddr + cplChunk) (byteCountRemaining - cplChunk)
        (allData ++ splitHost d.hostMem cplAddr cplChunk) (cpldHeaders ++ [header])

/-- Read what remains of a range by split completions, with the headers of the packets. -/
def reassembleTlps (order : PopOrder) : ℕ → DmaEngine → ℤ → ℕ → List UInt8 →
    List (List UInt8) → List (List UInt8) →
    DmaEngine × Except Failure (List UInt8 × List (List UInt8) × List (List UInt8))
  | 0, d, _, _, allData, readHeaders, cpldHeaders => (d, .ok (allData, readHeaders, cpldHeaders))
  | fuel + 1, d, curAddr, remaining, allData, readHeaders, cpldHeaders =>
    if remaining = 0 then (d, .ok (allData, readHeaders, cpldHeaders))
    else
      let chunkSize := min remaining d.maxPayloadBytes
      match d.allocTag order with
      | .error e => (d, .error e)
      | .ok (d, tag) =>
        let header :=
          if needs4dw curAddr then d.buildMemrdHeader4dw curAddr (lengthDw chunkSize) tag
          else d.buildMemrdHeader3dw curAddr (lengthDw chunkSize) tag
        let (allData, cpldHeaders) :=
          splitCompletions d tag chunkSize curAddr chunkSize allData cpldHeaders
        reassembleTlps order fuel (d.freeTag tag) (curAddr + chunkSize) (remaining - chunkSize)
          allData (readHeaders ++ [header]) cpldHeaders

/-- Read a range of the memory of the host by split completions. -/
def tlpReadWithReassembly (order : PopOrder) (d : DmaEngine) (pcieAddr length : ℤ) :
    DmaEngine × Except Failure (List UInt8 × List (List UInt8) × List (List UInt8)) :=
  if length < 0 then (d, .error (.valueError "length must be non-negative"))
  else if length = 0 then (d, .ok ([], [], []))
  else reassembleTlps order length.toNat d pcieAddr length.toNat [] [] []

/-- Queue the status of a descriptor. -/
def complete (d : DmaEngine) (tag : ℤ) (errorCode : ℕ) : DmaEngine :=
  { d with descStatus := d.descStatus ++ [(tag, errorCode)], irqPending := true }

/-- The data of a write descriptor without a crossbar. -/
def fallbackData (hostMem : List UInt8) (axiAddr length : ℤ) : List UInt8 :=
  let offset := if hostMem = [] then 0 else axiAddr % hostMem.length
  let data := sliceList hostMem offset (offset + length)
  data ++ List.replicate (length - data.length).toNat 0

/-- The memory of the host after a read descriptor without a crossbar. -/
def fallbackStore (hostMem : List UInt8) (axiAddr : ℤ) (data : List UInt8) : List UInt8 :=
  let offset := if hostMem = [] then 0 else axiAddr % hostMem.length
  let stop := offset + data.length
  replaceSlice (hostMem ++ List.replicate (stop - hostMem.length).toNat 0) offset stop data

/-- The text of an error of a descriptor whose tag is out of range. -/
def tagRangeError (tag : ℤ) : Failure :=
  .valueError s!"Tag {tag} out of range (0-{pcieTagCount - 1})"

/-- Submit a write descriptor: read from the crossbar and write to the host. -/
def submitWriteDesc (r : Regmap) (order : PopOrder) (d : DmaEngine)
    (pcieAddr axiAddr length tag : ℤ) : DmaEngine × Except Failure Unit :=
  if tag < 0 ∨ pcieTagCount ≤ tag then (d, .error (tagRangeError tag))
  else
    match d.crossbar with
    | some x =>
      match r.read x masterPcie axiAddr length with
      | .error _ => (d.complete tag descErrDecerr, .ok ())
      | .ok (x, data) =>
        match tlpWrite order { d with crossbar := some x } pcieAddr data with
        | (d, .error e) => (d, .error e)
        | (d, .ok _) => (d.complete tag descErrNone, .ok ())
    | none =>
      match d.tlpWrite order pcieAddr (fallbackData d.hostMem axiAddr length) with
      | (d, .error e) => (d, .error e)
      | (d, .ok _) => (d.complete tag descErrNone, .ok ())

/-- Store the data of a read descriptor, with the error code of the descriptor. -/
def storeData (r : Regmap) (d : DmaEngine) (axiAddr : ℤ) (data : List UInt8) : DmaEngine × ℕ :=
  match d.crossbar with
  | some x =>
    match r.write x masterPcie axiAddr data with
    | .error _ => (d, descErrDecerr)
    | .ok x => ({ d with crossbar := some x }, descErrNone)
  | none => ({ d with hostMem := fallbackStore d.hostMem axiAddr data }, descErrNone)

/-- Submit a read descriptor: read from the host and write to the crossbar. -/
def submitReadDesc (r : Regmap) (order : PopOrder) (d : DmaEngine)
    (pcieAddr axiAddr length tag : ℤ) : DmaEngine × Except Failure Unit :=
  if tag < 0 ∨ pcieTagCount ≤ tag then (d, .error (tagRangeError tag))
  else
    let injectedStatus := d.statusOf tag
    let d := d.popStatus tag
    if injectedStatus = cplStatusUr then (d.complete tag descErrUr, .ok ())
    else if injectedStatus = cplStatusCa then (d.complete tag descErrCa, .ok ())
    else
      match d.tlpRead order pcieAddr length with
      | (d, .error (.runtimeError message)) =>
        let errorCode := if "UR".toList <:+: message.toList then descErrUr else descErrCa
        (d.complete tag errorCode, .ok ())
      | (d, .error e) => (d, .error e)
      | (d, .ok (data, _)) =>
        if tag ∈ d.axiDecErrors then
          let d := { d with axiDecErrors := d.axiDecErrors.erase tag }
          (d.complete tag descErrDecerr, .ok ())
        else
          let (d, errorCode) := d.storeData r axiAddr data
          (d.complete tag errorCode, .ok ())

/-- Inject a completion error for a tag. -/
def injectCompletionError (d : DmaEngine) (tag status : ℤ) : DmaEngine :=
  { d with completionErrors := d.completionErrors.insert tag status }

/-- Inject an error of the crossbar for a tag. -/
def injectAxiDecError (d : DmaEngine) (tag : ℤ) : DmaEngine :=
  { d with axiDecErrors := insert tag d.axiDecErrors }

end DmaEngine

end Pcie

end NpuArc
