import NpuArc.Contracts.Errors
import NpuArc.Library.BitFields
import NpuArc.Library.PyBytes
import Mathlib.Logic.Function.Basic

/-!
# The crossbar

An address is decoded to one of two memories, and an access is done in the memory that its
first address decodes to. A write replaces a slice of the memory, which grows when the data
goes beyond its end.
-/

namespace NpuArc

namespace Pcie

/-- The addresses of the memories in the register map. -/
structure Regmap where
  sramBase : ℤ
  dramBase : ℤ

/-- The slaves of the crossbar. -/
inductive Slave
  | sram
  | dram
  deriving DecidableEq, Repr

/-- The number of masters of the crossbar. -/
def numMasters : ℕ := 6

/-- The master that serves the host. -/
def masterPcie : ℤ := 5

/-- The crossbar, with the memories behind it. -/
structure CrossbarModel where
  sram : List UInt8
  dram : List UInt8
  awLastGranted : Slave → Option ℤ
  arLastGranted : Slave → Option ℤ
  txnIds : ℤ → ℕ
  awGrants : List (Slave × ℤ)
  arGrants : List (Slave × ℤ)
  lastAxiId : Option ℕ

/-- A crossbar before any access. -/
def CrossbarModel.new (sram dram : List UInt8) : CrossbarModel where
  sram := sram
  dram := dram
  awLastGranted := fun _ => none
  arLastGranted := fun _ => none
  txnIds := fun _ => 0
  awGrants := []
  arGrants := []
  lastAxiId := none

/-- The memory of a slave. -/
def CrossbarModel.memory (x : CrossbarModel) : Slave → List UInt8
  | .sram => x.sram
  | .dram => x.dram

/-- A memory in place of that of a slave. -/
def CrossbarModel.setMemory (x : CrossbarModel) (mem : List UInt8) : Slave → CrossbarModel
  | .sram => { x with sram := mem }
  | .dram => { x with dram := mem }

/-- A number in hexadecimal notation, padded to eight places. -/
def hex8 (i : ℤ) : String :=
  let digits := Nat.toDigits 16 i.natAbs
  if i < 0 then "0x-" ++ String.ofList (List.replicate (7 - digits.length) '0' ++ digits)
  else "0x" ++ String.ofList (List.replicate (8 - digits.length) '0' ++ digits)

/-- The next identifier of a transaction of a master, and the counter after it. -/
def CrossbarModel.nextAxiId (x : CrossbarModel) (masterId : ℤ) : CrossbarModel × ℕ :=
  let txnId := x.txnIds masterId
  ({ x with txnIds := Function.update x.txnIds masterId ((txnId + 1) % 256) },
    masterId.toNat <<< 8 ||| txnId)

/-- Record a grant of a slave to a master. -/
def CrossbarModel.grant (x : CrossbarModel) (s : Slave) (masterId : ℤ) (isWrite : Bool) :
    CrossbarModel :=
  if isWrite then
    { x with
      awLastGranted := Function.update x.awLastGranted s (some masterId)
      awGrants := x.awGrants ++ [(s, masterId)] }
  else
    { x with
      arLastGranted := Function.update x.arLastGranted s (some masterId)
      arGrants := x.arGrants ++ [(s, masterId)] }

namespace Regmap

/-- The address where the memory of a slave begins. -/
def slaveBase (r : Regmap) : Slave → ℤ
  | .sram => r.sramBase
  | .dram => r.dramBase

/-- The slave of an address. -/
def decode (r : Regmap) (x : CrossbarModel) (addr : ℤ) : Except Error Slave :=
  if r.sramBase ≤ addr ∧ addr < r.sramBase + x.sram.length then .ok .sram
  else if r.dramBase ≤ addr ∧ addr < r.dramBase + x.dram.length then .ok .dram
  else .error (.valueError s!"Address {hex8 addr} unmapped (DECERR)")

/-- Read bytes for a master. -/
def read (r : Regmap) (x : CrossbarModel) (masterId addr size : ℤ) :
    Except Error (CrossbarModel × List UInt8) :=
  if masterId < 0 ∨ numMasters ≤ masterId then
    .error (.valueError s!"Invalid master_id {masterId}")
  else if size < 0 then .error (.valueError "size must be non-negative")
  else if size = 0 then .ok (x, [])
  else do
    let s ← r.decode x addr
    let (x, axiId) := x.nextAxiId masterId
    let off := addr - r.slaveBase s
    let x := x.grant s masterId false
    return ({ x with lastAxiId := some axiId }, sliceList (x.memory s) off (off + size))

/-- Write bytes for a master. -/
def write (r : Regmap) (x : CrossbarModel) (masterId addr : ℤ) (data : List UInt8) :
    Except Error CrossbarModel :=
  if masterId < 0 ∨ numMasters ≤ masterId then
    .error (.valueError s!"Invalid master_id {masterId}")
  else do
    let s ← r.decode x addr
    let (x, axiId) := x.nextAxiId masterId
    let off := addr - r.slaveBase s
    let x := x.grant s masterId true
    let mem := replaceSlice (x.memory s) off (off + data.length) data
    return { x.setMemory mem s with lastAxiId := some axiId }

/-- An address lies in the memory of a slave. -/
def Mapped (r : Regmap) (x : CrossbarModel) (s : Slave) (addr : ℤ) : Prop :=
  r.slaveBase s ≤ addr ∧ addr < r.slaveBase s + (x.memory s).length

/-- The memories lie at different addresses. -/
def Disjoint (r : Regmap) (x : CrossbarModel) : Prop :=
  ∀ s t addr, r.Mapped x s addr → r.Mapped x t addr → s = t

end Regmap

section Decoding

variable {r : Regmap} {x y : CrossbarModel} {s t : Slave} {addr : ℤ}

/-- Decoding gives a slave whose memory has the address. -/
theorem mapped_of_decode (h : r.decode x addr = .ok s) : r.Mapped x s addr := by
  unfold Regmap.decode at h
  split_ifs at h with h1 h2
  · cases h
    exact h1
  · cases h
    exact h2

/-- With disjoint memories an address decodes to the slave that has it. -/
theorem decode_eq_ok (hd : r.Disjoint x) (h : r.Mapped x s addr) : r.decode x addr = .ok s := by
  have hsram : r.sramBase ≤ addr ∧ addr < r.sramBase + x.sram.length ↔ r.Mapped x .sram addr :=
    Iff.rfl
  have hdram : r.dramBase ≤ addr ∧ addr < r.dramBase + x.dram.length ↔ r.Mapped x .dram addr :=
    Iff.rfl
  rw [Regmap.decode]
  cases s with
  | sram => exact if_pos h
  | dram =>
    have hne : ¬ (r.sramBase ≤ addr ∧ addr < r.sramBase + x.sram.length) := fun hs =>
      absurd (hd _ _ _ h (hsram.mp hs)) (by decide)
    rw [if_neg hne, if_pos (hdram.mpr h)]

/-- Decoding depends only on the lengths of the memories. -/
theorem decode_congr (h : ∀ t, (x.memory t).length = (y.memory t).length) :
    r.decode x addr = r.decode y addr := by
  have hsram : x.sram.length = y.sram.length := h .sram
  have hdram : x.dram.length = y.dram.length := h .dram
  rw [Regmap.decode, Regmap.decode, hsram, hdram]

theorem mapped_congr (h : ∀ t, (x.memory t).length = (y.memory t).length) :
    r.Mapped x s addr ↔ r.Mapped y s addr := by
  rw [Regmap.Mapped, Regmap.Mapped, h s]

theorem disjoint_congr (h : ∀ t, (x.memory t).length = (y.memory t).length)
    (hd : r.Disjoint x) : r.Disjoint y := by
  intro s t addr hs ht
  exact hd s t addr ((mapped_congr h).mpr hs) ((mapped_congr h).mpr ht)

end Decoding

section Memories

variable {x : CrossbarModel} {s t : Slave}

@[simp]
theorem memory_nextAxiId (masterId : ℤ) :
    (x.nextAxiId masterId).1.memory t = x.memory t := by
  cases t <;> rfl

@[simp]
theorem memory_grant (s : Slave) (masterId : ℤ) (isWrite : Bool) :
    (x.grant s masterId isWrite).memory t = x.memory t := by
  cases isWrite <;> cases t <;> rfl

@[simp]
theorem memory_lastAxiId (i : Option ℕ) :
    ({ x with lastAxiId := i } : CrossbarModel).memory t = x.memory t := by
  cases t <;> rfl

theorem memory_setMemory (mem : List UInt8) :
    (x.setMemory mem s).memory t = if t = s then mem else x.memory t := by
  cases s <;> cases t <;> rfl

end Memories

section Accesses

variable {r : Regmap} {x x' : CrossbarModel} {s : Slave} {addr size : ℤ} {data : List UInt8}

/-- A read of a decoded address gives a slice of the memory and keeps the memories. -/
theorem read_eq_ok (hsize : 0 < size) (hs : r.decode x addr = .ok s) :
    ∃ x', r.read x masterPcie addr size = .ok (x', sliceList (x.memory s)
      (addr - r.slaveBase s) (addr - r.slaveBase s + size)) ∧ ∀ t, x'.memory t = x.memory t := by
  have hmem : ∀ t, ((x.nextAxiId masterPcie).1.grant s masterPcie false).memory t =
      x.memory t := by
    intro t
    rw [memory_grant, memory_nextAxiId]
  refine ⟨{ (x.nextAxiId masterPcie).1.grant s masterPcie false with
    lastAxiId := some (x.nextAxiId masterPcie).2 }, ?_, fun t => ?_⟩
  · rw [Regmap.read, if_neg (by decide), if_neg (by omega), if_neg (by omega), hs, ← hmem s]
    rfl
  · rw [memory_lastAxiId, hmem]

/-- A write to an address that is not decoded fails. -/
theorem write_eq_error {e : Error} (h : r.decode x addr = .error e) :
    r.write x masterPcie addr data = .error e := by
  rw [Regmap.write, if_neg (by decide), h]
  rfl

/-- A write to a decoded address replaces a slice of the memory. -/
theorem write_eq_ok (data : List UInt8) (hs : r.decode x addr = .ok s) :
    ∃ x', r.write x masterPcie addr data = .ok x' ∧
      ∀ t, x'.memory t = if t = s then replaceSlice (x.memory s) (addr - r.slaveBase s)
        (addr - r.slaveBase s + data.length) data else x.memory t := by
  have hmem : ∀ t, ((x.nextAxiId masterPcie).1.grant s masterPcie true).memory t =
      x.memory t := by
    intro t
    rw [memory_grant, memory_nextAxiId]
  refine ⟨{ ((x.nextAxiId masterPcie).1.grant s masterPcie true).setMemory
      (replaceSlice (((x.nextAxiId masterPcie).1.grant s masterPcie true).memory s)
        (addr - r.slaveBase s) (addr - r.slaveBase s + data.length) data) s with
    lastAxiId := some (x.nextAxiId masterPcie).2 }, ?_, fun t => ?_⟩
  · rw [Regmap.write, if_neg (by decide), hs]
    rfl
  · rw [memory_lastAxiId, memory_setMemory, hmem, hmem]

/-- A write makes a memory longer or keeps its length. -/
theorem length_write (h : r.write x masterPcie addr data = .ok x') (t : Slave) :
    (x.memory t).length ≤ (x'.memory t).length := by
  cases hs : r.decode x addr with
  | error e =>
    rw [write_eq_error hs] at h
    cases h
  | ok s =>
    obtain ⟨x₁, hw, hmem⟩ := write_eq_ok data hs
    obtain rfl := Except.ok.inj (hw.symm.trans h)
    obtain ⟨hlo, hhi⟩ := mapped_of_decode hs
    rw [hmem]
    split_ifs with ht
    · rw [ht, length_replaceSlice (by omega) (by omega)]
      exact Nat.le_max_left _ _
    · exact Nat.le_refl _

end Accesses

end Pcie

end NpuArc
