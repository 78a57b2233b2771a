import NpuArc.Core.Scratch
import NpuArc.Core.Chains

/-!
# The frame of a run

With nonnegative operands an instruction changes the on-chip memory only in the ranges that it
writes and the main memory only in the ranges that it stores to. A run of a program changes only
what its instructions may change.
-/

namespace NpuArc

namespace FixedArray

variable {n : ℕ} {α : Type}

/-- A write of data changes no position before and none after the data. -/
theorem overwrite_frame (m : FixedArray n α) {lo : ℕ} {data : List α} {i : Fin n}
    (h : i.val < lo ∨ lo + data.length ≤ i.val) : m.overwrite lo data i = m i := by
  unfold overwrite
  split_ifs with hlo
  · rw [List.getElem?_eq_none (by omega), Option.getD_none]
  · rfl

/-- A write to a slice changes no position outside its bounds. -/
theorem setSlice_frame {m m' : FixedArray n α} {a b : ℤ} {data : List α} (ha : 0 ≤ a) (hb : 0 ≤ b)
    (h : m.setSlice a b data = some m') {i : Fin n} (hi : (i.val : ℤ) < a ∨ b ≤ i.val) :
    m' i = m i := by
  have hlo : sliceBound n a = min a.toNat n := sliceBound_of_nonneg ha
  have hhi : sliceBound n b = min b.toNat n := sliceBound_of_nonneg hb
  have hlt := i.isLt
  unfold setSlice at h
  dsimp only at h
  split_ifs at h with hlen hone
  · cases h
    exact overwrite_frame m (by omega)
  · obtain ⟨x, _, rfl⟩ := Option.map_eq_some_iff.mp h
    exact overwrite_frame m (by rw [List.length_replicate]; omega)
  · cases h

end FixedArray

namespace Core

variable {u : Units} {fuel : ℕ} {instr : NPUInstruction} {mem mem' : Memory}

/-! ### Operands -/

/-- No operand is negative. -/
def NPUInstruction.Nonneg (instr : NPUInstruction) : Prop := ∀ e ∈ instr.operands.entries, 0 ≤ e.2

instance (instr : NPUInstruction) : Decidable instr.Nonneg :=
  inferInstanceAs (Decidable (∀ e ∈ instr.operands.entries, _))

theorem NPUInstruction.Nonneg.operand (h : instr.Nonneg) (key : String) (default : ℤ)
    (hdefault : 0 ≤ default) : 0 ≤ instr.operand key default := by
  unfold NPUInstruction.operand
  cases hget : instr.operands.get? key with
  | none => exact hdefault
  | some v => exact h _ (Dict.get?_eq_some.mp hget)

/-- The addresses and the sizes of the ranges that are written are not negative. -/
theorem NPUInstruction.Nonneg.written (h : instr.Nonneg) {acc : Access}
    (hwritten : instr.written = some acc) : 0 ≤ acc.addr ∧ 0 ≤ acc.count := by
  have hdim := h.operand
  have hda := hdim "da" 0 le_rfl
  have hlen := hdim "len" 2560 (by decide)
  unfold NPUInstruction.written at hwritten
  cases hop : instr.opcode <;> rw [hop] at hwritten <;> cases hwritten
  case mmul =>
    exact ⟨hdim "oa" 0 le_rfl, mul_nonneg (hdim "M" 1 (by decide)) (hdim "N" 2560 (by decide))⟩
  case rmsnorm => exact ⟨hda, hdim "elements" 0 le_rfl⟩
  case maxpool | avgpool =>
    exact ⟨hda, mul_nonneg (Int.ediv_nonneg (hdim "H" 2 (by decide)) (by decide))
      (Int.ediv_nonneg (hdim "W" 2 (by decide)) (by decide))⟩
  all_goals exact ⟨hda, by dsimp only; omega⟩

theorem broadcastLength_le {m n : ℕ} {b : ℤ} (hm : (m : ℤ) ≤ b) (hn : (n : ℤ) ≤ b) :
    (broadcastLength m n : ℤ) ≤ b := by
  unfold broadcastLength
  split_ifs
  · exact hm
  · exact hn
  · exact hm

theorem sliceLength_le {n : ℕ} {a b : ℤ} (ha : 0 ≤ a) (hb : a ≤ b) :
    (sliceLength n a b : ℤ) ≤ b - a := by
  rw [sliceLength, sliceBound_of_nonneg ha, sliceBound_of_nonneg (ha.trans hb)]
  omega

/-- No more elements are written than the written range has. -/
theorem NPUInstruction.Nonneg.writtenCount_le (h : instr.Nonneg) {acc : Access}
    (hwritten : instr.written = some acc) : (instr.writtenCount : ℤ) ≤ acc.count := by
  have hlen : 0 ≤ instr.operand "len" 2560 := h.operand _ _ (by decide)
  have hcount := (h.written hwritten).2
  have hfound : ∀ dtype addr, (Access.found ⟨dtype, addr, instr.operand "len" 2560⟩ : ℤ) ≤
      instr.operand "len" 2560 := fun _ _ => Access.found_le hlen
  unfold NPUInstruction.written at hwritten
  unfold NPUInstruction.writtenCount NPUInstruction.chainedRead
  cases hop : instr.opcode <;> rw [hop] at hwritten <;> cases hwritten <;> dsimp only at hcount ⊢
  case mmul | maxpool | avgpool => exact (Int.toNat_of_nonneg hcount).le
  case rmsnorm => exact Access.found_le hcount
  case rope =>
    have hq := sliceLength_le (n := Access.found ⟨.fp16, instr.operand "sa" 0,
      instr.operand "len" 2560⟩) (a := 0) (b := instr.operand "len" 2560 / 2) le_rfl (by omega)
    have hk := sliceLength_le (n := Access.found ⟨.fp16, instr.operand "sa" 0,
      instr.operand "len" 2560⟩) (a := instr.operand "len" 2560 / 2)
      (b := instr.operand "len" 2560 / 2 + instr.operand "len" 2560 / 2 / 8) (by omega) (by omega)
    rw [Option.map_some, Option.getD_some]
    omega
  case vadd | vmul | vresid => exact broadcastLength_le (hfound _ _) (hfound _ _)
  case vredMax | vredSum => exact le_rfl
  all_goals exact hfound _ _

/-! ### Writes -/

/-- Two memories agree at every address that lies in none of some ranges. -/
def EqOutside {n : ℕ} (spans : List Span) (m m' : FixedArray n UInt8) : Prop :=
  ∀ i : Fin n, (∀ s ∈ spans, ¬s.Contains i) → m' i = m i

namespace EqOutside

variable {n : ℕ} {spans spans' : List Span} {m m' m'' : FixedArray n UInt8}

theorem refl (spans : List Span) (m : FixedArray n UInt8) : EqOutside spans m m := fun _ _ => rfl

/-- The ranges of two changes come together. -/
theorem trans (h : EqOutside spans m m') (h' : EqOutside spans' m' m'') :
    EqOutside (spans ++ spans') m m'' := by
  intro i hi
  obtain ⟨hl, hr⟩ := List.forall_mem_append.mp hi
  rw [h' i hr, h i hl]

theorem of_setSlice {a b : ℤ} {data : List UInt8} (ha : 0 ≤ a) (hb : 0 ≤ b)
    (h : m.setSlice a b data = some m') : EqOutside [⟨a, b - a⟩] m m' := by
  intro i hi
  have hout := hi _ (List.mem_singleton.mpr rfl)
  unfold Span.Contains at hout
  dsimp only at hout
  exact FixedArray.setSlice_frame ha hb h (by omega)

end EqOutside

theorem assignSlice_eq_ok {n : ℕ} {m m' : FixedArray n UInt8} {a b : ℤ} {data : List UInt8}
    (h : assignSlice m a b data = .ok m') : m.setSlice a b data = some m' := by
  unfold assignSlice at h
  split at h
  · cases h
    assumption
  · cases h

theorem eqOutside_writeBytes {sram sram' : SRAM} {addr size : ℤ} {data : List UInt8}
    (haddr : 0 ≤ addr) (hsize : (data.length : ℤ) ≤ size)
    (h : sram.writeBytes addr data = .ok sram') : EqOutside [⟨addr, size⟩] sram sram' := by
  unfold SRAM.writeBytes at h
  split_ifs at h
  have hset := EqOutside.of_setSlice haddr (by omega) (assignSlice_eq_ok h)
  refine fun i hi => hset i fun s hs => ?_
  obtain rfl := List.mem_singleton.mp hs
  have hout := hi _ (List.mem_singleton.mpr rfl)
  unfold Span.Contains at hout ⊢
  dsimp only at hout ⊢
  omega

/-- A typed write is a write of as many bytes as its elements have. -/
theorem writeElements_eq (sram : SRAM) (addr : ℤ) (data : Elements) :
    ∃ bytes, bytes.length = data.length * data.dtype.width ∧
      sram.writeElements addr data = sram.writeBytes addr bytes := by
  cases data with
  | int8 data => exact ⟨_, by rw [List.length_map]; exact (Nat.mul_one _).symm, rfl⟩
  | int32 data => exact ⟨_, length_flatMap_toBytes 4 _ data, rfl⟩
  | fp16 data => exact ⟨_, length_flatMap_toBytes 2 _ data, rfl⟩

theorem eqOutside_writeElements {sram sram' : SRAM} {acc : Access} {data : Elements}
    (haddr : 0 ≤ acc.addr) (hdtype : data.dtype = acc.dtype) (hlen : (data.length : ℤ) ≤ acc.count)
    (h : sram.writeElements acc.addr data = .ok sram') : EqOutside [acc.span] sram sram' := by
  obtain ⟨bytes, hbytes, heq⟩ := writeElements_eq sram acc.addr data
  rw [heq] at h
  refine eqOutside_writeBytes haddr ?_ h
  rw [hbytes, hdtype, Nat.cast_mul]
  exact mul_le_mul_of_nonneg_right hlen (Int.natCast_nonneg _)

/-! ### Instructions -/

/-- The ranges of the main memory that the descriptors of a chain store to. -/
def storeTargets : ℕ → ℤ → Memory → List Span
  | 0, _, _ => []
  | fuel + 1, addr, mem =>
    match DMADescriptor.decode (wordAt mem.dram addr) with
    | .error _ => []
    | .ok desc =>
      ⟨desc.dramAddr, desc.actualSize⟩ ::
        match executeStore mem desc with
        | .error _ => []
        | .ok mem' => if desc.last then [] else storeTargets fuel (addr + 8) mem'

/-- The ranges that an instruction without a chain writes in the main memory. -/
def NPUInstruction.stores (instr : NPUInstruction) : List Span :=
  match instr.opcode with
  | .dmaSt => [⟨instr.operand "dram" 0, instr.operand "size" 0⟩]
  | _ => []

/-- The ranges that an instruction writes in the main memory. -/
def NPUInstruction.storesIn (instr : NPUInstruction) (fuel : ℕ) (mem : Memory) : List Span :=
  match instr.opcode with
  | .dmaStd => storeTargets fuel (instr.operand "sa" 0) mem
  | _ => instr.stores

/-- Two pairs of memories agree outside of some ranges of each. -/
structure Memory.Frame (sram dram : List Span) (mem mem' : Memory) : Prop where
  sram : EqOutside sram mem.sram mem'.sram
  dram : EqOutside dram mem.dram mem'.dram

namespace Memory.Frame

variable {sram sram' dram dram' : List Span} {mem'' : Memory}

theorem refl (sram dram : List Span) (mem : Memory) : Memory.Frame sram dram mem mem :=
  ⟨.refl _ _, .refl _ _⟩

theorem trans (h : Memory.Frame sram dram mem mem') (h' : Memory.Frame sram' dram' mem' mem'') :
    Memory.Frame (sram ++ sram') (dram ++ dram') mem mem'' :=
  ⟨h.sram.trans h'.sram, h.dram.trans h'.dram⟩

end Memory.Frame

/-- An instruction that writes elements reads a chained operand, and its written range is theirs. -/
theorem writesIn_of_written {acc : Access} (hwritten : instr.written = some acc) (fuel : ℕ)
    (mem : Memory) : (∃ acc', instr.chainedRead = some acc') ∧
      instr.writesIn fuel mem = [acc.span] ∧ instr.storesIn fuel mem = [] := by
  have hspans : instr.written.toList.map Access.span = [acc.span] := by
    rw [hwritten]
    rfl
  unfold NPUInstruction.writesIn NPUInstruction.writes NPUInstruction.storesIn
    NPUInstruction.stores
  rw [hspans]
  unfold NPUInstruction.written at hwritten
  unfold NPUInstruction.chainedRead
  cases hop : instr.opcode <;> rw [hop] at hwritten <;> cases hwritten <;>
    exact ⟨⟨_, rfl⟩, rfl, rfl⟩

/-- An instruction that is no chain changes what it writes. -/
theorem executeOp_frame (hshape : u.Shaped) (h : instr.Nonneg) {cost : ℤ}
    (hop : executeOp u instr mem = .ok (mem', cost)) :
    Memory.Frame (instr.writesIn fuel mem) (instr.storesIn fuel mem) mem mem' := by
  cases hwritten : instr.written with
  | some acc =>
    obtain ⟨⟨acc', hread⟩, hwrites, hstores⟩ := writesIn_of_written hwritten fuel mem
    obtain ⟨out, hdtype, hlen, hsram, hdram⟩ := executeOp_writes hshape hread hwritten hop
    have hcount := h.writtenCount_le hwritten
    rw [← hlen] at hcount
    rw [hwrites, hstores]
    exact ⟨eqOutside_writeElements (h.written hwritten).1 hdtype hcount hsram, hdram ▸ .refl _ _⟩
  | none =>
    have hdim := fun key => h.operand key 0 le_rfl
    unfold NPUInstruction.written at hwritten
    unfold executeOp at hop
    unfold NPUInstruction.writesIn NPUInstruction.writes NPUInstruction.storesIn
      NPUInstruction.stores
    cases hopcode : instr.opcode <;> rw [hopcode] at hwritten hop <;>
      first | exact absurd hwritten (Option.some_ne_none _) | clear hwritten
    case dmaLd =>
      obtain ⟨sram, hsram, hmem⟩ := bind_eq_ok.mp hop
      cases hmem
      exact ⟨eqOutside_writeBytes (hdim "sram")
        (mem.dram.length_slice_le (hdim "dram") (hdim "size")) hsram, .refl _ _⟩
    case dmaSt =>
      obtain ⟨data, _, hop⟩ := bind_eq_ok.mp hop
      obtain ⟨dram, hdram, hmem⟩ := bind_eq_ok.mp hop
      cases hmem
      have hset := EqOutside.of_setSlice (hdim "dram")
        (add_nonneg (hdim "dram") (hdim "size")) (assignSlice_eq_ok hdram)
      rw [add_sub_cancel_left] at hset
      exact ⟨.refl _ _, hset⟩
    all_goals
      cases hop
      exact .refl _ _ _

/-- The memories that an outcome leaves. -/
def Outcome.memory : Outcome → Memory
  | .ok (mem, _) => mem
  | .error (_, mem, _) => mem

/-- The cycles that an outcome counts. -/
def Outcome.cycles : Outcome → ℤ
  | .ok (_, cycles) => cycles
  | .error (_, _, cycles) => cycles

/-- What holds of each way to go through a descriptor holds of a run of descriptors. -/
theorem runDescriptors_induction {execute : Memory → DMADescriptor → Except Error Memory}
    {P : ℕ → ℤ → Memory → ℤ → Memory → ℤ → Prop}
    (stop : ∀ fuel addr mem c d e, DMADescriptor.decode (wordAt mem.dram addr) = .ok d →
      execute mem d = .error e → P (fuel + 1) addr mem c mem c)
    (last : ∀ fuel addr mem c d mem', DMADescriptor.decode (wordAt mem.dram addr) = .ok d →
      execute mem d = .ok mem' → d.last = true →
        P (fuel + 1) addr mem c mem' (c + u.estimateTransfer d.actualSize))
    (next : ∀ fuel addr mem c d mem' mem'' c'',
      DMADescriptor.decode (wordAt mem.dram addr) = .ok d → execute mem d = .ok mem' →
        d.last = false → P fuel (addr + 8) mem' (c + u.estimateTransfer d.actualSize) mem'' c'' →
          P (fuel + 1) addr mem c mem'' c'')
    {addr c : ℤ} {r : Outcome} (h : runDescriptors u execute fuel addr mem c = some r) :
    P fuel addr mem c (Outcome.memory r) (Outcome.cycles r) := by
  induction fuel generalizing addr mem c with
  | zero => cases h
  | succ fuel ih =>
    obtain ⟨d, hdecode, -⟩ := DMADescriptor.decode_eq_ok (wordAt mem.dram addr)
    rw [runDescriptors, hdecode] at h
    dsimp only at h
    cases hexec : execute mem d with
    | error e =>
      rw [hexec] at h
      cases h
      exact stop _ _ _ _ d e hdecode hexec
    | ok mem' =>
      rw [hexec] at h
      dsimp only at h
      split_ifs at h with hlast
      · cases h
        exact last _ _ _ _ d mem' hdecode hexec hlast
      · exact next _ _ _ _ d mem' _ _ hdecode hexec (Bool.eq_false_iff.mpr hlast) (ih h)

/-- A load changes the range of its descriptor. -/
theorem executeLoad_frame {d : DMADescriptor} (h : executeLoad mem d = .ok mem') :
    Memory.Frame [⟨d.sramAddr, d.actualSize⟩] [] mem mem' := by
  obtain ⟨sram, hsram, hmem⟩ := bind_eq_ok.mp h
  cases hmem
  have hrange := d.inRange
  exact ⟨eqOutside_writeBytes hrange.sramAddr.1
    (mem.dram.length_slice_le hrange.dramAddr.1 d.actualSize_pos.1.le) hsram, .refl _ _⟩

/-- A store changes the range of its descriptor. -/
theorem executeStore_frame {d : DMADescriptor} (h : executeStore mem d = .ok mem') :
    Memory.Frame [] [⟨d.dramAddr, d.actualSize⟩] mem mem' := by
  obtain ⟨data, _, h⟩ := bind_eq_ok.mp h
  obtain ⟨dram, hdram, hmem⟩ := bind_eq_ok.mp h
  cases hmem
  have haddr := d.inRange.dramAddr.1
  have hset := EqOutside.of_setSlice haddr (add_nonneg haddr d.actualSize_pos.1.le)
    (assignSlice_eq_ok hdram)
  rw [add_sub_cancel_left] at hset
  exact ⟨.refl _ _, hset⟩

/-- A chain of loads changes the ranges of its descriptors, also where it fails. -/
theorem runDescriptors_load_frame {addr cycles : ℤ} {r : Outcome}
    (h : runDescriptors u executeLoad fuel addr mem cycles = some r) :
    Memory.Frame (descriptorSpans executeLoad fuel addr mem) [] mem (Outcome.memory r) := by
  refine runDescriptors_induction
    (P := fun fuel addr mem _ mem' _ =>
      Memory.Frame (descriptorSpans executeLoad fuel addr mem) [] mem mem')
    ?_ ?_ ?_ h
  · exact fun _ _ _ _ _ _ _ _ => .refl _ _ _
  · intro fuel addr mem _ d mem' hdecode hexec hlast
    rw [descriptorSpans, hdecode]
    dsimp only
    rw [hexec]
    dsimp only
    rw [if_pos hlast]
    exact executeLoad_frame hexec
  · intro fuel addr mem _ d mem' mem'' _ hdecode hexec hlast ih
    rw [descriptorSpans, hdecode]
    dsimp only
    rw [hexec]
    dsimp only
    rw [hlast, if_neg Bool.false_ne_true]
    exact (executeLoad_frame hexec).trans ih

/-- A chain of stores changes the ranges that its descriptors store to, also where it fails. -/
theorem runDescriptors_store_frame {addr cycles : ℤ} {r : Outcome}
    (h : runDescriptors u executeStore fuel addr mem cycles = some r) :
    Memory.Frame [] (storeTargets fuel addr mem) mem (Outcome.memory r) := by
  refine runDescriptors_induction
    (P := fun fuel addr mem _ mem' _ => Memory.Frame [] (storeTargets fuel addr mem) mem mem')
    ?_ ?_ ?_ h
  · exact fun _ _ _ _ _ _ _ _ => .refl _ _ _
  · intro fuel addr mem _ d mem' hdecode hexec hlast
    rw [storeTargets, hdecode]
    dsimp only
    rw [hexec]
    dsimp only
    rw [if_pos hlast]
    exact executeStore_frame hexec
  · intro fuel addr mem _ d mem' mem'' _ hdecode hexec hlast ih
    rw [storeTargets, hdecode]
    dsimp only
    rw [hexec]
    dsimp only
    rw [hlast, if_neg Bool.false_ne_true]
    exact (executeStore_frame hexec).trans ih

/-- An instruction that is no chain leaves the memories as they are where it fails. -/
theorem execute_of_ne_chain (hload : instr.opcode ≠ .dmaLdd) (hstore : instr.opcode ≠ .dmaStd) :
    execute u fuel instr mem = some ((executeOp u instr mem).mapError fun e => (e, mem, 0)) := by
  unfold execute
  cases hop : instr.opcode <;>
    first | rfl | exact absurd hop hload | exact absurd hop hstore

/-- What an instruction leaves agrees with what it found, but for the ranges that it writes. -/
theorem execute_frame (hshape : u.Shaped) (h : instr.Nonneg) {r : Outcome}
    (hexec : execute u fuel instr mem = some r) :
    Memory.Frame (instr.writesIn fuel mem) (instr.storesIn fuel mem) mem (Outcome.memory r) := by
  by_cases hload : instr.opcode = .dmaLdd
  · have hspans : instr.writesIn fuel mem =
        descriptorSpans executeLoad fuel (instr.operand "sa" 0) mem ∧
          instr.storesIn fuel mem = [] := by
      unfold NPUInstruction.writesIn NPUInstruction.storesIn NPUInstruction.stores
      rw [hload]
      exact ⟨rfl, rfl⟩
    unfold execute at hexec
    rw [hload] at hexec
    rw [hspans.1, hspans.2]
    exact runDescriptors_load_frame hexec
  by_cases hstore : instr.opcode = .dmaStd
  · have hspans : instr.writesIn fuel mem = [] ∧
        instr.storesIn fuel mem = storeTargets fuel (instr.operand "sa" 0) mem := by
      unfold NPUInstruction.writesIn NPUInstruction.storesIn NPUInstruction.writes
        NPUInstruction.written
      rw [hstore]
      exact ⟨rfl, rfl⟩
    unfold execute at hexec
    rw [hstore] at hexec
    rw [hspans.1, hspans.2]
    exact runDescriptors_store_frame hexec
  · rw [execute_of_ne_chain hload hstore] at hexec
    cases hop : executeOp u instr mem with
    | error e =>
      rw [hop] at hexec
      cases hexec
      exact .refl _ _ _
    | ok res =>
      rw [hop] at hexec
      cases hexec
      exact executeOp_frame hshape h hop

/-! ### Cycles -/

theorem unaryFloat_eq_ok {f : List UInt16 → Except Error (List UInt16)} {count cost cycles : ℤ} :
    unaryFloat f count cost instr mem = .ok (mem', cycles) ↔ ∃ inp out sram,
      mem.sram.readFloat16 (instr.operand "sa" 0) count = .ok inp ∧ f inp = .ok out ∧
        mem.sram.writeFloat16 (instr.operand "da" 0) out = .ok sram ∧
          { mem with sram } = mem' ∧ cost = cycles := by
  simp only [unaryFloat, bind_eq_ok, pure, Except.pure, Except.ok.injEq, Prod.mk.injEq,
    exists_and_left]

theorem binaryInt_eq_ok {f : List Int32 → List Int32 → Except Error (List Int32)} {cycles : ℤ} :
    binaryInt f instr mem = .ok (mem', cycles) ↔ ∃ a b out sram,
      mem.sram.readInt32 (instr.operand "sa" 0) (instr.operand "len" 2560) = .ok a ∧
        mem.sram.readInt32 (instr.operand "sa" 0 + instr.operand "len" 2560 * 4)
          (instr.operand "len" 2560) = .ok b ∧ f a b = .ok out ∧
        mem.sram.writeInt32 (instr.operand "da" 0) out = .ok sram ∧ { mem with sram } = mem' ∧
          instr.operand "len" 2560 / 128 + 1 = cycles := by
  simp only [binaryInt, bind_eq_ok, pure, Except.pure, Except.ok.injEq, Prod.mk.injEq,
    exists_and_left]

theorem estimateMxuCycles_nonneg {m k n : ℤ} (hm : 0 ≤ m) (hk : 0 ≤ k) (hn : 0 ≤ n) :
    0 ≤ estimateMxuCycles m k n := by
  have htiles : ∀ x : ℤ, 0 ≤ x → 0 ≤ (x + 64 - 1) / 64 := fun x hx => by omega
  exact mul_nonneg (mul_nonneg (htiles m hm) (htiles n hn)) (htiles k hk)

/-- An instruction that is no chain takes no negative number of cycles. -/
theorem executeOp_cost (hcost : ∀ size, 0 ≤ size → 0 ≤ u.estimateTransfer size) (h : instr.Nonneg)
    {cycles : ℤ} (hop : executeOp u instr mem = .ok (mem', cycles)) : 0 ≤ cycles := by
  have hdim := h.operand
  have hlen := hdim "len" 2560 (by decide)
  have hpool : 0 ≤ instr.operand "H" 2 / 2 * (instr.operand "W" 2 / 2) :=
    mul_nonneg (Int.ediv_nonneg (hdim "H" 2 (by decide)) (by decide))
      (Int.ediv_nonneg (hdim "W" 2 (by decide)) (by decide))
  unfold executeOp at hop
  cases hopcode : instr.opcode <;> rw [hopcode] at hop <;> dsimp only at hop
  case softmax | layernorm | gelu | silu | relu | rope | maxpool | avgpool | vredMax | vredSum =>
    obtain ⟨_, _, _, _, _, _, _, rfl⟩ := unaryFloat_eq_ok.mp hop
    omega
  case vadd | vmul =>
    obtain ⟨_, _, _, _, _, _, _, _, _, rfl⟩ := binaryInt_eq_ok.mp hop
    omega
  case rmsnorm =>
    split_ifs at hop with helements
    obtain ⟨_, _, _, _, _, _, _, rfl⟩ := unaryFloat_eq_ok.mp hop
    omega
  case mmul =>
    obtain ⟨_, _, hop⟩ := bind_eq_ok.mp hop
    obtain ⟨_, _, hop⟩ := bind_eq_ok.mp hop
    cases hop
    exact estimateMxuCycles_nonneg (hdim "M" 1 (by decide)) (hdim "K" 2560 (by decide))
      (hdim "N" 2560 (by decide))
  case dmaLd =>
    obtain ⟨_, _, hop⟩ := bind_eq_ok.mp hop
    cases hop
    exact hcost _ (hdim "size" 0 le_rfl)
  case dmaSt =>
    obtain ⟨_, _, hop⟩ := bind_eq_ok.mp hop
    obtain ⟨_, _, hop⟩ := bind_eq_ok.mp hop
    cases hop
    exact hcost _ (hdim "size" 0 le_rfl)
  case vconv | vconvF16I32 =>
    obtain ⟨_, _, hop⟩ := bind_eq_ok.mp hop
    obtain ⟨_, _, hop⟩ := bind_eq_ok.mp hop
    cases hop
    omega
  case vresid =>
    obtain ⟨_, _, hop⟩ := bind_eq_ok.mp hop
    obtain ⟨_, _, hop⟩ := bind_eq_ok.mp hop
    obtain ⟨_, _, hop⟩ := bind_eq_ok.mp hop
    obtain ⟨_, _, hop⟩ := bind_eq_ok.mp hop
    cases hop
    omega
  all_goals
    cases hop
    decide

/-- A chain takes no negative number of cycles, also where it fails. -/
theorem runDescriptors_cycles (hcost : ∀ size, 0 ≤ size → 0 ≤ u.estimateTransfer size)
    {execute : Memory → DMADescriptor → Except Error Memory} {addr c : ℤ} {r : Outcome}
    (h : runDescriptors u execute fuel addr mem c = some r) : c ≤ Outcome.cycles r := by
  have hd := fun d : DMADescriptor => hcost _ d.actualSize_pos.1.le
  refine runDescriptors_induction (P := fun _ _ _ c _ c' => c ≤ c') ?_ ?_ ?_ h
  · exact fun _ _ _ _ _ _ _ _ => le_rfl
  · exact fun _ _ _ _ d _ _ _ _ => le_add_of_nonneg_right (hd d)
  · exact fun _ _ _ _ d _ _ _ _ _ _ ih => (le_add_of_nonneg_right (hd d)).trans ih

theorem execute_cycles (hcost : ∀ size, 0 ≤ size → 0 ≤ u.estimateTransfer size) (h : instr.Nonneg)
    {r : Outcome} (hexec : execute u fuel instr mem = some r) : 0 ≤ Outcome.cycles r := by
  by_cases hload : instr.opcode = .dmaLdd
  · unfold execute at hexec
    rw [hload] at hexec
    exact runDescriptors_cycles hcost hexec
  by_cases hstore : instr.opcode = .dmaStd
  · unfold execute at hexec
    rw [hstore] at hexec
    exact runDescriptors_cycles hcost hexec
  · rw [execute_of_ne_chain hload hstore] at hexec
    cases hop : executeOp u instr mem with
    | error e =>
      rw [hop] at hexec
      cases hexec
      exact le_rfl
    | ok res =>
      rw [hop] at hexec
      cases hexec
      exact executeOp_cost hcost h hop

/-! ### Programs -/

namespace GoldenExecutor

variable {g : GoldenExecutor} {program : List NPUInstruction}

/-- The core as a step or a run leaves it. -/
def left : Except (Error × GoldenExecutor) GoldenExecutor → GoldenExecutor
  | .ok g => g
  | .error (_, g) => g

/-- A step, also one that fails, changes what its instruction writes, and counts cycles. -/
theorem step_frame (hshape : u.Shaped) (hcost : ∀ size, 0 ≤ size → 0 ≤ u.estimateTransfer size)
    (h : instr.Nonneg) {r : Except (Error × GoldenExecutor) GoldenExecutor}
    (hstep : g.step u fuel instr = some r) :
    Memory.Frame (instr.writesIn fuel g.toMemory) (instr.storesIn fuel g.toMemory) g.toMemory
        (left r).toMemory ∧
      g.cycle ≤ (left r).cycle ∧ (left r).pc = g.pc + if r.isOk then 1 else 0 := by
  obtain ⟨outcome, hexec, rfl⟩ := Option.map_eq_some_iff.mp hstep
  have hframe := execute_frame hshape h hexec
  have hcycles := execute_cycles hcost h hexec
  rcases outcome with ⟨e, mem, cycles⟩ | ⟨mem, cycles⟩ <;>
    exact ⟨hframe, le_add_of_nonneg_right hcycles, rfl⟩

/-- A run of a program, also one that fails, changes no byte of the on-chip memory outside of the
ranges that its instructions write, and no byte of the main memory outside of those that they
store to. It counts its instructions, and its cycles do not decrease. -/
theorem executeProgram_frame (hshape : u.Shaped)
    (hcost : ∀ size, 0 ≤ size → 0 ≤ u.estimateTransfer size)
    (hnonneg : ∀ instr ∈ program, instr.Nonneg)
    {r : Except (Error × GoldenExecutor) GoldenExecutor}
    (h : g.executeProgram u fuel program = some r) :
    Memory.Frame (rangesAlong u fuel (fun instr mem => instr.writesIn fuel mem) program g)
        (rangesAlong u fuel (fun instr mem => instr.storesIn fuel mem) program g)
        g.toMemory (left r).toMemory ∧
      g.cycle ≤ (left r).cycle ∧ (left r).pc ≤ g.pc + program.length ∧
        (r.isOk = true → (left r).pc = g.pc + program.length) := by
  induction program generalizing g with
  | nil =>
    cases h
    exact ⟨.refl _ _ _, le_rfl, le_rfl, fun _ => rfl⟩
  | cons instr program ih =>
    obtain ⟨hinstr, hrest⟩ := List.forall_mem_cons.mp hnonneg
    rw [executeProgram] at h
    rw [rangesAlong, rangesAlong, List.length_cons]
    cases hstep : g.step u fuel instr with
    | none =>
      rw [hstep] at h
      cases h
    | some r' =>
      obtain ⟨hframe, hcycle, hpc⟩ := step_frame hshape hcost hinstr hstep
      rw [hstep] at h
      cases r' with
      | error e =>
        cases h
        dsimp only
        rw [List.append_nil, List.append_nil]
        refine ⟨hframe, hcycle, ?_, fun hr => absurd hr Bool.false_ne_true⟩
        rw [hpc]
        exact Nat.add_le_add_left (Nat.zero_le _) _
      | ok g' =>
        obtain ⟨hframe', hcycle', hle, hok⟩ := ih hrest h
        have hpc' : g'.pc = g.pc + 1 := hpc
        refine ⟨hframe.trans hframe', hcycle.trans hcycle', by omega, fun hr => ?_⟩
        have := hok hr
        omega

end GoldenExecutor

/-! ### An example -/

/-- Units whose results have the shapes of those of the code, and agree with them on zeros. -/
def shapedUnits : Units :=
  let zeros {α : Type} (x : α) (count : ℤ) : Except Error (List α) :=
    if 0 ≤ count then .ok (List.replicate count.toNat x)
    else .error (.valueError "negative dimensions are not allowed")
  { exampleUnits with
    matmulInt32 := fun _ _ m _ n => zeros 0 (m * n)
    maxPool := fun h w _ => zeros 0 (h / 2 * (w / 2))
    avgPool := fun h w _ => zeros 0 (h / 2 * (w / 2)) }

theorem shapedUnits_shaped : shapedUnits.Shaped := by
  have hzeros : ∀ {α : Type} {x : α} {count : ℤ} {out : List α},
      (if 0 ≤ count then Except.ok (List.replicate count.toNat x)
        else .error (Error.valueError "negative dimensions are not allowed")) = .ok out →
      (out.length : ℤ) = count := by
    intro α x count out h
    split_ifs at h with hcount
    cases h
    rw [List.length_replicate, Int.toNat_of_nonneg hcount]
  have hsame : ∀ {inp out : List UInt16}, (Except.ok inp : Except Error (List UInt16)) = .ok out →
      out.length = inp.length := by
    intro inp out h
    cases h
    rfl
  refine ⟨hzeros, hsame, hsame, hsame, ?_, hzeros, hzeros⟩
  intro q k position out h
  cases h
  exact ⟨rfl, rfl⟩

/-- A sum and a rectification beside it change the two ranges that they write. -/
theorem sumBesideRelu_frame : ∃ g',
    floatOne.executeProgram shapedUnits 0 sumBesideRelu = some (.ok g') ∧
      Memory.Frame
        (rangesAlong shapedUnits 0 (fun instr mem => instr.writesIn 0 mem) sumBesideRelu floatOne)
        (rangesAlong shapedUnits 0 (fun instr mem => instr.storesIn 0 mem) sumBesideRelu floatOne)
        floatOne.toMemory g'.toMemory ∧ floatOne.cycle ≤ g'.cycle ∧ g'.pc = 2 := by
  have hrun : byteAfter (floatOne.executeProgram shapedUnits 0 sumBesideRelu) 513 = some 0x3C := by
    decide +kernel
  obtain ⟨g', hrun, -⟩ := exists_of_byteAfter hrun
  obtain ⟨hframe, hcycle, -, hpc⟩ := GoldenExecutor.executeProgram_frame shapedUnits_shaped
    (fun _ h => h) (by decide) hrun
  exact ⟨g', hrun, hframe, hcycle, hpc rfl⟩

end Core

end NpuArc
