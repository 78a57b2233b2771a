import NpuArc.Pcie.DmaEngine

/-!
# What the headers of packets denote

A header of three or four words denotes a range of double words: it has the number of the first
one, without the two lowest bits of an address, and their count in ten bits, where zero stands
for 1024. The headers of a transfer tile it when their ranges follow on each other and cover the
double words that contain the bytes of the transfer.
-/

namespace NpuArc

namespace Pcie

/-- A memory request, with its range of double words. -/
structure MemRequest where
  isWrite : Bool
  fourDw : Bool
  start : ℕ
  count : ℕ
  deriving DecidableEq, Repr

/-- The request of a first word and an address. -/
def memRequest (fourDw : Bool) (dw0 addr : ℕ) : Option MemRequest :=
  let field := dw0 &&& 0x3FF
  let count := if field = 0 then 1024 else field
  if dw0 >>> 24 = (if fourDw then 0x60 else 0x40) then some ⟨true, fourDw, addr / 4, count⟩
  else if dw0 >>> 24 = (if fourDw then 0x20 else 0x00) then
    some ⟨false, fourDw, addr / 4, count⟩
  else none

/-- The request that a header denotes. -/
def readHeader (header : List UInt8) : Option MemRequest :=
  match unpackWords header with
  | [dw0, _, dw2] => memRequest false dw0 dw2
  | [dw0, _, dw2, dw3] => memRequest true dw0 (dw2 * 2 ^ 32 + dw3)
  | _ => none

/-- The address as a header carries it. -/
def wireAddr (addr : ℤ) : ℕ :=
  if DmaEngine.needs4dw addr then lowBits 64 addr else lowBits 32 addr

/-- The request for some bytes from an address on, by a single header. -/
def request (isWrite : Bool) (addr : ℤ) (n : ℕ) : MemRequest :=
  ⟨isWrite, DmaEngine.needs4dw addr, wireAddr addr / 4, lengthDw n⟩

/-- The requests for parts of some sizes. -/
def requests (isWrite : Bool) (addr : ℤ) : List ℕ → List MemRequest
  | [] => []
  | n :: sizes => request isWrite addr n :: requests isWrite (addr + n) sizes

section Requests

variable {isWrite : Bool} {addr : ℤ} {n : ℕ}

@[simp]
theorem fourDw_request : (request isWrite addr n).fourDw = DmaEngine.needs4dw addr := rfl

@[simp]
theorem start_request : (request isWrite addr n).start = wireAddr addr / 4 := rfl

@[simp]
theorem count_request : (request isWrite addr n).count = lengthDw n := rfl

end Requests

section Fields

/-- The first word of a header, and its fields. -/
theorem dw0_fields {fmtType : ℕ} (dw : ℕ) (hfmt : fmtType < 2 ^ 8) :
    (fmtType <<< 24 ||| dw &&& 0x3FF) >>> 24 = fmtType ∧
      (fmtType <<< 24 ||| dw &&& 0x3FF) &&& 0x3FF = dw % 1024 ∧
      (fmtType <<< 24 ||| dw &&& 0x3FF) < 2 ^ 32 := by
  have hmask : ∀ x : ℕ, x &&& 0x3FF = x % 1024 := fun x => and_mask x 10
  have hword : (fmtType <<< 24 ||| dw &&& 0x3FF) = fmtType * 2 ^ 24 + dw % 1024 := by
    rw [hmask, Nat.shiftLeft_eq, or_eq_add (i := 24) (Nat.mul_mod_left _ _) (by omega)]
  rw [hword, hmask, Nat.shiftRight_eq_div_pow]
  omega

/-- A mask clears the two lowest bits of an address. -/
theorem and_dwordMask {x : ℕ} (hx : x < 2 ^ 32) : x &&& 0xFFFFFFFC = x / 4 * 4 := by
  have hlow : ∀ b < 4, b &&& 0xFFFFFFFC = 0 := by decide
  have hjoin : x = (x / 4) <<< 2 ||| x % 4 := by
    rw [Nat.shiftLeft_eq, or_eq_add (i := 2) (Nat.mul_mod_left _ _) (by omega)]
    omega
  have hhigh : (x / 4) <<< 2 &&& 0x3FFFFFFF <<< 2 = (x / 4 &&& 0x3FFFFFFF) <<< 2 :=
    (Nat.shiftLeft_and_distrib).symm
  have hkept : x / 4 &&& 0x3FFFFFFF = x / 4 := by
    rw [show 0x3FFFFFFF = 2 ^ 30 - 1 from rfl, and_mask]
    omega
  calc x &&& 0xFFFFFFFC = ((x / 4) <<< 2 ||| x % 4) &&& 0xFFFFFFFC := by rw [← hjoin]
    _ = (x / 4) <<< 2 &&& 0x3FFFFFFF <<< 2 := by
      rw [Nat.and_or_distrib_right, hlow (x % 4) (by omega), Nat.or_zero]
      rfl
    _ = x / 4 * 4 := by rw [hhigh, hkept, Nat.shiftLeft_eq]

theorem dw1_lt (requesterId : UInt16) (tag : Tag) :
    requesterId.toNat <<< 16 ||| tag.val <<< 8 ||| 0xFF < 2 ^ 32 := by
  have hid := requesterId.toNat_lt
  have htag : tag.val < 256 := tag.isLt
  refine Nat.or_lt_two_pow (Nat.or_lt_two_pow ?_ ?_) (by decide)
  · rw [Nat.shiftLeft_eq]
    omega
  · rw [Nat.shiftLeft_eq]
    omega

end Fields

section Headers

variable {d : DmaEngine} {addr : ℤ} {n fmtType : ℕ} {tag : Tag}

/-- The header of a packet, with its number of words by the address. -/
def DmaEngine.memHeader (isWrite : Bool) (d : DmaEngine) (addr : ℤ) (n : ℕ) (tag : Tag) :
    List UInt8 :=
  if needs4dw addr then
    buildHeader4dw (if isWrite then 0x60 else 0x20) d addr (lengthDw n) tag
  else buildHeader3dw (if isWrite then 0x40 else 0x00) d addr (lengthDw n) tag

theorem readHeader_3dw (hfmt : fmtType < 2 ^ 8) (dw : ℕ) :
    readHeader (DmaEngine.buildHeader3dw fmtType d addr dw tag) =
      memRequest false (fmtType <<< 24 ||| dw &&& 0x3FF) (lowBits 32 addr / 4 * 4) := by
  have hlow := lowBits_lt 32 addr
  rw [readHeader, DmaEngine.buildHeader3dw, and_dwordMask hlow, unpackWords_packWords]
  intro w hw
  rcases List.mem_cons.mp hw with rfl | hw
  · exact (dw0_fields dw hfmt).2.2
  rcases List.mem_cons.mp hw with rfl | hw
  · exact dw1_lt d.requesterId tag
  · rw [List.mem_singleton.mp hw]
    omega

theorem readHeader_4dw (hfmt : fmtType < 2 ^ 8) (dw : ℕ) :
    readHeader (DmaEngine.buildHeader4dw fmtType d addr dw tag) =
      memRequest true (fmtType <<< 24 ||| dw &&& 0x3FF)
        (lowBits 32 (addr / 2 ^ 32) * 2 ^ 32 + lowBits 32 addr / 4 * 4) := by
  have hlow := lowBits_lt 32 addr
  rw [readHeader, DmaEngine.buildHeader4dw, and_dwordMask hlow, unpackWords_packWords]
  intro w hw
  rcases List.mem_cons.mp hw with rfl | hw
  · exact (dw0_fields dw hfmt).2.2
  rcases List.mem_cons.mp hw with rfl | hw
  · exact dw1_lt d.requesterId tag
  rcases List.mem_cons.mp hw with rfl | hw
  · exact lowBits_lt 32 _
  · rw [List.mem_singleton.mp hw]
    omega

theorem wire_4dw (addr : ℤ) :
    (lowBits 32 (addr / 2 ^ 32) * 2 ^ 32 + lowBits 32 addr / 4 * 4) / 4 = lowBits 64 addr / 4 := by
  rw [lowBits, lowBits, lowBits]
  omega

/-- The header of a packet denotes its request. -/
theorem readHeader_memHeader (d : DmaEngine) (addr : ℤ) (tag : Tag) (isWrite : Bool)
    (hpos : 0 < n) (hmax : n ≤ 4096) :
    readHeader (d.memHeader isWrite addr n tag) = some (request isWrite addr n) := by
  have hcount : (if lengthDw n % 1024 = 0 then 1024 else lengthDw n % 1024) = lengthDw n := by
    rw [lengthDw]
    split_ifs <;> omega
  rw [DmaEngine.memHeader, request, wireAddr]
  cases DmaEngine.needs4dw addr with
  | true =>
    have hfmt : (if isWrite then 0x60 else 0x20) < 2 ^ 8 := by cases isWrite <;> decide
    obtain ⟨h1, h2, -⟩ := dw0_fields (lengthDw n) hfmt
    rw [if_pos rfl, if_pos rfl, readHeader_4dw hfmt, memRequest, h1, h2, hcount, wire_4dw]
    cases isWrite <;> rfl
  | false =>
    have hfmt : (if isWrite then 0x40 else 0x00) < 2 ^ 8 := by cases isWrite <;> decide
    obtain ⟨h1, h2, -⟩ := dw0_fields (lengthDw n) hfmt
    rw [if_neg Bool.false_ne_true, if_neg Bool.false_ne_true, readHeader_3dw hfmt, memRequest, h1,
      h2, hcount, Nat.mul_div_cancel _ (by decide)]
    cases isWrite <;> rfl

end Headers

/-- The ranges of requests follow on each other, from a double word on. -/
def FollowOn : ℕ → List MemRequest → Prop
  | _, [] => True
  | s, q :: qs => q.start = s ∧ FollowOn (s + q.count) qs

/-- The number of double words of requests. -/
def totalCount (rs : List MemRequest) : ℕ := (rs.map MemRequest.count).sum

theorem totalCount_cons (q : MemRequest) (rs : List MemRequest) :
    totalCount (q :: rs) = q.count + totalCount rs := by
  rw [totalCount, List.map_cons, List.sum_cons, totalCount]

/-- Requests tile the bytes from an address on: they have the format that their address requires
and are not longer than the most bytes of a packet, their ranges follow on each other, and these
are the double words that contain the bytes. -/
structure Tiles (isWrite : Bool) (mps : ℕ) (addr : ℤ) (len : ℕ) (rs : List MemRequest) :
    Prop where
  kind : ∀ q ∈ rs, q.isWrite = isWrite
  format : ∀ q ∈ rs, q.fourDw = true ↔ 2 ^ 32 ≤ q.start * 4
  short : ∀ q ∈ rs, q.count * 4 ≤ mps
  consecutive : ∃ s, FollowOn s rs
  covers : ∀ w : ℤ, (∃ q ∈ rs, (q.start : ℤ) ≤ w ∧ w < q.start + q.count) ↔
    ∃ b : ℤ, addr ≤ b ∧ b < addr + len ∧ w = b / 4

/-- A transfer without bytes, or one that needs no more double words than its bytes fill, and
whose packets have addresses of 64 bits. -/
def Aligned (mps : ℕ) (addr : ℤ) (len : ℕ) : Prop :=
  len = 0 ∨ 0 ≤ addr ∧ addr % 4 + ((len - 1) % 4 : ℕ) < 4 ∧
    addr + ((len - 1) / mps * mps : ℕ) < 2 ^ 64

section Tilings

variable {isWrite : Bool} {mps len s : ℕ} {addr : ℤ} {rs : List MemRequest}

/-- Requests that follow on each other cover an interval. -/
theorem covers_followOn (h : FollowOn s rs) (w : ℤ) :
    (∃ q ∈ rs, (q.start : ℤ) ≤ w ∧ w < q.start + q.count) ↔
      (s : ℤ) ≤ w ∧ w < s + totalCount rs := by
  induction rs generalizing s with
  | nil =>
    rw [totalCount, List.map_nil, List.sum_nil, Nat.cast_zero]
    constructor
    · rintro ⟨q, hq, -⟩
      exact absurd hq List.not_mem_nil
    · omega
  | cons q rs ih =>
    obtain ⟨rfl, hrest⟩ := h
    have ih := ih hrest
    rw [totalCount_cons]
    constructor
    · rintro ⟨q', hq', hw⟩
      rcases List.mem_cons.mp hq' with rfl | hq'
      · omega
      · have hin := ih.mp ⟨q', hq', hw⟩
        omega
    · intro hw
      by_cases hfirst : w < q.start + q.count
      · exact ⟨q, List.mem_cons_self, hw.1, hfirst⟩
      · obtain ⟨q', hq', hin⟩ := ih.mpr (by omega)
        exact ⟨q', List.mem_cons_of_mem q hq', hin⟩

/-- The double words that contain bytes of a range. -/
theorem covered_iff (hlen : 0 < len) (w : ℤ) :
    (∃ b : ℤ, addr ≤ b ∧ b < addr + len ∧ w = b / 4) ↔
      addr / 4 ≤ w ∧ w ≤ (addr + len - 1) / 4 := by
  constructor
  · rintro ⟨b, hlo, hhi, rfl⟩
    omega
  · intro hw
    exact ⟨max addr (4 * w), by omega, by omega, by omega⟩

/-- The address in a header is that of the packet if it has 64 bits, and only then. -/
theorem wireAddr_div (addr : ℤ) :
    ((wireAddr addr / 4 : ℕ) : ℤ) = addr / 4 ↔ 0 ≤ addr ∧ addr < 2 ^ 64 := by
  rw [wireAddr, DmaEngine.needs4dw, lowBits, lowBits]
  by_cases h : addr > 0xFFFFFFFF
  · rw [if_pos (by rw [decide_eq_true h])]
    omega
  · rw [if_neg (by rw [decide_eq_false h]; exact Bool.false_ne_true)]
    omega

/-- The parts of a transfer have as many double words as the transfer. -/
theorem totalCount_requests (hmps : 0 < mps) (h4 : mps % 4 = 0) :
    totalCount (requests isWrite addr (partSizes mps len)) = lengthDw len := by
  induction len using partSizes_induction hmps generalizing addr with
  | zero =>
    rw [partSizes_zero hmps]
    rfl
  | part len hpos ih =>
    rw [partSizes_of_pos hmps hpos, requests, totalCount_cons, ih, count_request, lengthDw,
      lengthDw, lengthDw]
    omega

/-- The address of the last packet is that of the second one's transfer. -/
theorem lastAddr_succ (hmps : 0 < mps) (h : mps < len) :
    (len - 1) / mps * mps = (len - mps - 1) / mps * mps + mps := by
  rw [Nat.div_eq_sub_div hmps (show mps ≤ len - 1 by omega), Nat.succ_mul,
    show len - 1 - mps = len - mps - 1 by omega]

/-- Every request of a transfer is that of one packet. -/
theorem exists_request (hmps : 0 < mps) {q : MemRequest}
    (hq : q ∈ requests isWrite addr (partSizes mps len)) :
    ∃ a n, q = request isWrite a n ∧ 0 < n ∧ n ≤ mps ∧ addr ≤ a ∧
      a ≤ addr + ((len - 1) / mps * mps : ℕ) := by
  induction len using partSizes_induction hmps generalizing addr with
  | zero =>
    rw [partSizes_zero hmps] at hq
    exact absurd hq List.not_mem_nil
  | part len hpos ih =>
    rw [partSizes_of_pos hmps hpos] at hq
    rcases List.mem_cons.mp hq with rfl | hq
    · exact ⟨addr, min mps len, rfl, by omega, by omega, by omega, by omega⟩
    · rcases Nat.lt_or_ge mps len with hmore | hlast
      · obtain ⟨a, n, hrequest, hn, hn', hlo, hhi⟩ := ih hq
        refine ⟨a, n, hrequest, hn, hn', by omega, ?_⟩
        rw [lastAddr_succ hmps hmore]
        omega
      · rw [Nat.sub_eq_zero_of_le hlast, partSizes_zero hmps] at hq
        exact absurd hq List.not_mem_nil

/-- The requests of a transfer follow on each other from its first double word exactly when the
packets have addresses of 64 bits. -/
theorem followOn_requests_iff (hmps : 0 < mps) (h4 : mps % 4 = 0) (hlen : 0 < len)
    (hs : (s : ℤ) = addr / 4) :
    FollowOn s (requests isWrite addr (partSizes mps len)) ↔
      addr + ((len - 1) / mps * mps : ℕ) < 2 ^ 64 := by
  induction len using partSizes_induction hmps generalizing addr s with
  | zero => omega
  | part len hpos ih =>
    have hstart : (request isWrite addr (min mps len)).start = s ↔ addr < 2 ^ 64 := by
      have hwire := wireAddr_div addr
      rw [start_request]
      omega
    rw [partSizes_of_pos hmps hpos, requests, FollowOn, hstart]
    rcases Nat.lt_or_ge mps len with hmore | hlast
    · have hnext : ((s + (request isWrite addr (min mps len)).count : ℕ) : ℤ) =
          (addr + (min mps len : ℕ)) / 4 := by
        rw [count_request, lengthDw]
        omega
      rw [ih (by omega) hnext, lastAddr_succ hmps hmore]
      omega
    · rw [Nat.sub_eq_zero_of_le hlast, partSizes_zero hmps,
        Nat.div_eq_of_lt (show len - 1 < mps by omega)]
      constructor
      · rintro ⟨h, -⟩
        omega
      · intro h
        exact ⟨by omega, trivial⟩

/-- The requests of a transfer tile it exactly when it is aligned. -/
theorem tiles_requests_iff (hmps : 0 < mps) (h4 : mps % 4 = 0) :
    Tiles isWrite mps addr len (requests isWrite addr (partSizes mps len)) ↔
      Aligned mps addr len := by
  rcases Nat.eq_zero_or_pos len with rfl | hlen
  · refine iff_of_true ?_ (Or.inl rfl)
    rw [partSizes_zero hmps]
    refine ⟨fun q h => absurd h List.not_mem_nil, fun q h => absurd h List.not_mem_nil,
      fun q h => absurd h List.not_mem_nil, ⟨0, trivial⟩, fun w => ⟨?_, ?_⟩⟩
    · rintro ⟨q, hq, -⟩
      exact absurd hq List.not_mem_nil
    · rintro ⟨b, hlo, hhi, -⟩
      omega
  have htotal : totalCount (requests isWrite addr (partSizes mps len)) = lengthDw len :=
    totalCount_requests hmps h4
  constructor
  · intro h
    obtain ⟨s, hs⟩ := h.consecutive
    -- The covered interval is that of the requests, so both of its ends are right.
    have hends : ∀ w : ℤ, ((s : ℤ) ≤ w ∧ w < s + lengthDw len) ↔
        addr / 4 ≤ w ∧ w ≤ (addr + len - 1) / 4 := by
      intro w
      rw [← htotal, ← covers_followOn hs w, h.covers w, covered_iff hlen]
    have hdw : lengthDw len = (len + 3) / 4 := rfl
    have hfirst := hends s
    have hfirst' := hends (addr / 4)
    have hlast := hends (s + lengthDw len - 1)
    have hlast' := hends ((addr + len - 1) / 4)
    have hstart : (s : ℤ) = addr / 4 := by omega
    refine Or.inr ⟨by omega, by omega, (followOn_requests_iff hmps h4 hlen hstart).mp hs⟩
  · rintro (rfl | ⟨h0, hmod, hlast⟩)
    · exact absurd hlen (Nat.lt_irrefl 0)
    have hstart : ((addr / 4).toNat : ℤ) = addr / 4 := by omega
    have hfollow : FollowOn (addr / 4).toNat (requests isWrite addr (partSizes mps len)) :=
      (followOn_requests_iff hmps h4 hlen hstart).mpr hlast
    refine ⟨fun q hq => ?_, fun q hq => ?_, fun q hq => ?_, ⟨_, hfollow⟩, fun w => ?_⟩
    · obtain ⟨a, n, rfl, -⟩ := exists_request hmps hq
      rfl
    · obtain ⟨a, n, rfl, -, -, hlo, hhi⟩ := exists_request hmps hq
      have hwire := (wireAddr_div a).mpr ⟨by omega, by omega⟩
      rw [fourDw_request, start_request, DmaEngine.needs4dw, decide_eq_true_eq]
      omega
    · obtain ⟨a, n, rfl, -, hn, -⟩ := exists_request hmps hq
      rw [count_request, lengthDw]
      omega
    · rw [covers_followOn hfollow, htotal, covered_iff hlen, lengthDw]
      omega

end Tilings

end Pcie

end NpuArc
