import NpuArc.Pcie.Transfers

/-!
# Split completions

A read with reassembly answers every request by completions that end at a boundary, each with the
count of bytes that remain for its request. The count is carried in ten bits.
-/

namespace NpuArc

namespace Pcie

namespace DmaEngine

/-- The headers of the completions of one request, by what remains and the sizes of the parts. -/
def completionHeaders (d : DmaEngine) (tag : Tag) : ℕ → List ℕ → List (List UInt8)
  | _, [] => []
  | n, s :: sizes =>
    d.buildCpldHeader (lengthDw s) tag n 0 0 :: completionHeaders d tag (n - s) sizes

/-- Headers are those of the completions of requests of some sizes. -/
def Answers (d : DmaEngine) : List ℕ → List (List UInt8) → Prop
  | [], hs => hs = []
  | n :: sizes, hs => ∃ tag rest,
    hs = d.completionHeaders tag n (partSizes rcb n) ++ rest ∧ d.Answers sizes rest

end DmaEngine

/-- The headers of the completions of a request, with their payloads: the byte count starts at
what remains of the request, decreases by each payload, and ends at zero. -/
inductive CountsDown : ℕ → List (List UInt8) → List (List UInt8) → Prop
  | done : CountsDown 0 [] []
  | next {n tag : ℕ} {payload header : List UInt8} {payloads headers : List (List UInt8)} :
    DmaEngine.parseCpldHeader header = .ok (lengthDw payload.length * 4, tag, n, 0) →
    payload ≠ [] → payload.length ≤ n → CountsDown (n - payload.length) payloads headers →
    CountsDown n (payload :: payloads) (header :: headers)

/-- The headers of the completions of requests, with their payloads, count down each request. -/
def Completes : List ℕ → List (List UInt8) → List (List UInt8) → Prop
  | [], payloads, headers => payloads = [] ∧ headers = []
  | n :: sizes, payloads, headers => ∃ ps payloads' hs headers',
    payloads = ps ++ payloads' ∧ headers = hs ++ headers' ∧ CountsDown n ps hs ∧
      Completes sizes payloads' headers'

section Headers

variable {dw : ℕ}

/-- The second word of a completion, which carries the low bits of the byte count. -/
theorem cpld_dw1 (cid : UInt16) (byteCount : ℕ) :
    (cid.toNat <<< 16 ||| (byteCount &&& 0xFF) <<< 8 ||| 0x80) >>> 8 &&& 0xFF = byteCount % 256 ∧
      cid.toNat <<< 16 ||| (byteCount &&& 0xFF) <<< 8 ||| 0x80 < 2 ^ 32 := by
  have hid := cid.toNat_lt
  have hmask : byteCount &&& 0xFF = byteCount % 256 := and_mask byteCount 8
  have hfield : ∀ x : ℕ, x >>> 8 &&& 0xFF = x / 256 % 256 := fun x => shiftRight_and_mask x 8 8
  rw [hmask, hfield, Nat.shiftLeft_eq, Nat.shiftLeft_eq,
    or_eq_add (i := 16) (Nat.mul_mod_left _ _) (by omega), or_eq_add (i := 8) (by omega) (by omega)]
  omega

/-- The third word of a completion, which carries the tag, the high bits of the byte count and the
status. -/
theorem cpld_dw2 (requesterId : UInt16) (tag : Tag) (byteCount status : ℕ) :
    ∃ w, w = requesterId.toNat <<< 16 ||| tag.val <<< 8 ||| byteCount >>> 8 &&& 0x3 |||
        (status &&& 0xF) <<< 4 ∧
      w >>> 8 &&& 0xFF = tag.val ∧ w &&& 0x3 = byteCount / 256 % 4 ∧
      w >>> 4 &&& 0xF = status % 16 ∧ w < 2 ^ 32 := by
  have hid := requesterId.toNat_lt
  have htag : tag.val < 256 := tag.isLt
  have hcount : byteCount >>> 8 &&& 0x3 = byteCount / 256 % 4 := shiftRight_and_mask byteCount 8 2
  have hstatus : status &&& 0xF = status % 16 := and_mask status 4
  have h8 : ∀ x : ℕ, x >>> 8 &&& 0xFF = x / 256 % 256 := fun x => shiftRight_and_mask x 8 8
  have h4 : ∀ x : ℕ, x >>> 4 &&& 0xF = x / 16 % 16 := fun x => shiftRight_and_mask x 4 4
  have h2 : ∀ x : ℕ, x &&& 0x3 = x % 4 := fun x => and_mask x 2
  have hlow : byteCount / 256 % 4 ||| status % 16 * 2 ^ 4 =
      status % 16 * 2 ^ 4 + byteCount / 256 % 4 := by
    rw [Nat.or_comm, or_eq_add (i := 4) (Nat.mul_mod_left _ _) (by omega)]
  refine ⟨_, rfl, ?_⟩
  rw [hcount, hstatus, h8, h4, h2, Nat.shiftLeft_eq, Nat.shiftLeft_eq, Nat.shiftLeft_eq,
    or_eq_add (i := 16) (Nat.mul_mod_left _ _) (by omega), Nat.or_assoc, hlow,
    or_eq_add (i := 8) (by omega) (by omega)]
  omega

/-- A completion is parsed into its fields. The byte count has ten bits. -/
theorem parseCpldHeader_build (d : DmaEngine) (tag : Tag) (byteCount : ℕ) (cid : UInt16)
    (status : ℕ) (hdw : dw < 1024) :
    DmaEngine.parseCpldHeader (d.buildCpldHeader dw tag byteCount cid status) =
      .ok (dw * 4, tag.val, byteCount % 1024, status % 16) := by
  have hfmt : 0x4A < 2 ^ 8 := by decide
  obtain ⟨-, hfield, hlt⟩ := dw0_fields dw hfmt
  obtain ⟨hlow, hlt1⟩ := cpld_dw1 (if cid ≠ 0 then cid else d.completerId) byteCount
  obtain ⟨w, hw, htag, hhigh, hstatus, hlt2⟩ := cpld_dw2 d.requesterId tag byteCount status
  have hcount : (byteCount / 256 % 4) <<< 8 ||| byteCount % 256 = byteCount % 1024 := by
    rw [Nat.shiftLeft_eq, or_eq_add (i := 8) (Nat.mul_mod_left _ _) (by omega)]
    omega
  have hwords : ∀ v ∈ [0x4A <<< 24 ||| dw &&& 0x3FF,
      (if cid ≠ 0 then cid else d.completerId).toNat <<< 16 ||| (byteCount &&& 0xFF) <<< 8 ||| 0x80,
      w], v < 2 ^ 32 := by
    intro v hv
    rcases List.mem_cons.mp hv with rfl | hv
    · exact hlt
    rcases List.mem_cons.mp hv with rfl | hv
    · exact hlt1
    · rwa [List.mem_singleton.mp hv]
  have hlength : ∀ a b c : ℕ, (packWords [a, b, c]).length = 12 := by
    intro a b c
    simp only [packWords, List.flatMap_cons, List.flatMap_nil, List.length_append,
      List.length_reverse, length_toBytes, List.length_nil]
  rw [DmaEngine.parseCpldHeader, DmaEngine.buildCpldHeader]
  dsimp only
  rw [← hw, if_neg (not_not_intro (hlength _ _ _)), unpackWords_packWords hwords]
  simp only [List.getD_cons_zero, List.getD_cons_succ]
  rw [hfield, hlow, htag, hhigh, hstatus, hcount, Nat.mod_eq_of_lt hdw]

end Headers

section Completions

variable {d : DmaEngine} {tag : Tag} {hostMem : List UInt8} {addr : ℤ} {n fuel mps : ℕ}
  {sizes : List ℕ} {payloads hs : List (List UInt8)}

/-- The payloads of parts of some sizes. -/
def hostParts (hostMem : List UInt8) (addr : ℤ) : List ℕ → List (List UInt8)
  | [] => []
  | s :: sizes => hostBytes hostMem addr s :: hostParts hostMem (addr + s) sizes

theorem rcb_pos : 0 < DmaEngine.rcb := by decide

theorem le_of_mem_partSizes {s : ℕ} (hs : s ∈ partSizes mps n) : s ≤ min n mps := by
  obtain ⟨i, -, rfl⟩ := List.mem_map.mp hs
  omega

theorem length_requests {isWrite : Bool} :
    (requests isWrite addr sizes).length = sizes.length := by
  induction sizes generalizing addr with
  | nil => rfl
  | cons s sizes ih => rw [requests, List.length_cons, ih, List.length_cons]

/-- The completions of one request give its bytes. -/
theorem splitCompletions_eq (allData : List UInt8) (cpldHeaders : List (List UInt8))
    (h0 : 0 ≤ addr) (hfuel : n ≤ fuel) :
    DmaEngine.splitCompletions d tag fuel addr n allData cpldHeaders =
      (allData ++ hostBytes d.hostMem addr n,
        cpldHeaders ++ d.completionHeaders tag n (partSizes DmaEngine.rcb n)) := by
  have hnothing : ∀ (addr : ℤ) (allData : List UInt8) (cpldHeaders : List (List UInt8)),
      (allData, cpldHeaders) = (allData ++ hostBytes d.hostMem addr 0,
        cpldHeaders ++ d.completionHeaders tag 0 (partSizes DmaEngine.rcb 0)) := by
    intro addr allData cpldHeaders
    rw [partSizes_zero rcb_pos, DmaEngine.completionHeaders, List.append_nil]
    exact congrArg (·, cpldHeaders) (List.append_nil allData).symm
  induction fuel generalizing addr n allData cpldHeaders with
  | zero =>
    obtain rfl : n = 0 := by omega
    exact hnothing addr allData cpldHeaders
  | succ fuel ih =>
    rw [DmaEngine.splitCompletions]
    split_ifs with hzero
    · rw [hzero]
      exact hnothing addr allData cpldHeaders
    · have hpos : 0 < n := by omega
      have hrcb := rcb_pos
      dsimp only
      rw [ih _ _ (by omega) (by omega), splitHost_eq_hostBytes h0, List.append_assoc,
        ← hostBytes_add h0, show min n DmaEngine.rcb + (n - min n DmaEngine.rcb) = n by omega,
        partSizes_of_pos rcb_pos hpos, DmaEngine.completionHeaders, List.append_assoc,
        Nat.min_comm, show n - min DmaEngine.rcb n = n - DmaEngine.rcb by omega]
      rfl

theorem flatten_hostParts (h0 : 0 ≤ addr) :
    (hostParts hostMem addr sizes).flatten = hostBytes hostMem addr sizes.sum := by
  induction sizes generalizing addr with
  | nil => rfl
  | cons s sizes ih =>
    rw [hostParts, List.flatten_cons, ih (by omega), List.sum_cons, hostBytes_add h0]

theorem sum_partSizes (hmps : 0 < mps) : (partSizes mps n).sum = n := by
  induction n using partSizes_induction hmps with
  | zero => rw [partSizes_zero hmps, List.sum_nil]
  | part n hpos ih =>
    rw [partSizes_of_pos hmps hpos, List.sum_cons, ih]
    omega

/-- The completions of a request whose size fits the byte count count it down. -/
theorem countsDown (hostMem : List UInt8) (addr : ℤ) (hn : n < 1024) :
    CountsDown n (hostParts hostMem addr (partSizes DmaEngine.rcb n))
      (d.completionHeaders tag n (partSizes DmaEngine.rcb n)) := by
  induction n using partSizes_induction rcb_pos generalizing addr with
  | zero =>
    rw [partSizes_zero rcb_pos]
    exact .done
  | part n hpos ih =>
    have hrcb : DmaEngine.rcb = 128 := rfl
    have hlen : (hostBytes hostMem addr (min DmaEngine.rcb n)).length = min DmaEngine.rcb n :=
      length_hostBytes
    rw [partSizes_of_pos rcb_pos hpos, hostParts, DmaEngine.completionHeaders]
    have hdw : lengthDw (min DmaEngine.rcb n) < 1024 := by
      rw [lengthDw]
      omega
    have hparse := parseCpldHeader_build d tag n 0 0 hdw
    rw [Nat.mod_eq_of_lt hn, show lengthDw (min DmaEngine.rcb n) * 4 =
      lengthDw (hostBytes hostMem addr (min DmaEngine.rcb n)).length * 4 by rw [hlen]] at hparse
    refine .next hparse ?_ (by omega) ?_
    · rw [← List.length_pos_iff, hlen]
      omega
    · rw [hlen, show n - min DmaEngine.rcb n = n - DmaEngine.rcb by omega]
      exact ih _ (by omega)

/-- The byte count of a request of 1024 bytes or more does not start at its size. -/
theorem lt_of_countsDown (h : CountsDown n payloads hs) {rest : List (List UInt8)}
    {hs' : List (List UInt8)}
    (hcode : hs ++ rest = d.completionHeaders tag n (partSizes DmaEngine.rcb n) ++ hs') :
    n < 1024 := by
  cases h with
  | done => decide
  | next hparse hne hle hrest =>
    have hpos : 0 < n := Nat.lt_of_lt_of_le (List.length_pos_iff.mpr hne) hle
    rw [partSizes_of_pos rcb_pos hpos, DmaEngine.completionHeaders, List.cons_append,
      List.cons_append] at hcode
    have hrcb : DmaEngine.rcb = 128 := rfl
    have hdw : lengthDw (min DmaEngine.rcb n) < 1024 := by
      rw [lengthDw]
      omega
    rw [(List.cons.inj hcode).1, parseCpldHeader_build d tag n 0 0 hdw] at hparse
    have hcount : n % 1024 = n := congrArg (fun x => x.2.2.1) (Except.ok.inj hparse)
    omega

/-- Requests whose sizes fit the byte count are completed. -/
theorem completes_of_answers (hostMem : List UInt8) (hsizes : ∀ n ∈ sizes, n < 1024)
    (h : d.Answers sizes hs) (h0 : 0 ≤ addr) :
    ∃ payloads, payloads.flatten = hostBytes hostMem addr sizes.sum ∧
      Completes sizes payloads hs := by
  induction sizes generalizing addr hs with
  | nil => exact ⟨[], rfl, rfl, h⟩
  | cons n sizes ih =>
    obtain ⟨tag, rest, rfl, hrest⟩ := h
    have h0' : 0 ≤ addr + n := by omega
    obtain ⟨payloads, hflat, hcompletes⟩ :=
      ih (fun m hm => hsizes m (List.mem_cons_of_mem n hm)) hrest h0'
    refine ⟨hostParts hostMem addr (partSizes DmaEngine.rcb n) ++ payloads, ?_, _, _, _, _, rfl,
      rfl, countsDown hostMem addr (hsizes n List.mem_cons_self), hcompletes⟩
    rw [List.flatten_append, flatten_hostParts h0, sum_partSizes rcb_pos, hflat, List.sum_cons,
      hostBytes_add h0]

end Completions

section Reassembly

variable {order : PopOrder} {d : DmaEngine} {addr : ℤ} {n fuel : ℕ}
  {allData : List UInt8} {readHeaders cpldHeaders : List (List UInt8)}

theorem reassembleTlps_zero :
    DmaEngine.reassembleTlps order fuel d addr 0 allData readHeaders cpldHeaders =
      (d, .ok (allData, readHeaders, cpldHeaders)) := by
  cases fuel with
  | zero => rfl
  | succ fuel => rw [DmaEngine.reassembleTlps, if_pos rfl]

/-- The headers of completions do not depend on the pool. -/
theorem completionHeaders_taken (d : DmaEngine) (free : Finset Tag) (k : ℕ) (tag : Tag) (n : ℕ)
    (sizes : List ℕ) :
    DmaEngine.completionHeaders { d with tagFree := free, pops := k } tag n sizes =
      d.completionHeaders tag n sizes := by
  induction sizes generalizing n with
  | nil => rfl
  | cons s sizes ih =>
    rw [DmaEngine.completionHeaders, ih]
    rfl

theorem answers_pops {sizes : List ℕ} {hs : List (List UInt8)} (k : ℕ) :
    DmaEngine.Answers { d with pops := k } sizes hs ↔ d.Answers sizes hs := by
  induction sizes generalizing hs with
  | nil => exact Iff.rfl
  | cons n sizes ih =>
    have hheaders := completionHeaders_taken d d.tagFree k
    simp only [DmaEngine.Answers, hheaders, ih]

theorem reassembleTlps_nothing (allData : List UInt8)
    (readHeaders cpldHeaders : List (List UInt8)) :
    ∃ rs cs, DmaEngine.reassembleTlps order fuel d addr 0 allData readHeaders cpldHeaders =
        ({ d with pops := d.pops + d.packets 0 },
          .ok (allData ++ hostBytes d.hostMem addr 0, readHeaders ++ rs, cpldHeaders ++ cs)) ∧
      rs.length = d.packets 0 ∧ d.Answers (partSizes d.maxPayloadBytes 0) cs := by
  have hmps := d.maxPayloadBytes_pos
  have hbytes : hostBytes d.hostMem addr 0 = [] := rfl
  refine ⟨[], [], ?_, ?_, ?_⟩
  · rw [reassembleTlps_zero, DmaEngine.packets, partSizes_zero hmps, hbytes, List.append_nil,
      List.append_nil, List.append_nil]
    rfl
  · rw [DmaEngine.packets, partSizes_zero hmps]
    rfl
  · rw [partSizes_zero hmps, DmaEngine.Answers]

/-- One request of a read by split completions. -/
theorem reassembleTlps_succ (fuel : ℕ) (allData : List UInt8)
    (readHeaders cpldHeaders : List (List UInt8)) (hfree : d.tagFree.Nonempty) (h0 : 0 ≤ addr)
    (hpos : 0 < n) :
    DmaEngine.reassembleTlps order (fuel + 1) d addr n allData readHeaders cpldHeaders =
      DmaEngine.reassembleTlps order fuel { d with pops := d.pops + 1 }
        (addr + (min n d.maxPayloadBytes : ℕ)) (n - d.maxPayloadBytes)
        (allData ++ hostBytes d.hostMem addr (min n d.maxPayloadBytes))
        (readHeaders ++ [d.memHeader false addr (min n d.maxPayloadBytes) (d.tagAfter order 0)])
        (cpldHeaders ++ d.completionHeaders (d.tagAfter order 0) (min n d.maxPayloadBytes)
          (partSizes DmaEngine.rcb (min n d.maxPayloadBytes))) := by
  have hback : insert (d.tagAfter order 0) (d.tagFree.erase (d.tagAfter order 0)) = d.tagFree :=
    Finset.insert_erase (order.pop_mem _ _ hfree)
  rw [DmaEngine.reassembleTlps, if_neg (by omega)]
  dsimp only
  rw [allocTag_eq_ok hfree]
  dsimp only [DmaEngine.freeTag]
  rw [splitCompletions_eq _ _ h0 (Nat.le_refl _), hback,
    show n - min n d.maxPayloadBytes = n - d.maxPayloadBytes by omega,
    completionHeaders_taken]
  rfl

/-- A read by split completions gives the bytes of its range, and the headers of the completions
of its requests. -/
theorem reassembleTlps_eq_ok (order : PopOrder) (allData : List UInt8)
    (readHeaders cpldHeaders : List (List UInt8)) (hfree : d.tagFree.Nonempty) (h0 : 0 ≤ addr)
    (hfuel : n ≤ fuel) :
    ∃ rs cs, DmaEngine.reassembleTlps order fuel d addr n allData readHeaders cpldHeaders =
        ({ d with pops := d.pops + d.packets n },
          .ok (allData ++ hostBytes d.hostMem addr n, readHeaders ++ rs, cpldHeaders ++ cs)) ∧
      rs.length = d.packets n ∧ d.Answers (partSizes d.maxPayloadBytes n) cs := by
  induction fuel generalizing d addr n allData readHeaders cpldHeaders with
  | zero =>
    obtain rfl : n = 0 := by omega
    exact reassembleTlps_nothing allData readHeaders cpldHeaders
  | succ fuel ih =>
    rcases Nat.eq_zero_or_pos n with rfl | hpos
    · exact reassembleTlps_nothing allData readHeaders cpldHeaders
    have hmps := d.maxPayloadBytes_pos
    have hfree' : ({ d with pops := d.pops + 1 } : DmaEngine).tagFree.Nonempty := hfree
    have h0' : 0 ≤ addr + (min n d.maxPayloadBytes : ℕ) := by omega
    have hfuel' : n - d.maxPayloadBytes ≤ fuel := by omega
    obtain ⟨rs, cs, hrun, hlen, hanswers⟩ := ih
      (allData ++ hostBytes d.hostMem addr (min n d.maxPayloadBytes))
      (readHeaders ++ [d.memHeader false addr (min n d.maxPayloadBytes) (d.tagAfter order 0)])
      (cpldHeaders ++ d.completionHeaders (d.tagAfter order 0) (min n d.maxPayloadBytes)
        (partSizes DmaEngine.rcb (min n d.maxPayloadBytes))) hfree' h0' hfuel'
    have hpackets : ({ d with pops := d.pops + 1 } : DmaEngine).packets (n - d.maxPayloadBytes) =
        d.packets (n - d.maxPayloadBytes) := rfl
    refine ⟨d.memHeader false addr (min n d.maxPayloadBytes) (d.tagAfter order 0) :: rs,
      d.completionHeaders (d.tagAfter order 0) (min n d.maxPayloadBytes)
        (partSizes DmaEngine.rcb (min n d.maxPayloadBytes)) ++ cs, ?_, ?_, ?_⟩
    · rw [reassembleTlps_succ fuel allData readHeaders cpldHeaders hfree h0 hpos, hrun, hpackets,
        packets_succ hpos, List.append_assoc, List.append_assoc, List.append_assoc,
        ← hostBytes_add h0, show min n d.maxPayloadBytes + (n - d.maxPayloadBytes) = n by omega,
        Nat.add_comm (d.packets _), ← Nat.add_assoc]
      rfl
    · rw [List.length_cons, hlen, hpackets, packets_succ hpos]
    · rw [partSizes_of_pos hmps hpos, Nat.min_comm]
      exact ⟨d.tagAfter order 0, cs, rfl, (answers_pops _).mp hanswers⟩

end Reassembly

section Agreement

variable {order : PopOrder} {d : DmaEngine} {addr : ℤ} {len : ℕ}

/-- No completion error is injected. -/
def DmaEngine.NoInjected (d : DmaEngine) : Prop := ∀ tag, d.statusOf tag = cplStatusSc

/-- A read with reassembly gives the data of a plain read and as many headers of requests, and
the byte counts of its completions count down every request. -/
def ReassemblyAgrees (order : PopOrder) (d : DmaEngine) (addr : ℤ) (len : ℕ) : Prop :=
  ∃ data readHeaders readHeaders' cpldHeaders payloads,
    (d.tlpRead order addr len).2 = .ok (data, readHeaders) ∧
    (d.tlpReadWithReassembly order addr len).2 = .ok (data, readHeaders', cpldHeaders) ∧
    readHeaders'.length = readHeaders.length ∧ payloads.flatten = data ∧
    Completes (partSizes d.maxPayloadBytes len) payloads cpldHeaders

theorem tlpReadWithReassembly_eq_ok (order : PopOrder) (len : ℕ) (hfree : d.tagFree.Nonempty)
    (h0 : 0 ≤ addr) :
    ∃ rs cs, (d.tlpReadWithReassembly order addr len).2 =
        .ok (hostBytes d.hostMem addr len, rs, cs) ∧
      rs.length = d.packets len ∧ d.Answers (partSizes d.maxPayloadBytes len) cs := by
  obtain ⟨rs, cs, hrun, h⟩ := reassembleTlps_eq_ok order [] [] [] hfree h0
    (Nat.le_refl len)
  refine ⟨rs, cs, ?_, h⟩
  rw [List.nil_append, List.nil_append, List.nil_append] at hrun
  rw [DmaEngine.tlpReadWithReassembly, if_neg (by omega), Int.toNat_natCast]
  split_ifs with hzero
  · obtain rfl : len = 0 := by omega
    rw [reassembleTlps_zero] at hrun
    exact congrArg Prod.snd hrun
  · rw [hrun]

/-- The requests of a read with reassembly that agrees fit the byte count. -/
theorem lt_of_reassemblyAgrees (hfree : d.tagFree.Nonempty) (h0 : 0 ≤ addr)
    (h : ReassemblyAgrees order d addr len) : min len d.maxPayloadBytes < 1024 := by
  have hmps := d.maxPayloadBytes_pos
  obtain ⟨rs, cs, hsplit, -, hanswers⟩ := tlpReadWithReassembly_eq_ok order len hfree h0
  obtain ⟨data, readHeaders, readHeaders', cpldHeaders, payloads, -, hrun, -, -, hcompletes⟩ := h
  rcases Nat.eq_zero_or_pos len with rfl | hpos
  · omega
  rw [hsplit] at hrun
  cases hrun
  rw [partSizes_of_pos hmps hpos] at hcompletes hanswers
  obtain ⟨ps, payloads', hs, headers', -, hheaders, hdown, -⟩ := hcompletes
  obtain ⟨tag, rest, hcode, -⟩ := hanswers
  rw [Nat.min_comm]
  exact lt_of_countsDown hdown (hheaders.symm.trans hcode)

/-- A read with reassembly agrees with a plain read exactly when the sizes of its requests fit the
ten bits of a byte count. -/
theorem reassembly_agrees_iff (hidle : d.Idle) (hclean : d.NoInjected) (h0 : 0 ≤ addr) :
    ReassemblyAgrees order d addr len ↔ min len d.maxPayloadBytes < 1024 := by
  refine ⟨lt_of_reassemblyAgrees hidle.nonempty h0, fun hfit => ?_⟩
  have hquiet : d.Quiet order len := fun k _ => hclean _
  obtain ⟨rs, cs, hsplit, hcount, hanswers⟩ :=
    tlpReadWithReassembly_eq_ok order len hidle.nonempty h0
  obtain ⟨errors, data, hs, hread, -, hrequests, hdata⟩ :=
    DmaEngine.tlpRead_eq_ok addr hidle.nonempty hquiet
  have hsizes : ∀ n ∈ partSizes d.maxPayloadBytes len, n < 1024 := by
    intro n hn
    have hle := le_of_mem_partSizes hn
    omega
  obtain ⟨payloads, hflat, hcompletes⟩ := completes_of_answers d.hostMem hsizes hanswers h0
  rw [sum_partSizes d.maxPayloadBytes_pos] at hflat
  have hheaders : rs.length = hs.length := by
    have hlen := congrArg List.length hrequests
    rw [List.length_map, List.length_map, length_requests] at hlen
    exact hcount.trans hlen.symm
  refine ⟨data, hs, rs, cs, payloads, ?_, ?_, hheaders, ?_, hcompletes⟩
  · rw [hread]
  · rw [hsplit, hdata h0]
  · rw [hflat, hdata h0]

theorem sampleEngine_noInjected : sampleEngine.NoInjected := fun _ => rfl

/-- The condition of a read with reassembly at a sample engine. -/
theorem sample_reassembly_agrees_iff : sampleEngine.Idle ∧ sampleEngine.NoInjected ∧
    (ReassemblyAgrees leastTag sampleEngine 4 300 ↔ min 300 sampleEngine.maxPayloadBytes < 1024) :=
  ⟨sampleEngine_idle, sampleEngine_noInjected,
    reassembly_agrees_iff sampleEngine_idle sampleEngine_noInjected (by decide)⟩

/-- A request of 1024 bytes has a byte count of zero. -/
theorem reassembly_not_agrees : ¬ ∀ (order : PopOrder) (d : DmaEngine) (addr : ℤ) (len : ℕ),
    d.Idle → d.NoInjected → 0 ≤ addr → ReassemblyAgrees order d addr len := by
  intro h
  have hidle : (DmaEngine.new none [1] 0 3).Idle := rfl
  have hfit := lt_of_reassemblyAgrees hidle.nonempty (Int.le_refl 0)
    (h leastTag (.new none [1] 0 3) 0 1024 hidle (fun _ => rfl) (Int.le_refl 0))
  exact absurd hfit (by decide)

end Agreement

end Pcie

end NpuArc
